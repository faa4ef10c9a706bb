import Ume.Concurrency.EpochSequential

/-! How far a reader can fall behind. When calls happen one at a time, only a timeout
lets the epoch leave an active reader more than one behind. -/

namespace Ume

namespace EpochRcu

/-- No active slot is more than one epoch behind. -/
def Near (rcu : EpochRcu) : Prop :=
  ∀ i, (rcu.slots i).active = true → rcu.globalEpoch.toNat ≤ (rcu.slots i).epoch.toNat + 1

section Near

variable {rcu : EpochRcu} {timeoutMs : UInt32} {clock : Nat → UInt64}

/-- A scan that meets no active slot which has timed out. -/
def NoneTimedOut (timeoutMs : UInt32) (rcu : EpochRcu) (clock : Nat → UInt64) : Prop :=
  ∀ i < rcu.scannedSlots, (rcu.slots i).active = true →
    elapsedMs (clock i) (rcu.slots i).entryTimeNs < timeoutMs.toUInt64

instance : Decidable (rcu.NoneTimedOut timeoutMs clock) :=
  inferInstanceAs (Decidable (∀ i < rcu.scannedSlots, (rcu.slots i).active = true →
    elapsedMs (clock i) (rcu.slots i).entryTimeNs < timeoutMs.toUInt64))

theorem Near.setSlot (h : rcu.Near) {i : Nat} {slot : ThreadEpochSlot}
    (hslot : slot.active = true → slot.epoch = rcu.globalEpoch) :
    Near { rcu with slots := Function.update rcu.slots i slot } := by
  intro j hj
  dsimp only at hj ⊢
  by_cases hji : j = i
  · subst hji
    rw [Function.update_self] at hj ⊢
    rw [hslot hj]
    exact Nat.le_succ _
  · rw [Function.update_of_ne hji] at hj ⊢
    exact h j hj

/-- Without timeouts the epoch advances only if every active reader has reached it. -/
theorem Near.tryAdvanceEpoch (h : rcu.Near) (hbounded : rcu.Bounded)
    (hok : rcu.NoneTimedOut timeoutMs clock) : Near (rcu.tryAdvanceEpoch timeoutMs clock).2 := by
  rw [EpochRcu.tryAdvanceEpoch]
  split_ifs with hany
  · exact h
  · intro i hi
    dsimp only at hi ⊢
    have hscanned := (hbounded.slots i hi).1
    have hreached : rcu.globalEpoch ≤ (rcu.slots i).epoch := by
      by_contra hbehind
      refine hany (List.any_eq_true.mpr ⟨i, List.mem_range.mpr hscanned, ?_⟩)
      simp only [ThreadEpochSlot.blocks, Bool.and_eq_true, decide_eq_true_eq]
      exact ⟨⟨hi, UInt64.not_le.mp hbehind⟩, hok i hscanned hi⟩
    have hnat := UInt64.le_iff_toNat_le.mp hreached
    have hsucc : (rcu.globalEpoch + 1).toNat ≤ rcu.globalEpoch.toNat + 1 := by
      rw [UInt64.toNat_add]
      exact Nat.mod_le _ _
    omega

end Near

namespace Session

variable {ι : Type*} {timeoutMs : UInt32} {s s' : Session ι}

def NoTimeout (timeoutMs : UInt32) (s : Session ι) : Call ι → Prop
  | .tryAdvanceEpoch clock | .reclaim clock => s.rcu.NoneTimedOut timeoutMs clock
  | _ => True

instance (c : Call ι) : Decidable (NoTimeout timeoutMs s c) := by
  cases c <;> unfold NoTimeout <;> infer_instance

variable [DecidableEq ι]

theorem near_step {c : Call ι} (hnear : s.rcu.Near) (hinv : Inv s) (hok : NoTimeout timeoutMs s c)
    (hs : s.step timeoutMs c = some s') : s'.rcu.Near := by
  cases c with
  | registerThread p =>
    obtain ⟨-, hs⟩ := Option.ite_none_right_eq_some.mp hs
    obtain rfl := Option.some.inj hs
    cases hp : s.threadSlot p <;> exact hnear
  | enter slot nowNs =>
    obtain ⟨-, hs⟩ := Option.ite_none_right_eq_some.mp hs
    obtain rfl := Option.some.inj hs
    rw [EpochRcu.enter]
    split_ifs
    · exact hnear
    · exact hnear.setSlot fun _ => rfl
  | exit slot =>
    obtain rfl := Option.some.inj hs
    rw [EpochRcu.exit]
    split_ifs
    · exact hnear
    · exact hnear.setSlot fun hactive => absurd hactive Bool.false_ne_true
  | retire deleter =>
    obtain rfl := Option.some.inj hs
    cases deleter <;> exact hnear
  | tryAdvanceEpoch clock | reclaim clock =>
    obtain rfl := Option.some.inj hs
    exact hnear.tryAdvanceEpoch hinv.bounded hok

/-- A reader enters, the epoch advances once, and a second advance is held up by it. -/
def heldUp : List (Call Unit) :=
  [.registerThread (), .enter 0 5, .tryAdvanceEpoch fun _ => 6, .tryAdvanceEpoch fun _ => 7]

end Session

end EpochRcu

end Ume
