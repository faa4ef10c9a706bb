import Ume.Concurrency.EpochSlots

/-! What `reclaim` frees when calls happen one at a time. Every retirement epoch and the
epoch of every active slot is at most the global one, so an item of the current epoch
waits for nobody only if no reader is inside at all, and then the epoch advances past it. -/

namespace Ume

namespace EpochRcu

/-- An empty deleter is not retired. -/
def retire (rcu : EpochRcu) (deleter : Option Nat) : EpochRcu :=
  match deleter with
  | none => rcu
  | some d => { rcu with retiredList := rcu.retiredList ++ [⟨rcu.globalEpoch, d⟩] }

/-- The number of slots that the scans look at. -/
def scannedSlots (rcu : EpochRcu) : Nat := min rcu.allocatedSlots kMaxRcuThreads

/-- A reader of an older epoch that has not timed out. -/
def ThreadEpochSlot.blocks (timeoutMs : UInt32) (epoch nowNs : UInt64)
    (slot : ThreadEpochSlot) : Bool :=
  slot.active && slot.epoch < epoch && elapsedMs nowNs slot.entryTimeNs < timeoutMs.toUInt64

/-- The clock is read for a slot when the scan is there. -/
def tryAdvanceEpoch (timeoutMs : UInt32) (rcu : EpochRcu) (clock : Nat → UInt64) :
    Bool × EpochRcu :=
  if (List.range rcu.scannedSlots).any fun i =>
      ThreadEpochSlot.blocks timeoutMs rcu.globalEpoch (clock i) (rcu.slots i) then (false, rcu)
  else (true, { rcu with globalEpoch := rcu.globalEpoch + 1 })

def minActiveEpoch (rcu : EpochRcu) : UInt64 :=
  (List.range rcu.scannedSlots).foldl (fun minEpoch i =>
    if (rcu.slots i).active then min minEpoch (rcu.slots i).epoch else minEpoch) rcu.globalEpoch

/-- The number of items deleted and their deleters, in the order in which they run. -/
def reclaim (timeoutMs : UInt32) (rcu : EpochRcu) (clock : Nat → UInt64) :
    Nat × List Nat × EpochRcu :=
  let rcu := (rcu.tryAdvanceEpoch timeoutMs clock).2
  let minEpoch := rcu.minActiveEpoch
  let toDelete := rcu.retiredList.filter (·.epoch < minEpoch)
  (toDelete.length, toDelete.map DeferredDeletion.deleter,
    { rcu with retiredList := rcu.retiredList.filter fun item => !(item.epoch < minEpoch) })

/-- A slot is active with an epoch at which the item may still be held. -/
def MayHold (rcu : EpochRcu) (item : DeferredDeletion) : Prop :=
  ∃ i < kMaxRcuThreads, (rcu.slots i).active = true ∧ (rcu.slots i).epoch ≤ item.epoch

instance (rcu : EpochRcu) : DecidablePred rcu.MayHold := fun item =>
  inferInstanceAs (Decidable (∃ i < kMaxRcuThreads,
    (rcu.slots i).active = true ∧ (rcu.slots i).epoch ≤ item.epoch))

/-- No active slot and no retirement is ahead of the global epoch, and the scans look at
every active slot. -/
structure Bounded (rcu : EpochRcu) : Prop where
  slots : ∀ i, (rcu.slots i).active = true →
    i < rcu.scannedSlots ∧ (rcu.slots i).epoch ≤ rcu.globalEpoch
  retired : ∀ item ∈ rcu.retiredList, item.epoch ≤ rcu.globalEpoch

section Scans

variable {rcu : EpochRcu} {timeoutMs : UInt32} {clock : Nat → UInt64}

theorem toNat_epoch_succ {e : UInt64} (h : e.toNat + 1 < 2 ^ 64) :
    (e + 1).toNat = e.toNat + 1 := by
  rw [UInt64.toNat_add]
  exact Nat.mod_eq_of_lt h

theorem lt_min_iff_and {a b c : UInt64} : a < min b c ↔ a < b ∧ a < c := by
  show a < (if b ≤ c then b else c) ↔ _
  split_ifs with h
  · simp only [UInt64.lt_iff_toNat_lt, UInt64.le_iff_toNat_le] at h ⊢
    omega
  · simp only [UInt64.lt_iff_toNat_lt, UInt64.le_iff_toNat_le] at h ⊢
    omega

theorem lt_minActiveEpoch_iff {e : UInt64} :
    e < rcu.minActiveEpoch ↔ e < rcu.globalEpoch ∧
      ∀ i < rcu.scannedSlots, (rcu.slots i).active = true → e < (rcu.slots i).epoch := by
  have hscan (is : List Nat) (m : UInt64) :
      e < is.foldl (fun minEpoch i =>
        if (rcu.slots i).active then min minEpoch (rcu.slots i).epoch else minEpoch) m ↔
        e < m ∧ ∀ i ∈ is, (rcu.slots i).active = true → e < (rcu.slots i).epoch := by
    induction is generalizing m with
    | nil => simp
    | cons i is ih =>
      rw [List.foldl_cons, ih, List.forall_mem_cons]
      split_ifs with hactive
      · rw [lt_min_iff_and, and_assoc]
        simp only [hactive, true_imp_iff]
      · simp [hactive]
  rw [minActiveEpoch, hscan]
  simp only [List.mem_range]

theorem tryAdvanceEpoch_cases (timeoutMs : UInt32) (rcu : EpochRcu) (clock : Nat → UInt64) :
    rcu.tryAdvanceEpoch timeoutMs clock = (false, rcu) ∧
        (∃ i < rcu.scannedSlots, (rcu.slots i).active = true ∧
          (rcu.slots i).epoch < rcu.globalEpoch) ∨
      rcu.tryAdvanceEpoch timeoutMs clock =
        (true, { rcu with globalEpoch := rcu.globalEpoch + 1 }) := by
  rw [tryAdvanceEpoch]
  split_ifs with hany
  · obtain ⟨i, hi, hblocks⟩ := List.any_eq_true.mp hany
    simp only [ThreadEpochSlot.blocks, Bool.and_eq_true, decide_eq_true_eq] at hblocks
    exact .inl ⟨rfl, i, List.mem_range.mp hi, hblocks.1⟩
  · exact .inr rfl

theorem tryAdvanceEpoch_frame (timeoutMs : UInt32) (rcu : EpochRcu) (clock : Nat → UInt64) :
    (rcu.tryAdvanceEpoch timeoutMs clock).2 =
      { rcu with globalEpoch := (rcu.tryAdvanceEpoch timeoutMs clock).2.globalEpoch } := by
  rcases tryAdvanceEpoch_cases timeoutMs rcu clock with ⟨h, -⟩ | h <;> rw [h]

theorem toNat_tryAdvanceEpoch
    (hlt : rcu.globalEpoch.toNat + (rcu.tryAdvanceEpoch timeoutMs clock).1.toNat < 2 ^ 64) :
    (rcu.tryAdvanceEpoch timeoutMs clock).2.globalEpoch.toNat =
      rcu.globalEpoch.toNat + (rcu.tryAdvanceEpoch timeoutMs clock).1.toNat := by
  rcases tryAdvanceEpoch_cases timeoutMs rcu clock with ⟨h, -⟩ | h <;> rw [h] at hlt ⊢
  · rfl
  · exact toNat_epoch_succ hlt

/-- The epoch counts the advances, and does not go back, until it comes round. -/
theorem tryAdvanceEpoch_counts {n : Nat} (h : rcu.globalEpoch.toNat = n + 1)
    (hlt : n + (rcu.tryAdvanceEpoch timeoutMs clock).1.toNat + 1 < 2 ^ 64) :
    (rcu.tryAdvanceEpoch timeoutMs clock).2.globalEpoch.toNat =
        n + (rcu.tryAdvanceEpoch timeoutMs clock).1.toNat + 1 ∧
      rcu.globalEpoch ≤ (rcu.tryAdvanceEpoch timeoutMs clock).2.globalEpoch := by
  have hepoch : (rcu.tryAdvanceEpoch timeoutMs clock).2.globalEpoch.toNat =
      rcu.globalEpoch.toNat + (rcu.tryAdvanceEpoch timeoutMs clock).1.toNat :=
    toNat_tryAdvanceEpoch (by rw [h, Nat.add_right_comm]; exact hlt)
  refine ⟨by rw [hepoch, h, Nat.add_right_comm], ?_⟩
  rw [UInt64.le_iff_toNat_le, hepoch]
  exact Nat.le_add_right _ _

/-- A manager whose slots are the same but for one, which is entered with the global epoch
or left. -/
theorem Bounded.setSlot (h : rcu.Bounded) {i : Nat} {slot : ThreadEpochSlot}
    (hslot : slot.active = true → i < rcu.scannedSlots ∧ slot.epoch ≤ rcu.globalEpoch) :
    Bounded { rcu with slots := Function.update rcu.slots i slot } := by
  refine ⟨fun j hj => ?_, h.retired⟩
  dsimp only at hj ⊢
  by_cases hji : j = i
  · subst hji
    rw [Function.update_self] at hj ⊢
    exact hslot hj
  · rw [Function.update_of_ne hji] at hj ⊢
    exact h.slots j hj

theorem Bounded.registerThread (h : rcu.Bounded) {old : Option Nat}
    (hroom : old = none → rcu.allocatedSlots < kMaxRcuThreads) :
    Bounded (rcu.registerThread old).2 := by
  cases old with
  | some slot => exact h
  | none =>
    have hmod : (rcu.allocatedSlots + 1) % 2 ^ 64 = rcu.allocatedSlots + 1 := by
      have := hroom rfl
      unfold kMaxRcuThreads at this
      omega
    refine ⟨fun i hi => ?_, h.retired⟩
    obtain ⟨hscanned, hepoch⟩ := h.slots i hi
    refine ⟨?_, hepoch⟩
    rw [scannedSlots] at hscanned ⊢
    dsimp only [EpochRcu.registerThread]
    omega

theorem Bounded.enter (h : rcu.Bounded) {slot : Nat} (hslot : slot < rcu.allocatedSlots)
    (nowNs : UInt64) : Bounded (rcu.enter slot nowNs) := by
  rw [EpochRcu.enter]
  split_ifs with hmax
  · exact h
  · exact h.setSlot fun _ =>
      ⟨Nat.lt_min.mpr ⟨hslot, Nat.lt_of_not_le hmax⟩, UInt64.le_refl _⟩

theorem Bounded.exit (h : rcu.Bounded) (slot : Nat) : Bounded (rcu.exit slot) := by
  rw [EpochRcu.exit]
  split_ifs with hmax
  · exact h
  · exact h.setSlot fun hactive => absurd hactive Bool.false_ne_true

theorem Bounded.retire (h : rcu.Bounded) (deleter : Option Nat) :
    Bounded (rcu.retire deleter) := by
  cases deleter with
  | none => exact h
  | some d =>
    exact ⟨h.slots, List.forall_mem_append.mpr
      ⟨h.retired, List.forall_mem_singleton.mpr (UInt64.le_refl _)⟩⟩

/-- An item is deleted exactly if no slot may hold it. -/
theorem Bounded.deleted_iff (h : rcu.Bounded) (hlt : rcu.globalEpoch.toNat + 1 < 2 ^ 64)
    {item : DeferredDeletion} (hitem : item ∈ rcu.retiredList) :
    item.epoch < (rcu.tryAdvanceEpoch timeoutMs clock).2.minActiveEpoch ↔
      ¬ rcu.MayHold item := by
  rw [lt_minActiveEpoch_iff, tryAdvanceEpoch_frame]
  constructor
  · rintro ⟨-, hslots⟩ ⟨i, -, hactive, hle⟩
    exact UInt64.not_lt.mpr hle (hslots i (h.slots i hactive).1 hactive)
  · intro hfree
    have hslots : ∀ i < rcu.scannedSlots, (rcu.slots i).active = true →
        item.epoch < (rcu.slots i).epoch := by
      intro i hi hactive
      exact UInt64.not_le.mp fun hle => hfree ⟨i, hi.trans_le (Nat.min_le_right _ _), hactive, hle⟩
    refine ⟨?_, hslots⟩
    rcases tryAdvanceEpoch_cases timeoutMs rcu clock with ⟨hsame, i, hi, hactive, hold⟩ | hnext
    · rw [hsame]
      exact UInt64.lt_trans (hslots i hi hactive) hold
    · rw [hnext, UInt64.lt_iff_toNat_lt, toNat_epoch_succ hlt]
      exact Nat.lt_succ_of_le (UInt64.le_iff_toNat_le.mp (h.retired item hitem))

end Scans

/-- Threads that use one manager, and the advances of its epoch so far. -/
structure Session (ι : Type*) where
  rcu : EpochRcu := {}
  threadSlot : ι → Option Nat := fun _ => none
  advances : Nat := 0

namespace Session

variable {ι : Type*}

inductive Call (ι : Type*) where
  | registerThread (p : ι)
  | enter (slot : Nat) (nowNs : UInt64)
  | exit (slot : Nat)
  | retire (deleter : Option Nat)
  | tryAdvanceEpoch (clock : Nat → UInt64)
  | reclaim (clock : Nat → UInt64)

/-- At most 64 threads are registered, and only slots of registered threads are entered. -/
def step [DecidableEq ι] (timeoutMs : UInt32) (s : Session ι) : Call ι → Option (Session ι)
  | .registerThread p =>
    if s.threadSlot p = none → s.rcu.allocatedSlots < kMaxRcuThreads then
      let r := s.rcu.registerThread (s.threadSlot p)
      some { s with rcu := r.2, threadSlot := Function.update s.threadSlot p (some r.1) }
    else none
  | .enter slot nowNs =>
    if slot < s.rcu.allocatedSlots then some { s with rcu := s.rcu.enter slot nowNs } else none
  | .exit slot => some { s with rcu := s.rcu.exit slot }
  | .retire deleter => some { s with rcu := s.rcu.retire deleter }
  | .tryAdvanceEpoch clock =>
    let r := s.rcu.tryAdvanceEpoch timeoutMs clock
    some { s with rcu := r.2, advances := s.advances + r.1.toNat }
  | .reclaim clock =>
    some { s with
      rcu := (s.rcu.reclaim timeoutMs clock).2.2
      advances := s.advances + (s.rcu.tryAdvanceEpoch timeoutMs clock).1.toNat }

structure Inv (s : Session ι) : Prop where
  epoch : s.rcu.globalEpoch.toNat = s.advances + 1
  bounded : s.rcu.Bounded

theorem inv_initial : Inv ({} : Session ι) :=
  ⟨rfl, ⟨fun _ h => absurd h Bool.false_ne_true, fun _ h => absurd h List.not_mem_nil⟩⟩

variable {timeoutMs : UInt32} {s s' : Session ι} {c : Call ι}

/-- The state after the epoch has advanced, or not, and some items are gone. -/
theorem Inv.advance (h : Inv s) {clock : Nat → UInt64} {retired : List DeferredDeletion}
    (hretired : retired ⊆ s.rcu.retiredList)
    (hlt : s.advances + (s.rcu.tryAdvanceEpoch timeoutMs clock).1.toNat + 1 < 2 ^ 64) :
    Inv { s with
      rcu := { (s.rcu.tryAdvanceEpoch timeoutMs clock).2 with retiredList := retired }
      advances := s.advances + (s.rcu.tryAdvanceEpoch timeoutMs clock).1.toNat } := by
  obtain ⟨hepoch, hle⟩ := tryAdvanceEpoch_counts h.epoch hlt
  refine ⟨hepoch, ⟨fun i hi => ?_, fun item hitem => ?_⟩⟩
  · rw [tryAdvanceEpoch_frame] at hi ⊢
    exact ⟨(h.bounded.slots i hi).1, UInt64.le_trans (h.bounded.slots i hi).2 hle⟩
  · exact UInt64.le_trans (h.bounded.retired item (hretired hitem)) hle

variable [DecidableEq ι]

theorem advances_le_step (hs : s.step timeoutMs c = some s') : s.advances ≤ s'.advances := by
  cases c with
  | registerThread p | enter slot nowNs =>
    obtain ⟨-, hs⟩ := Option.ite_none_right_eq_some.mp hs
    obtain rfl := Option.some.inj hs
    exact le_rfl
  | exit slot | retire deleter =>
    obtain rfl := Option.some.inj hs
    exact le_rfl
  | tryAdvanceEpoch clock | reclaim clock =>
    obtain rfl := Option.some.inj hs
    exact Nat.le_add_right _ _

theorem Inv.step (h : Inv s) (hs : s.step timeoutMs c = some s')
    (hlt : s'.advances + 1 < 2 ^ 64) : Inv s' := by
  cases c with
  | registerThread p =>
    obtain ⟨hroom, hs⟩ := Option.ite_none_right_eq_some.mp hs
    obtain rfl := Option.some.inj hs
    refine ⟨?_, h.bounded.registerThread hroom⟩
    cases hp : s.threadSlot p <;> exact h.epoch
  | enter slot nowNs =>
    obtain ⟨hslot, hs⟩ := Option.ite_none_right_eq_some.mp hs
    obtain rfl := Option.some.inj hs
    refine ⟨?_, h.bounded.enter hslot nowNs⟩
    rw [EpochRcu.enter]
    split_ifs <;> exact h.epoch
  | exit slot =>
    obtain rfl := Option.some.inj hs
    refine ⟨?_, h.bounded.exit slot⟩
    rw [EpochRcu.exit]
    split_ifs <;> exact h.epoch
  | retire deleter =>
    obtain rfl := Option.some.inj hs
    refine ⟨?_, h.bounded.retire deleter⟩
    cases deleter <;> exact h.epoch
  | tryAdvanceEpoch clock =>
    obtain rfl := Option.some.inj hs
    have hadvance := h.advance (List.Subset.refl _) hlt
    rw [tryAdvanceEpoch_frame] at hadvance ⊢
    exact hadvance
  | reclaim clock =>
    obtain rfl := Option.some.inj hs
    refine h.advance ?_ hlt
    rw [tryAdvanceEpoch_frame]
    exact fun item hitem => List.mem_of_mem_filter hitem

theorem inv_of_run {calls : List (Call ι)}
    (hrun : Runs.run (Session.step timeoutMs) {} calls = some s) (hlt : s.advances + 1 < 2 ^ 64) :
    Inv s := by
  have hstep (s : Session ι) (c : Call ι) (s' : Session ι) (h : s.advances + 1 < 2 ^ 64 → Inv s)
      (hs : s.step timeoutMs c = some s') (hlt : s'.advances + 1 < 2 ^ 64) : Inv s' := by
    have hle := advances_le_step hs
    exact (h (by omega)).step hs hlt
  exact Runs.invariant hstep (fun _ => inv_initial) hrun hlt

/-- As long as the epoch does not come round to zero, `reclaim` runs the deleters of
exactly those items that no slot may hold, keeps the others in their order and does not
lower the epoch; without readers it keeps nothing. -/
theorem reclaim_exact {calls : List (Call ι)}
    (hrun : Runs.run (Session.step timeoutMs) {} calls = some s) (hlt : s.advances + 2 < 2 ^ 64)
    (clock : Nat → UInt64) :
    let r := s.rcu.reclaim timeoutMs clock
    r.2.1 = (s.rcu.retiredList.filter (¬ s.rcu.MayHold ·)).map DeferredDeletion.deleter ∧
      r.1 = r.2.1.length ∧
      r.2.2.retiredList = s.rcu.retiredList.filter (s.rcu.MayHold ·) ∧
      s.rcu.globalEpoch ≤ r.2.2.globalEpoch ∧
      ((∀ i < kMaxRcuThreads, (s.rcu.slots i).active = false) → r.2.2.retiredList = []) := by
  have hinv := inv_of_run hrun (Nat.lt_of_succ_lt hlt)
  have hepoch : s.rcu.globalEpoch.toNat + 1 < 2 ^ 64 := by rwa [hinv.epoch]
  have hlist : (s.rcu.tryAdvanceEpoch timeoutMs clock).2.retiredList = s.rcu.retiredList := by
    rw [tryAdvanceEpoch_frame]
  have hdelete (item : DeferredDeletion) (hitem : item ∈ s.rcu.retiredList) :
      item.epoch < (s.rcu.tryAdvanceEpoch timeoutMs clock).2.minActiveEpoch ↔
        ¬ s.rcu.MayHold item := hinv.bounded.deleted_iff hepoch hitem
  have hkept : (s.rcu.reclaim timeoutMs clock).2.2.retiredList =
      s.rcu.retiredList.filter (s.rcu.MayHold ·) := by
    simp only [reclaim, hlist]
    refine List.filter_congr fun item hitem => ?_
    rw [decide_eq_decide.mpr (hdelete item hitem), decide_not, Bool.not_not]
  refine ⟨?_, ?_, hkept, ?_, fun hidle => ?_⟩
  · simp only [reclaim, hlist]
    rw [List.filter_congr fun item hitem => decide_eq_decide.mpr (hdelete item hitem)]
  · simp only [reclaim, List.length_map]
  · have hone := Bool.toNat_le (s.rcu.tryAdvanceEpoch timeoutMs clock).1
    rw [UInt64.le_iff_toNat_le]
    exact (Nat.le_add_right _ _).trans_eq (toNat_tryAdvanceEpoch (by omega)).symm
  · rw [hkept, List.filter_eq_nil_iff]
    intro item _ hhold
    obtain ⟨i, hi, hactive, -⟩ := of_decide_eq_true hhold
    rw [hidle i hi] at hactive
    exact Bool.false_ne_true hactive

/-- A reader holds what is retired after it has entered, and not what was retired
before. -/
def oneReader : List (Call Unit) :=
  [.registerThread (), .retire (some 7), .tryAdvanceEpoch fun _ => 0, .enter 0 5,
    .retire (some 8)]

theorem reclaim_exact_oneReader : ∃ s, Runs.run (Session.step 100) {} oneReader = some s ∧
    (s.rcu.reclaim 100 fun _ => 6).2.1 = [7] ∧
    (s.rcu.reclaim 100 fun _ => 6).2.2.retiredList = [⟨2, 8⟩] := by
  have hrun : Runs.run (Session.step 100) {} oneReader = some _ := rfl
  obtain ⟨hran, -, hkept, -⟩ := reclaim_exact hrun (by decide) fun _ => 6
  exact ⟨_, hrun, hran, hkept⟩

theorem run_advances (timeoutMs : UInt32) (n : Nat) :
    Runs.run (Session.step timeoutMs) ({} : Session ι)
      (List.replicate n (.tryAdvanceEpoch fun _ => 0)) =
        some { rcu := { globalEpoch := 1 + UInt64.ofNat n }, advances := n } := by
  induction n with
  | zero => rfl
  | succ n ih =>
    rw [List.replicate_succ', Runs.run_append ih, UInt64.ofNat_add, ← UInt64.add_assoc]
    rfl

/-- The epoch comes round to zero in a call of `reclaim`, which then keeps an item although
there is no reader. -/
theorem reclaim_keeps_item : ∃ (calls : List (Call Unit)) (s : Session Unit),
    Runs.run (Session.step 100) {} calls = some s ∧
      (∀ i, (s.rcu.slots i).active = false) ∧ s.rcu.retiredList ≠ [] ∧
      (s.rcu.reclaim 100 fun _ => 0).1 = 0 ∧
      (s.rcu.reclaim 100 fun _ => 0).2.2.globalEpoch < s.rcu.globalEpoch := by
  have hrun := Runs.run_append (run_advances 100 (2 ^ 64 - 2))
    ([.retire (some 7)] : List (Call Unit))
  refine ⟨_, _, hrun.trans rfl, fun _ => rfl, List.cons_ne_nil _ _, ?_, ?_⟩
  · decide +kernel
  · decide +kernel

end Session

end EpochRcu

end Ume
