import Ume.Concurrency.EpochSequential

/-! Guards of one manager that are nested in a thread. All guards of a thread use its one
slot: an inner guard publishes the epoch it finds, and its end makes the slot inactive
although the outer guard is still there. -/

namespace Ume

namespace EpochRcu

namespace Session

variable {ι : Type*}

/-- Registered threads have slots of their own, which the scans look at. -/
structure Registered (s : Session ι) : Prop where
  lt : ∀ p slot, s.threadSlot p = some slot → slot < s.rcu.scannedSlots
  unique : ∀ p q slot, s.threadSlot p = some slot → s.threadSlot q = some slot → p = q

theorem registered_initial : Registered ({} : Session ι) :=
  ⟨fun _ _ h => (by cases h), fun _ _ _ h => (by cases h)⟩

variable [DecidableEq ι] {timeoutMs : UInt32} {s t : Session ι} {p : ι}

theorem Registered.allocate (h : s.Registered) (hlt : s.rcu.allocatedSlots < kMaxRcuThreads) :
    Registered { s with
      rcu := { s.rcu with allocatedSlots := s.rcu.allocatedSlots + 1 }
      threadSlot := Function.update s.threadSlot p (some s.rcu.allocatedSlots) } := by
  have hmin : s.rcu.scannedSlots = s.rcu.allocatedSlots := min_eq_left hlt.le
  have hfresh {q : ι} : s.threadSlot q ≠ some s.rcu.allocatedSlots := by
    intro hq
    exact absurd (h.lt q _ hq) (by rw [hmin]; exact Nat.lt_irrefl _)
  refine ⟨fun q slot hq => ?_, fun q q' slot hq hq' => ?_⟩
  · simp only [Function.update_apply] at hq
    have hle : slot ≤ s.rcu.allocatedSlots := by
      split_ifs at hq
      · exact (Option.some.inj hq).ge
      · exact (hmin ▸ h.lt q slot hq).le
    exact Nat.lt_min.mpr ⟨Nat.lt_succ_of_le hle, hle.trans_lt hlt⟩
  · simp only [Function.update_apply] at hq hq'
    split_ifs at hq hq' with hqp hqp' hqp'
    · rw [hqp, hqp']
    · exact absurd (hq'.trans hq.symm) hfresh
    · exact absurd (hq.trans hq'.symm) hfresh
    · exact h.unique q q' slot hq hq'

/-- The thread has a slot after its registration, and nothing else is different but the
number of slots. -/
theorem Registered.registerThread (h : s.Registered)
    (hs : s.step timeoutMs (.registerThread p) = some t) :
    t.Registered ∧ ∃ slot allocated, (∀ old, s.threadSlot p = some old → old = slot) ∧
      t = { s with
        rcu := { s.rcu with allocatedSlots := allocated }
        threadSlot := Function.update s.threadSlot p (some slot) } := by
  obtain ⟨hroom, hs⟩ := Option.ite_none_right_eq_some.mp hs
  obtain rfl := Option.some.inj hs
  cases hp : s.threadSlot p with
  | some slot =>
    have hsame : Function.update s.threadSlot p (some slot) = s.threadSlot := by
      rw [← hp, Function.update_eq_self]
    refine ⟨?_, slot, s.rcu.allocatedSlots, fun _ hold => (Option.some.inj hold).symm, rfl⟩
    simp only [EpochRcu.registerThread, hsame]
    exact h
  | none =>
    have hlt := hroom hp
    have hmod : (s.rcu.allocatedSlots + 1) % 2 ^ 64 = s.rcu.allocatedSlots + 1 := by
      unfold kMaxRcuThreads at hlt
      omega
    simp only [EpochRcu.registerThread, if_neg (Nat.not_le.mpr hlt), hmod]
    exact ⟨h.allocate hlt, _, _, fun _ hold => (by cases hold), rfl⟩

end Session

/-- A guard with its slot, and the global epoch at its construction. -/
structure EpochGuard where
  slotIndex : Nat
  constructedAt : UInt64

/-- The open guards of each thread, the innermost first, and the items retired since the
outermost was constructed. -/
structure GuardSession (ι : Type*) extends Session ι where
  guards : ι → List EpochGuard := fun _ => []
  since : ι → List DeferredDeletion := fun _ => []

namespace GuardSession

variable {ι : Type*}

inductive Call (ι : Type*) where
  | construct (p : ι) (nowNs : UInt64)
  | destruct (p : ι)
  | retire (deleter : Nat)
  | tryAdvanceEpoch (clock : Nat → UInt64)
  | reclaim (clock : Nat → UInt64)

/-- The innermost guard of a thread is the first to be destroyed. -/
def step [DecidableEq ι] (timeoutMs : UInt32) (s : GuardSession ι) :
    Call ι → Option (GuardSession ι)
  | .construct p nowNs =>
    (s.toSession.step timeoutMs (.registerThread p)).bind fun t =>
      match t.threadSlot p with
      | none => none
      | some slot =>
        (t.step timeoutMs (.enter slot nowNs)).map fun u =>
          { toSession := u
            guards := Function.update s.guards p (⟨slot, s.rcu.globalEpoch⟩ :: s.guards p)
            since := if s.guards p = [] then Function.update s.since p [] else s.since }
  | .destruct p =>
    match s.guards p with
    | [] => none
    | guard :: guards =>
      (s.toSession.step timeoutMs (.exit guard.slotIndex)).map fun u =>
        { s with toSession := u, guards := Function.update s.guards p guards }
  | .retire deleter =>
    (s.toSession.step timeoutMs (.retire (some deleter))).map fun u =>
      { s with toSession := u, since := fun p => s.since p ++ [⟨s.rcu.globalEpoch, deleter⟩] }
  | .tryAdvanceEpoch clock =>
    (s.toSession.step timeoutMs (.tryAdvanceEpoch clock)).map fun u => { s with toSession := u }
  | .reclaim clock =>
    (s.toSession.step timeoutMs (.reclaim clock)).map fun u => { s with toSession := u }

/-- As long as the outermost guard of a thread is there, its slot is active with an epoch
that is not later than the guard. -/
def Protected (s : GuardSession ι) : Prop :=
  ∀ p, ∀ guard ∈ (s.guards p).getLast?, (s.rcu.slots guard.slotIndex).active = true ∧
    (s.rcu.slots guard.slotIndex).epoch ≤ guard.constructedAt

/-- Nothing that has been retired since then is reclaimed. -/
def Kept (s : GuardSession ι) : Prop :=
  ∀ p, s.guards p ≠ [] → (s.since p).Sublist s.rcu.retiredList

/-- A guard is constructed in the epoch of the outermost one, and only an outermost guard
is destroyed. -/
def Harmless (s : GuardSession ι) : Call ι → Prop
  | .construct p _ => ∀ guard ∈ (s.guards p).getLast?, s.rcu.globalEpoch ≤ guard.constructedAt
  | .destruct p => (s.guards p).length ≤ 1
  | _ => True

instance (s : GuardSession ι) : ∀ c, Decidable (s.Harmless c)
  | .construct p _ => inferInstanceAs (Decidable
      (∀ guard ∈ (s.guards p).getLast?, s.rcu.globalEpoch ≤ guard.constructedAt))
  | .destruct p => inferInstanceAs (Decidable ((s.guards p).length ≤ 1))
  | .retire _ | .tryAdvanceEpoch _ | .reclaim _ => .isTrue trivial

/-- As long as the epoch has not come round, no guard is ahead of it, and what has been
retired since a guard was constructed is not behind the guard. -/
structure Ordered (s : GuardSession ι) : Prop where
  epoch : s.rcu.globalEpoch.toNat = s.advances + 1
  guards : ∀ p, ∀ guard ∈ s.guards p, guard.constructedAt ≤ s.rcu.globalEpoch
  since : ∀ p, ∀ guard ∈ (s.guards p).getLast?, ∀ item ∈ s.since p,
    guard.constructedAt ≤ item.epoch

structure Inv (s : GuardSession ι) : Prop where
  registered : s.toSession.Registered
  slots : ∀ p, ∀ guard ∈ s.guards p, s.threadSlot p = some guard.slotIndex
  ordered : s.advances + 1 < 2 ^ 64 → s.Ordered

theorem inv_initial : Inv ({} : GuardSession ι) :=
  ⟨Session.registered_initial, fun _ _ h => absurd h List.not_mem_nil, fun _ =>
    ⟨rfl, fun _ _ h => absurd h List.not_mem_nil, fun _ _ h => by cases h⟩⟩

variable [DecidableEq ι] {timeoutMs : UInt32} {s s' : GuardSession ι} {p : ι}

theorem Inv.construct_cases (h : s.Inv) {nowNs : UInt64}
    (hs : s.step timeoutMs (.construct p nowNs) = some s') :
    s'.toSession.Registered ∧ ∃ slot allocated, (∀ q, s.threadSlot q = some slot → q = p) ∧
      (∀ old, s.threadSlot p = some old → old = slot) ∧ s' =
      { rcu := { s.rcu with
          allocatedSlots := allocated
          slots := Function.update s.rcu.slots slot ⟨s.rcu.globalEpoch, true, nowNs⟩ }
        threadSlot := Function.update s.threadSlot p (some slot)
        advances := s.advances
        guards := Function.update s.guards p (⟨slot, s.rcu.globalEpoch⟩ :: s.guards p)
        since := if s.guards p = [] then Function.update s.since p [] else s.since } := by
  obtain ⟨t, ht, hs⟩ := Option.bind_eq_some_iff.mp hs
  obtain ⟨hregistered, slot, allocated, hold, rfl⟩ := h.registered.registerThread ht
  have hslot := hregistered.lt p slot (Function.update_self ..)
  simp only [Function.update_self] at hs
  obtain ⟨u, hu, rfl⟩ := Option.map_eq_some_iff.mp hs
  obtain ⟨-, hu⟩ := Option.ite_none_right_eq_some.mp hu
  rw [EpochRcu.enter, if_neg (Nat.not_le.mpr (hslot.trans_le (Nat.min_le_right _ _)))] at hu
  obtain rfl := Option.some.inj hu
  refine ⟨⟨hregistered.lt, hregistered.unique⟩, slot, allocated, fun q hq => ?_, hold, rfl⟩
  by_contra hqp
  exact hqp (hregistered.unique q p slot (by simp [Function.update_of_ne hqp, hq]) (by simp))

theorem Inv.destruct_cases (h : s.Inv) (hs : s.step timeoutMs (.destruct p) = some s') :
    ∃ guard guards, s.guards p = guard :: guards ∧ s' =
      { s with
        rcu := { s.rcu with
          slots := Function.update s.rcu.slots guard.slotIndex
            { s.rcu.slots guard.slotIndex with active := false } }
        guards := Function.update s.guards p guards } := by
  cases hg : s.guards p with
  | nil => simp [step, hg] at hs
  | cons guard guards =>
    have hslot := h.registered.lt p guard.slotIndex (h.slots p guard (by simp [hg]))
    simp only [step, hg, Session.step, Option.map_some, EpochRcu.exit,
      if_neg (Nat.not_le.mpr (hslot.trans_le (Nat.min_le_right _ _)))] at hs
    exact ⟨guard, guards, rfl, (Option.some.inj hs).symm⟩

theorem Inv.construct (h : s.Inv) {nowNs : UInt64}
    (hs : s.step timeoutMs (.construct p nowNs) = some s') : s'.Inv := by
  obtain ⟨hregistered, slot, allocated, -, hold, rfl⟩ := h.construct_cases hs
  refine ⟨hregistered, fun q guard hguard => ?_, fun hlt => ?_⟩
  · simp only [Function.update_apply] at hguard ⊢
    split_ifs at hguard ⊢ with hqp
    · rcases List.mem_cons.mp hguard with rfl | hguard
      · rfl
      · rw [hold _ (h.slots p guard hguard)]
    · exact h.slots q guard hguard
  · have ho := h.ordered hlt
    refine ⟨ho.epoch, fun q guard hguard => ?_, fun q guard hguard item hitem => ?_⟩
    · simp only [Function.update_apply] at hguard
      split_ifs at hguard
      · rcases List.mem_cons.mp hguard with rfl | hguard
        · exact UInt64.le_refl _
        · exact ho.guards p guard hguard
      · exact ho.guards q guard hguard
    · simp only [Function.update_apply] at hguard
      split_ifs at hguard with hqp
      · subst hqp
        cases hnil : s.guards q with
        | nil => simp [hnil] at hitem
        | cons inner guards =>
          rw [hnil, List.getLast?_cons_cons, ← hnil] at hguard
          exact ho.since q guard hguard item (by simpa [hnil] using hitem)
      · refine ho.since q guard hguard item ?_
        dsimp only at hitem
        split_ifs at hitem
        · rwa [Function.update_of_ne hqp] at hitem
        · exact hitem

theorem Inv.destruct (h : s.Inv) (hs : s.step timeoutMs (.destruct p) = some s') : s'.Inv := by
  obtain ⟨inner, guards, hguards, rfl⟩ := h.destruct_cases hs
  have hmem {q : ι} {guard : EpochGuard} (hguard : guard ∈ Function.update s.guards p guards q) :
      guard ∈ s.guards q := by
    rw [Function.update_apply] at hguard
    split_ifs at hguard with hqp
    · rw [hqp, hguards]
      exact List.mem_cons_of_mem _ hguard
    · exact hguard
  refine ⟨⟨h.registered.lt, h.registered.unique⟩,
    fun q guard hguard => h.slots q guard (hmem hguard), fun hlt => ?_⟩
  have ho := h.ordered hlt
  refine ⟨ho.epoch, fun q guard hguard => ho.guards q guard (hmem hguard),
    fun q guard hguard => ho.since q guard ?_⟩
  simp only [Function.update_apply] at hguard
  split_ifs at hguard with hqp
  · rw [hqp, hguards, List.getLast?_cons, hguard]
    rfl
  · exact hguard

theorem Inv.retire (h : s.Inv) {deleter : Nat}
    (hs : s.step timeoutMs (.retire deleter) = some s') : s'.Inv := by
  obtain rfl := Option.some.inj hs
  refine ⟨⟨h.registered.lt, h.registered.unique⟩, h.slots, fun hlt => ?_⟩
  have ho := h.ordered hlt
  refine ⟨ho.epoch, ho.guards, fun q guard hguard => ?_⟩
  exact List.forall_mem_append.mpr ⟨ho.since q guard hguard,
    List.forall_mem_singleton.mpr (ho.guards q guard (List.mem_of_getLast? hguard))⟩

omit [DecidableEq ι] in
theorem Inv.advance (h : s.Inv) (clock : Nat → UInt64) (retired : List DeferredDeletion) :
    Inv { s with
      rcu := { (s.rcu.tryAdvanceEpoch timeoutMs clock).2 with retiredList := retired }
      advances := s.advances + (s.rcu.tryAdvanceEpoch timeoutMs clock).1.toNat } := by
  refine ⟨?_, h.slots, fun hlt => ?_⟩
  · rw [tryAdvanceEpoch_frame]
    exact ⟨h.registered.lt, h.registered.unique⟩
  · dsimp only at hlt
    have ho := h.ordered (by omega)
    obtain ⟨hepoch, hle⟩ := tryAdvanceEpoch_counts ho.epoch hlt
    exact ⟨hepoch, fun q guard hguard => UInt64.le_trans (ho.guards q guard hguard) hle, ho.since⟩

theorem Inv.step (h : s.Inv) {c : Call ι} (hs : s.step timeoutMs c = some s') : s'.Inv := by
  cases c with
  | construct p nowNs => exact h.construct hs
  | destruct p => exact h.destruct hs
  | retire deleter => exact h.retire hs
  | tryAdvanceEpoch clock =>
    obtain rfl := Option.some.inj hs
    exact h.advance clock (s.rcu.tryAdvanceEpoch timeoutMs clock).2.retiredList
  | reclaim clock =>
    obtain rfl := Option.some.inj hs
    exact h.advance clock _

/-- Every open guard protects its thread, and nothing that a thread may hold is gone as
long as the epoch has not come round. -/
def Good (s : GuardSession ι) : Prop := s.Protected ∧ (s.advances + 1 < 2 ^ 64 → s.Kept)

omit [DecidableEq ι] in
theorem Inv.slotIndex_ne (h : s.Inv) {q : ι} {slot : Nat} {guard : EpochGuard}
    (hmine : ∀ q, s.threadSlot q = some slot → q = p) (hqp : q ≠ p)
    (hguard : guard ∈ s.guards q) : guard.slotIndex ≠ slot := by
  rintro rfl
  exact hqp (hmine q (h.slots q guard hguard))

theorem Inv.construct_good_iff (h : s.Inv) (hgood : s.Good) {nowNs : UInt64}
    (hs : s.step timeoutMs (.construct p nowNs) = some s') :
    s'.Good ↔ s.Harmless (.construct p nowNs) := by
  obtain ⟨-, slot, allocated, hmine, hold, rfl⟩ := h.construct_cases hs
  have houter {guard : EpochGuard} (hguard : (s.guards p).getLast? = some guard)
      (new : EpochGuard) : (new :: s.guards p).getLast? = some guard ∧ guard.slotIndex = slot := by
    refine ⟨by rw [List.getLast?_cons, hguard]; rfl, ?_⟩
    exact hold _ (h.slots p guard (List.mem_of_getLast? hguard))
  constructor
  · rintro ⟨hprotected, -⟩ guard hguard
    obtain ⟨hlast, hslot⟩ := houter hguard ⟨slot, s.rcu.globalEpoch⟩
    have hepoch := (hprotected p guard (by simp [hlast])).2
    simpa [hslot] using hepoch
  · intro hharmless
    refine ⟨fun q guard hguard => ?_, fun hlt q hq => ?_⟩
    · simp only [Function.update_apply] at hguard ⊢
      split_ifs at hguard with hqp
      · cases hlast : (s.guards p).getLast? with
        | none =>
          rw [List.getLast?_cons, hlast] at hguard
          obtain rfl := Option.some.inj hguard
          exact ⟨by simp, by simp⟩
        | some outer =>
          obtain ⟨hcons, hslot⟩ := houter hlast ⟨slot, s.rcu.globalEpoch⟩
          obtain rfl := Option.some.inj (hcons.symm.trans hguard)
          simp only [hslot, if_true]
          exact ⟨trivial, hharmless outer hlast⟩
      · rw [if_neg (h.slotIndex_ne hmine hqp (List.mem_of_getLast? hguard))]
        exact hgood.1 q guard hguard
    · have hkept := hgood.2 hlt
      dsimp only at hq ⊢
      by_cases hqp : q = p
      · subst hqp
        by_cases hnil : s.guards q = []
        · rw [if_pos hnil, Function.update_self]
          exact List.nil_sublist _
        · rw [if_neg hnil]
          exact hkept q hnil
      · rw [Function.update_of_ne hqp] at hq
        rw [ite_apply, Function.update_of_ne hqp, ite_self]
        exact hkept q hq

theorem Inv.destruct_good_iff (h : s.Inv) (hgood : s.Good)
    (hs : s.step timeoutMs (.destruct p) = some s') :
    s'.Good ↔ s.Harmless (.destruct p) := by
  obtain ⟨inner, guards, hguards, rfl⟩ := h.destruct_cases hs
  have hinner : s.threadSlot p = some inner.slotIndex :=
    h.slots p inner (by rw [hguards]; exact List.mem_cons_self)
  have hlength : s.Harmless (.destruct p) ↔ guards = [] := by
    rw [Harmless, hguards]
    cases guards <;> simp
  rw [hlength]
  constructor
  · rintro ⟨hprotected, -⟩
    by_contra hne
    obtain ⟨outer, houter⟩ := Option.isSome_iff_exists.mp (List.getLast?_isSome.mpr hne)
    have hslot : outer.slotIndex = inner.slotIndex := by
      have hmem : outer ∈ s.guards p := by
        rw [hguards]
        exact List.mem_cons_of_mem _ (List.mem_of_getLast? houter)
      exact Option.some.inj ((h.slots p outer hmem).symm.trans hinner)
    have hactive := (hprotected p outer (by simp [houter])).1
    simp [hslot] at hactive
  · rintro rfl
    refine ⟨fun q guard hguard => ?_, fun hlt q hq => ?_⟩
    · simp only [Function.update_apply] at hguard ⊢
      split_ifs at hguard with hqp
      · cases hguard
      · have hmine (q : ι) (hq : s.threadSlot q = some inner.slotIndex) : q = p :=
          h.registered.unique q p _ hq hinner
        rw [if_neg (h.slotIndex_ne hmine hqp (List.mem_of_getLast? hguard))]
        exact hgood.1 q guard hguard
    · simp only [Function.update_apply] at hq
      split_ifs at hq
      · exact absurd rfl hq
      · exact hgood.2 hlt q hq

omit [DecidableEq ι] in
/-- What an active slot may hold is not among the items taken out. -/
theorem Inv.kept_of_reclaim (h : s.Inv) (hgood : s.Good) (clock : Nat → UInt64)
    (hlt : s.advances + 1 < 2 ^ 64) (hp : s.guards p ≠ []) :
    (s.since p).Sublist (s.rcu.reclaim timeoutMs clock).2.2.retiredList := by
  obtain ⟨outer, houter⟩ := Option.isSome_iff_exists.mp (List.getLast?_isSome.mpr hp)
  have hslot := h.registered.lt p _ (h.slots p outer (List.mem_of_getLast? houter))
  obtain ⟨hactive, hepoch⟩ := hgood.1 p outer houter
  have hsub := (hgood.2 hlt p hp).filter fun item =>
    !(item.epoch < (s.rcu.tryAdvanceEpoch timeoutMs clock).2.minActiveEpoch)
  have hall : (s.since p).filter (fun item =>
      !(item.epoch < (s.rcu.tryAdvanceEpoch timeoutMs clock).2.minActiveEpoch)) = s.since p := by
    refine List.filter_eq_self.mpr fun item hitem => ?_
    have hle := UInt64.le_trans hepoch ((h.ordered hlt).since p outer houter item hitem)
    simp only [Bool.not_eq_true', decide_eq_false_iff_not, lt_minActiveEpoch_iff]
    rw [tryAdvanceEpoch_frame]
    rintro ⟨-, hslots⟩
    exact UInt64.not_lt.mpr hle (hslots _ hslot hactive)
  rw [hall] at hsub
  simp only [reclaim]
  rw [tryAdvanceEpoch_frame] at hsub ⊢
  exact hsub

/-- A call keeps the guards good exactly if it is harmless. -/
theorem Inv.good_iff (h : s.Inv) (hgood : s.Good) {c : Call ι}
    (hs : s.step timeoutMs c = some s') : s'.Good ↔ s.Harmless c := by
  cases c with
  | construct p nowNs => exact h.construct_good_iff hgood hs
  | destruct p => exact h.destruct_good_iff hgood hs
  | retire deleter =>
    obtain rfl := Option.some.inj hs
    refine iff_of_true ⟨hgood.1, fun hlt q hq => ?_⟩ trivial
    exact (hgood.2 hlt q hq).append (List.Sublist.refl _)
  | tryAdvanceEpoch clock =>
    obtain rfl := Option.some.inj hs
    refine iff_of_true ⟨?_, fun hlt q hq => ?_⟩ trivial
    · intro q guard hguard
      rw [tryAdvanceEpoch_frame]
      exact hgood.1 q guard hguard
    · dsimp only at hlt
      rw [tryAdvanceEpoch_frame]
      exact hgood.2 (by omega) q hq
  | reclaim clock =>
    obtain rfl := Option.some.inj hs
    refine iff_of_true ⟨?_, fun hlt q hq => ?_⟩ trivial
    · intro q guard hguard
      simp only [EpochRcu.reclaim]
      rw [tryAdvanceEpoch_frame]
      exact hgood.1 q guard hguard
    · dsimp only at hlt
      exact h.kept_of_reclaim hgood clock (by omega) hq

/-- The guards protect their threads throughout a run exactly if no guard is constructed
inside another one in a later epoch, and none that is inside another one is destroyed. -/
theorem nested_guards_protect_iff {calls : List (Call ι)} {t : GuardSession ι}
    (hrun : Runs.run (step timeoutMs) {} calls = some t) :
    Runs.Throughout (step timeoutMs) Good {} calls ↔
      Runs.Along (step timeoutMs) Harmless {} calls := by
  have hinit : Good ({} : GuardSession ι) :=
    ⟨fun _ _ hguard => (by cases hguard), fun _ _ hguards => absurd rfl hguards⟩
  exact Runs.throughout_iff_along (fun _ _ _ h hgood hs => h.good_iff hgood hs)
    (fun _ _ _ h hs => h.step hs) inv_initial hinit hrun

/-- Two guards of one epoch, under which a pointer is retired, and a reclamation. -/
def nestedInEpoch : List (Call Unit) :=
  [.construct () 0, .construct () 0, .retire 7, .reclaim fun _ => 1]

theorem nested_guards_protect_nestedInEpoch :
    ∃ t, Runs.run (step 100) {} nestedInEpoch = some t ∧ (t.guards ()).length = 2 ∧ t.Good := by
  have hrun : Runs.run (step 100) {} nestedInEpoch = some _ := rfl
  have hgood := (nested_guards_protect_iff hrun).mpr (by decide)
  exact ⟨_, hrun, rfl, hgood nestedInEpoch List.prefix_rfl _ hrun⟩

/-- The end of an inner guard leaves the outer one without protection, and what is retired
under it is deleted. -/
theorem inner_guard_ends_protection : ∃ s t,
    Runs.run (step 100) ({} : GuardSession Unit)
        [.construct () 0, .construct () 0, .destruct (), .retire 7] = some s ∧
      s.guards () ≠ [] ∧ ¬ s.Protected ∧
      s.step 100 (.reclaim fun _ => 0) = some t ∧ t.guards () ≠ [] ∧ ¬ t.Kept := by
  refine ⟨_, _, rfl, by decide, fun h => ?_, rfl, by decide, fun h => ?_⟩
  · exact absurd (h () ⟨0, 1⟩ rfl).1 (by decide)
  · exact absurd (h () (by decide)) (by decide)

end GuardSession

end EpochRcu

end Ume
