import Mathlib.Order.Lattice
import Ume.Concurrency.EpochRcu

/-! The slots of several managers in one process. The slot of a thread is kept in
one thread-local variable for all managers, while each manager counts its own
slots; the scans of a manager look at the slots it has counted. -/

namespace Ume

namespace EpochRcu

/-- The slot returned to a thread, which is kept as its thread-local slot. -/
def registerThread (rcu : EpochRcu) (threadSlot : Option Nat) : Nat × EpochRcu :=
  match threadSlot with
  | some slot => (slot, rcu)
  | none =>
    (if rcu.allocatedSlots ≥ kMaxRcuThreads then 0 else rcu.allocatedSlots,
      { rcu with allocatedSlots := (rcu.allocatedSlots + 1) % 2 ^ 64 })

def unregisterThread (rcu : EpochRcu) (slot : Nat) : EpochRcu :=
  if slot < kMaxRcuThreads then
    { rcu with
      slots := Function.update rcu.slots slot
        { rcu.slots slot with active := false, epoch := 0 } }
  else rcu

def enter (rcu : EpochRcu) (slot : Nat) (nowNs : UInt64) : EpochRcu :=
  if slot ≥ kMaxRcuThreads then rcu
  else
    { rcu with
      slots := Function.update rcu.slots slot
        { epoch := rcu.globalEpoch, active := true, entryTimeNs := nowNs } }

def exit (rcu : EpochRcu) (slot : Nat) : EpochRcu :=
  if slot ≥ kMaxRcuThreads then rcu
  else
    { rcu with
      slots := Function.update rcu.slots slot { rcu.slots slot with active := false } }

/-- Threads and managers, with the slots each manager has returned to each thread and
those of the critical sections the thread is in, the innermost first. -/
structure Process (ι κ : Type*) where
  rcu : κ → EpochRcu := fun _ => {}
  threadSlot : ι → Option Nat := fun _ => none
  returned : ι × κ → List Nat := fun _ => []
  sections : ι × κ → List Nat := fun _ => []

namespace Process

variable {ι κ : Type*}

inductive Call (ι κ : Type*) where
  | registerThread (p : ι) (r : κ)
  | unregisterThread (p : ι) (r : κ) (slot : Nat)
  | enter (p : ι) (r : κ) (slot : Nat) (nowNs : UInt64)
  | exit (p : ι) (r : κ) (slot : Nat)

variable [DecidableEq ι] [DecidableEq κ]

/-- A call of a thread. Threads pass to a manager only slots that it has returned to
them; an exit ends the innermost section entered with its slot. -/
def step (s : Process ι κ) : Call ι κ → Option (Process ι κ)
  | .registerThread p r =>
    let result := (s.rcu r).registerThread (s.threadSlot p)
    some { s with
      rcu := Function.update s.rcu r result.2
      threadSlot := Function.update s.threadSlot p (some result.1)
      returned := Function.update s.returned (p, r) (result.1 :: s.returned (p, r)) }
  | .unregisterThread p r slot =>
    if slot ∈ s.returned (p, r) then
      some { s with
        rcu := Function.update s.rcu r ((s.rcu r).unregisterThread slot)
        threadSlot :=
          if s.threadSlot p = some slot then Function.update s.threadSlot p none
          else s.threadSlot }
    else none
  | .enter p r slot nowNs =>
    if slot ∈ s.returned (p, r) then
      some { s with
        rcu := Function.update s.rcu r ((s.rcu r).enter slot nowNs)
        sections := Function.update s.sections (p, r) (slot :: s.sections (p, r)) }
    else none
  | .exit p r slot =>
    if slot ∈ s.returned (p, r) then
      some { s with
        rcu := Function.update s.rcu r ((s.rcu r).exit slot)
        sections := Function.update s.sections (p, r) ((s.sections (p, r)).erase slot) }
    else none

/-- Every thread in a critical section of a manager holds a slot that the scans of the
manager look at, that is active, and that no other thread in a section of it holds. -/
def Visible (s : Process ι κ) : Prop :=
  ∀ p r, ∀ slot ∈ s.sections (p, r),
    slot < min (s.rcu r).allocatedSlots kMaxRcuThreads ∧ ((s.rcu r).slots slot).active = true ∧
      ∀ q, q ≠ p → slot ∉ s.sections (q, r)

/-- A thread registers with a manager that has slots left, or holds a slot of it
already; it does not leave a section that it entered twice, and it does not unregister
a slot it is in a section with. -/
def Harmless (s : Process ι κ) : Call ι κ → Prop
  | .registerThread p r =>
    match s.threadSlot p with
    | none => (s.rcu r).allocatedSlots < kMaxRcuThreads
    | some slot => slot ∈ s.returned (p, r)
  | .unregisterThread p r slot => slot ∉ s.sections (p, r)
  | .enter _ _ _ _ => True
  | .exit p r slot => (s.sections (p, r)).count slot ≤ 1

instance (s : Process ι κ) : ∀ c, Decidable (s.Harmless c)
  | .registerThread p r =>
    match hthread : s.threadSlot p with
    | none =>
      decidable_of_iff ((s.rcu r).allocatedSlots < kMaxRcuThreads) (by simp [Harmless, hthread])
    | some slot => decidable_of_iff (slot ∈ s.returned (p, r)) (by simp [Harmless, hthread])
  | .unregisterThread p r slot => inferInstanceAs (Decidable (slot ∉ s.sections (p, r)))
  | .enter _ _ _ _ => .isTrue trivial
  | .exit p r slot => inferInstanceAs (Decidable ((s.sections (p, r)).count slot ≤ 1))

/-- Each manager gives a slot it counts to one thread, and sections are entered with
such slots. -/
structure Inv (s : Process ι κ) : Prop where
  counted : ∀ p r, ∀ slot ∈ s.returned (p, r),
    slot < (s.rcu r).allocatedSlots ∧ slot < kMaxRcuThreads
  unique : ∀ p q r, ∀ slot ∈ s.returned (p, r), slot ∈ s.returned (q, r) → p = q
  inside : ∀ p r, ∀ slot ∈ s.sections (p, r),
    slot ∈ s.returned (p, r) ∧ ((s.rcu r).slots slot).active = true

omit [DecidableEq ι] [DecidableEq κ] in
theorem Inv.visible {s : Process ι κ} (h : Inv s) : s.Visible := by
  intro p r slot hslot
  obtain ⟨hreturned, hactive⟩ := h.inside p r slot hslot
  refine ⟨lt_min (h.counted p r slot hreturned).1 (h.counted p r slot hreturned).2, hactive, ?_⟩
  intro q hq hslot'
  exact hq (h.unique q p r slot (h.inside q r slot hslot').1 hreturned)

section Steps

variable {s t : Process ι κ} {p : ι} {r : κ} {slot : Nat}

omit [DecidableEq ι] in
theorem update_eq_of_eq {α : Type*} {g : EpochRcu → α} {rcu : κ → EpochRcu} {new : EpochRcu}
    (h : g new = g (rcu r)) (r' : κ) : g (Function.update rcu r new r') = g (rcu r') := by
  by_cases hr : r' = r
  · rw [hr, Function.update_self, h]
  · rw [Function.update_of_ne hr]

omit [DecidableEq ι] [DecidableEq κ] in
theorem mem_update_cons {α : Type*} [DecidableEq α] {f : α → List Nat} {k k' : α} {a x : Nat} :
    x ∈ Function.update f k (a :: f k) k' ↔ x ∈ f k' ∨ k' = k ∧ x = a := by
  by_cases hk : k' = k
  · rw [hk, Function.update_self, List.mem_cons]
    tauto
  · rw [Function.update_of_ne hk]
    tauto

omit [DecidableEq ι] [DecidableEq κ] in
/-- A harmless registration returns a slot that the manager counts and that is not
another thread's. -/
theorem Inv.registerThread_spec (h : Inv s) (hok : s.Harmless (.registerThread p r))
    {new : EpochRcu} (hnew : (s.rcu r).registerThread (s.threadSlot p) = (slot, new)) :
    new.slots = (s.rcu r).slots ∧ (s.rcu r).allocatedSlots ≤ new.allocatedSlots ∧
      slot < new.allocatedSlots ∧ slot < kMaxRcuThreads ∧
      ∀ q, slot ∈ s.returned (q, r) → q = p := by
  unfold Harmless at hok
  cases hthread : s.threadSlot p with
  | some old =>
    simp only [hthread] at hok hnew
    obtain ⟨rfl, rfl⟩ := Prod.mk.inj hnew
    obtain ⟨hcounted, hmax⟩ := h.counted p r old hok
    exact ⟨rfl, le_rfl, hcounted, hmax, fun q hq => h.unique q p r old hq hok⟩
  | none =>
    simp only [hthread] at hok hnew
    have hwrap : ((s.rcu r).allocatedSlots + 1) % 2 ^ 64 = (s.rcu r).allocatedSlots + 1 := by
      unfold kMaxRcuThreads at hok
      omega
    rw [EpochRcu.registerThread, if_neg (Nat.not_le.mpr hok), hwrap] at hnew
    obtain ⟨rfl, rfl⟩ := Prod.mk.inj hnew
    refine ⟨rfl, Nat.le_succ _, Nat.lt_succ_self _, hok, fun q hq => ?_⟩
    exact absurd (h.counted q r _ hq).1 (lt_irrefl _)

theorem Inv.registerThread (h : Inv s) (hok : s.Harmless (.registerThread p r))
    (hs : s.step (.registerThread p r) = some t) : Inv t := by
  obtain rfl := Option.some.inj hs
  generalize hnew : (s.rcu r).registerThread (s.threadSlot p) = result
  obtain ⟨slot, new⟩ := result
  obtain ⟨hslots, hle, hcounted, hmax, hunique⟩ := h.registerThread_spec hok hnew
  dsimp only
  constructor <;> dsimp only
  · intro p' r' slot' hslot'
    obtain hold | ⟨heq, rfl⟩ := mem_update_cons.mp hslot'
    · obtain ⟨hlt, hlt'⟩ := h.counted p' r' slot' hold
      refine ⟨?_, hlt'⟩
      by_cases hr : r' = r
      · subst hr
        rw [Function.update_self]
        exact hlt.trans_le hle
      · rwa [Function.update_of_ne hr]
    · obtain ⟨rfl, rfl⟩ := Prod.mk.inj heq
      rw [Function.update_self]
      exact ⟨hcounted, hmax⟩
  · intro p' q r' slot' hp hq
    obtain hold | ⟨heq, rfl⟩ := mem_update_cons.mp hp
    · obtain hold' | ⟨heq, rfl⟩ := mem_update_cons.mp hq
      · exact h.unique p' q r' slot' hold hold'
      · obtain ⟨rfl, rfl⟩ := Prod.mk.inj heq
        exact hunique p' hold
    · obtain ⟨rfl, rfl⟩ := Prod.mk.inj heq
      obtain hold' | ⟨heq, -⟩ := mem_update_cons.mp hq
      · exact (hunique q hold').symm
      · exact (Prod.mk.inj heq).1.symm
  · intro p' r' slot' hslot'
    obtain ⟨hreturned, hactive⟩ := h.inside p' r' slot' hslot'
    refine ⟨mem_update_cons.mpr (.inl hreturned), ?_⟩
    rwa [update_eq_of_eq (g := EpochRcu.slots) hslots]

omit [DecidableEq ι] in
/-- A call that writes to one slot only: it is enough that the sections open after the
call find their slots active. -/
theorem Inv.writeSlot (h : Inv s) {new : EpochRcu} {threadSlot : ι → Option Nat}
    {sections : ι × κ → List Nat} (hcount : new.allocatedSlots = (s.rcu r).allocatedSlots)
    (hinside : ∀ p' r', ∀ slot ∈ sections (p', r'), slot ∈ s.returned (p', r') ∧
      ((Function.update s.rcu r new r').slots slot).active = true) :
    Inv { s with
      rcu := Function.update s.rcu r new
      threadSlot := threadSlot
      sections := sections } := by
  refine ⟨fun p' r' slot hslot => ?_, h.unique, hinside⟩
  dsimp only
  rw [update_eq_of_eq (g := EpochRcu.allocatedSlots) hcount]
  exact h.counted p' r' slot hslot

omit [DecidableEq ι] in
theorem active_of_ne {new : EpochRcu} {value : ThreadEpochSlot}
    (hnew : new.slots = Function.update (s.rcu r).slots slot value) {r' : κ} {slot' : Nat}
    (hne : r' = r → slot' ≠ slot) :
    ((Function.update s.rcu r new r').slots slot').active = ((s.rcu r').slots slot').active := by
  by_cases hr : r' = r
  · subst hr
    rw [Function.update_self, hnew, Function.update_of_ne (hne rfl)]
  · rw [Function.update_of_ne hr]

theorem Inv.unregisterThread (h : Inv s) (hok : s.Harmless (.unregisterThread p r slot))
    (hs : s.step (.unregisterThread p r slot) = some t) : Inv t := by
  obtain ⟨hreturned, hs⟩ := Option.ite_none_right_eq_some.mp hs
  obtain rfl := Option.some.inj hs
  rw [EpochRcu.unregisterThread, if_pos (h.counted p r slot hreturned).2]
  refine h.writeSlot (by rfl) ?_
  intro p' r' slot' hslot'
  obtain ⟨hmine, hactive⟩ := h.inside p' r' slot' hslot'
  refine ⟨hmine, ?_⟩
  rw [active_of_ne rfl, hactive]
  rintro rfl rfl
  rw [h.unique p' p r' slot' hmine hreturned] at hslot'
  exact hok hslot'

theorem Inv.enter {nowNs : UInt64} (h : Inv s)
    (hs : s.step (.enter p r slot nowNs) = some t) : Inv t := by
  obtain ⟨hreturned, hs⟩ := Option.ite_none_right_eq_some.mp hs
  obtain rfl := Option.some.inj hs
  rw [EpochRcu.enter, if_neg (Nat.not_le.mpr (h.counted p r slot hreturned).2)]
  refine h.writeSlot (by rfl) ?_
  intro p' r' slot' hslot'
  by_cases hwritten : r' = r ∧ slot' = slot
  · obtain ⟨rfl, rfl⟩ := hwritten
    refine ⟨?_, by simp⟩
    obtain hold | ⟨heq, -⟩ := mem_update_cons.mp hslot'
    · exact (h.inside p' r' slot' hold).1
    · rwa [heq]
  · rw [active_of_ne rfl fun hr hslot => hwritten ⟨hr, hslot⟩]
    obtain hold | ⟨heq, rfl⟩ := mem_update_cons.mp hslot'
    · exact h.inside p' r' slot' hold
    · exact absurd ⟨(Prod.mk.inj heq).2, rfl⟩ hwritten

theorem Inv.exit (h : Inv s) (hok : s.Harmless (.exit p r slot))
    (hs : s.step (.exit p r slot) = some t) : Inv t := by
  obtain ⟨hreturned, hs⟩ := Option.ite_none_right_eq_some.mp hs
  obtain rfl := Option.some.inj hs
  rw [EpochRcu.exit, if_neg (Nat.not_le.mpr (h.counted p r slot hreturned).2)]
  have hleft : slot ∉ (s.sections (p, r)).erase slot := by
    rw [← List.count_eq_zero, List.count_erase_self]
    exact Nat.sub_eq_zero_of_le hok
  refine h.writeSlot (by rfl) ?_
  intro p' r' slot' hslot'
  have hold : slot' ∈ s.sections (p', r') := by
    by_cases hpr : (p', r') = (p, r)
    · rw [hpr, Function.update_self] at hslot'
      rw [hpr]
      exact List.mem_of_mem_erase hslot'
    · rwa [Function.update_of_ne hpr] at hslot'
  obtain ⟨hmine, hactive⟩ := h.inside p' r' slot' hold
  refine ⟨hmine, ?_⟩
  rw [active_of_ne rfl, hactive]
  rintro rfl rfl
  obtain rfl := h.unique p' p r' slot' hmine hreturned
  rw [Function.update_self] at hslot'
  exact hleft hslot'

theorem Inv.step {c : Call ι κ} (h : Inv s) (hok : s.Harmless c) (hs : s.step c = some t) :
    Inv t := by
  cases c with
  | registerThread p r => exact h.registerThread hok hs
  | unregisterThread p r slot => exact h.unregisterThread hok hs
  | enter p r slot nowNs => exact h.enter hs
  | exit p r slot => exact h.exit hok hs

end Steps

omit [DecidableEq ι] [DecidableEq κ] in
theorem inv_initial : Inv ({} : Process ι κ) :=
  ⟨fun _ _ _ h => (by cases h), fun _ _ _ _ h => (by cases h), fun _ _ _ h => (by cases h)⟩

/-- In every run of harmless calls, every reader is visible to the reclaimers of its
manager. -/
theorem readers_visible {calls : List (Call ι κ)} {t : Process ι κ}
    (hok : Runs.Along step Harmless {} calls) (h : Runs.run step {} calls = some t) :
    t.Visible :=
  (Runs.invariant_along (fun _ _ _ hinv hok hs => hinv.step hok hs) inv_initial hok h).visible

/-- Two threads and two managers; one of the threads moves to the other manager after
it has unregistered. -/
def moving : List (Call Bool Bool) :=
  [.registerThread true true, .registerThread false true, .enter false true 1 0,
    .enter true true 0 0, .exit true true 0, .unregisterThread true true 0,
    .registerThread true false, .enter true false 0 5]

theorem readers_visible_moving : ∃ t, Runs.run step {} moving = some t ∧ t.Visible := by
  have hok : Runs.Along step Harmless {} moving := by decide
  exact ⟨_, rfl, readers_visible hok rfl⟩

/-- A thread that is registered with one manager gets its slot there from any other,
which does not count it: its scans look at no slot at all. -/
theorem second_manager_misses_reader : ∃ t : Process Unit Bool,
    Runs.run step {} [.registerThread () true, .registerThread () false, .enter () false 0 0] =
      some t ∧ ¬t.Visible := by
  refine ⟨_, rfl, fun h => ?_⟩
  exact absurd (h () false 0 (by decide)).1 (by decide)

end Process

end EpochRcu

end Ume
