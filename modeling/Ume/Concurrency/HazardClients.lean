import Ume.Concurrency.HazardSafety
import Ume.Lib.Custody

/-! Readers that keep to the slots `acquire_slot` gave them. No slot has two owners,
although every compare-exchange and both stores of `release_slot` are steps of their
own, so that what a reader publishes stays published until it takes it back. -/

namespace Ume

open Custody

namespace HazardPointerDomain

/-- The domain with the slots that each reader has acquired and not begun to give
back. -/
structure Clients (ι ν : Type*) extends System ι ν where
  held : ι → List Nat := fun _ => []

inductive Place (ι : Type*) where
  | held (p : ι)
  | releasing (p : ι)

section Slots

variable {ι ν : Type*} (s : System ι ν) (i : Nat) (ptr : Option ν)

theorem active_setPointer (j : Nat) :
    ((s.setPointer i ptr).slots j).active = (s.slots j).active := by
  unfold System.setPointer System.setSlot
  split_ifs
  · by_cases hj : j = i
    · subst hj
      simp
    · simp [hj]
  · rfl

theorem pointer_setPointer {j : Nat} (hj : i < kMaxHazardSlots → j ≠ i) :
    ((s.setPointer i ptr).slots j).pointer = (s.slots j).pointer := by
  unfold System.setPointer System.setSlot
  split_ifs with hi
  · simp [hj hi]
  · rfl

theorem pointer_setActive (active : Bool) (j : Nat) :
    ((s.setSlot i { s.slots i with active := active }).slots j).pointer =
      (s.slots j).pointer := by
  unfold System.setSlot
  by_cases hj : j = i
  · subst hj
    simp
  · simp [hj]

theorem readerPc_setPointer : (s.setPointer i ptr).readerPc = s.readerPc := by
  unfold System.setPointer System.setSlot
  split_ifs <;> rfl

end Slots

namespace Clients

variable {ι ν : Type*} {s t : Clients ι ν}

def slotsAt (s : Clients ι ν) : Place ι → List Nat
  | .held p => s.held p
  | .releasing p =>
    match s.readerPc p with
    | .release i => [i]
    | _ => []

/-- A slot belongs to one reader at most, from the compare-exchange that takes it to
the store that frees it. -/
structure Owned (s : Clients ι ν) : Prop where
  apart : Apart s.slotsAt
  active : ∀ l, ∀ i ∈ s.slotsAt l, i < kMaxHazardSlots ∧ (s.slots i).active = true

theorem owned_initial : Owned ({} : Clients ι ν) where
  apart :=
    { nodup := fun l => by cases l <;> exact List.nodup_nil
      unique := fun l _ i hi => by cases l <;> cases hi }
  active l i hi := by cases l <;> cases hi

theorem Owned.congr (h : Owned s) (hsame : ∀ l, t.slotsAt l = s.slotsAt l)
    (hactive : ∀ i, (t.slots i).active = (s.slots i).active) : Owned t := by
  have heq : t.slotsAt = s.slotsAt := funext hsame
  refine ⟨heq ▸ h.apart, fun l i hi => ?_⟩
  rw [hactive]
  exact h.active l i (hsame l ▸ hi)

theorem slotsAt_eq (hpc : t.readerPc = s.readerPc) (hheld : t.held = s.held) (l : Place ι) :
    t.slotsAt l = s.slotsAt l := by
  cases l with
  | held p => exact congrFun hheld p
  | releasing p => simp only [slotsAt, hpc]

/-- Publishing a pointer leaves the owners as they are. -/
theorem Owned.setPointer (h : Owned s) (i : Nat) (ptr : Option ν) :
    Owned { s.toSystem.setPointer i ptr with held := s.held } :=
  h.congr (slotsAt_eq (readerPc_setPointer _ _ _) rfl) (active_setPointer _ _ _)

/-- The calls by which a reader changes what it has in a slot. -/
def Withdraws (r : ι) (i : Nat) : Action ι ν → Prop
  | .releaseSlot p j | .protect p j _ | .clear p j => p = r ∧ j = i
  | _ => False

/-- The reader `r` holds the slot `i` with the pointer `ptr` in it. -/
structure Guards (r : ι) (i : Nat) (ptr : ν) (s : Clients ι ν) : Prop where
  owned : Owned s
  held : i ∈ s.held r
  pointer : (s.slots i).pointer = some ptr

theorem Guards.published {r : ι} {i : Nat} {ptr : ν} (h : Guards r i ptr s) :
    Published s.toSystem i ptr :=
  ⟨(h.owned.active (.held r) i h.held).1, (h.owned.active (.held r) i h.held).2, h.pointer⟩

/-- The slot that another reader may write is another slot. -/
theorem Guards.ne_of_keeps {r p : ι} {i j : Nat} {ptr : ν} (h : Guards r i ptr s)
    (hkeeps : j < kMaxHazardSlots → j ∈ s.held p) (hother : ¬ (p = r ∧ j = i)) :
    j < kMaxHazardSlots → i ≠ j := by
  rintro hj rfl
  have hl := h.owned.apart.unique (.held p) (.held r) i (hkeeps hj) h.held
  cases hl
  exact hother ⟨rfl, rfl⟩

theorem slotsAt_releasing {p : ι} (h : ∀ i, s.readerPc p ≠ .release i) :
    s.slotsAt (.releasing p) = [] := by
  cases hp : s.readerPc p with
  | release i => exact absurd hp (h i)
  | _ => simp only [slotsAt, hp]

variable [DecidableEq ι]

/-- A reader that goes from one place to another outside of `release_slot` keeps its
slots. -/
theorem slotsAt_setReader {p : ι} {pc : ReaderPc} (hold : ∀ i, s.readerPc p ≠ .release i)
    (hnew : ∀ i, pc ≠ .release i) (hpc : t.readerPc = Function.update s.readerPc p pc)
    (q : ι) : t.slotsAt (.releasing q) = s.slotsAt (.releasing q) := by
  by_cases hq : q = p
  · subst hq
    have hafter (i : Nat) : t.readerPc q ≠ .release i := by
      rw [hpc, Function.update_self]
      exact hnew i
    rw [slotsAt_releasing hold, slotsAt_releasing hafter]
  · simp only [slotsAt, hpc, Function.update_of_ne hq]

namespace Owned

theorem setReader (h : Owned s) {p : ι} {pc : ReaderPc} (hold : ∀ i, s.readerPc p ≠ .release i)
    (hnew : ∀ i, pc ≠ .release i) (hpc : t.readerPc = Function.update s.readerPc p pc)
    (hheld : t.held = s.held) (hslots : t.slots = s.slots) : Owned t := by
  refine h.congr (fun l => ?_) (fun i => by rw [hslots])
  cases l with
  | held q => exact congrFun hheld q
  | releasing q => exact slotsAt_setReader hold hnew hpc q

/-- The slot that a compare-exchange takes was nobody's. -/
theorem acquire (h : Owned s) {p : ι} {i : Nat} (hp : s.readerPc p = .acquire i)
    (hi : i < kMaxHazardSlots) (hfree : (s.slots i).active = false)
    (hpc : t.readerPc = Function.update s.readerPc p .idle)
    (hheld : t.held = Function.update s.held p (s.held p ++ [i]))
    (hslots : t.slots = Function.update s.slots i { s.slots i with active := true }) :
    Owned t := by
  have hfresh (l : Place ι) : i ∉ s.slotsAt l := by
    intro hmem
    have hactive := (h.active l i hmem).2
    rw [hfree] at hactive
    cases hactive
  have hother : ∀ l ≠ Place.held p, t.slotsAt l = s.slotsAt l := by
    intro l hl
    cases l with
    | held q =>
      have hq : q ≠ p := fun hq => hl (hq ▸ rfl)
      simp only [slotsAt, hheld, Function.update_of_ne hq]
    | releasing q => exact slotsAt_setReader (by simp [hp]) (by simp) hpc q
  have hself : t.slotsAt (.held p) = s.slotsAt (.held p) ++ [i] := by
    simp only [slotsAt, hheld, Function.update_self]
  refine ⟨h.apart.insert hfresh hself hother, fun l j hj => ?_⟩
  by_cases hji : j = i
  · subst hji
    exact ⟨hi, by simp [hslots]⟩
  · have hmem : j ∈ s.slotsAt l := by
      by_cases hl : l = .held p
      · subst hl
        simpa [hself, hji] using hj
      · rwa [hother l hl] at hj
    have hold := h.active l j hmem
    simpa [hslots, hji] using hold

/-- The first store of `release_slot`: the slot is the reader's still. -/
theorem beginRelease (h : Owned s) {p : ι} {i : Nat} (hp : s.readerPc p = .idle)
    (hi : i ∈ s.held p) (hpc : t.readerPc = Function.update s.readerPc p (.release i))
    (hheld : t.held = Function.update s.held p ((s.held p).erase i))
    (hactive : ∀ j, (t.slots j).active = (s.slots j).active) : Owned t := by
  have hne : Place.held p ≠ .releasing p := by simp
  have hsplit : ([i] ++ t.slotsAt (.held p)).Perm (s.slotsAt (.held p)) := by
    simp only [slotsAt, hheld, Function.update_self]
    exact (List.perm_cons_erase hi).symm
  have hdst : t.slotsAt (.releasing p) = s.slotsAt (.releasing p) ++ [i] := by
    simp [slotsAt, hpc, hp]
  have hother : ∀ l, l ≠ .held p → l ≠ .releasing p → t.slotsAt l = s.slotsAt l := by
    intro l hl hl'
    cases l with
    | held q =>
      have hq : q ≠ p := fun hq => hl (hq ▸ rfl)
      simp only [slotsAt, hheld, Function.update_of_ne hq]
    | releasing q =>
      have hq : q ≠ p := fun hq => hl' (hq ▸ rfl)
      simp only [slotsAt, hpc, Function.update_of_ne hq]
  refine ⟨h.apart.transfer hne hsplit hdst hother, fun l j hj => ?_⟩
  rw [hactive]
  exact forall_transfer h.active hsplit hdst hother l j hj

/-- The second store of `release_slot` frees the slot, which nobody else has. -/
theorem endRelease (h : Owned s) {p : ι} {i : Nat} (hp : s.readerPc p = .release i)
    (hpc : t.readerPc = Function.update s.readerPc p .idle) (hheld : t.held = s.held)
    (hslots : t.slots = Function.update s.slots i { s.slots i with active := false }) :
    Owned t := by
  have hgone : t.slotsAt (.releasing p) = [] := by simp [slotsAt, hpc]
  have hother : ∀ l ≠ Place.releasing p, t.slotsAt l = s.slotsAt l := by
    intro l hl
    cases l with
    | held q => exact congrFun hheld q
    | releasing q =>
      have hq : q ≠ p := fun hq => hl (hq ▸ rfl)
      simp only [slotsAt, hpc, Function.update_of_ne hq]
  have hsub (l : Place ι) : (t.slotsAt l).Sublist (s.slotsAt l) := by
    by_cases hl : l = .releasing p
    · rw [hl, hgone]
      exact List.nil_sublist _
    · rw [hother l hl]
  refine ⟨h.apart.sublist hsub, fun l j hj => ?_⟩
  have hold := h.active l j ((hsub l).subset hj)
  have hji : j ≠ i := by
    rintro rfl
    have hmine : j ∈ s.slotsAt (.releasing p) := by simp [slotsAt, hp]
    have hl := h.apart.unique l _ j ((hsub l).subset hj) hmine
    rw [hl, hgone] at hj
    cases hj
  simpa [hslots, hji] using hold

end Owned

variable [DecidableEq ν] {a : Action ι ν}

def heldAfter (s : Clients ι ν) : Action ι ν → ι → List Nat
  | .readerNext p =>
    match s.readerPc p with
    | .acquire i =>
      if i < kMaxHazardSlots ∧ (s.slots i).active = false then
        Function.update s.held p (s.held p ++ [i])
      else s.held
    | _ => s.held
  | .releaseSlot p i => Function.update s.held p ((s.held p).erase i)
  | _ => s.held

def step (s : Clients ι ν) (a : Action ι ν) : Option (Clients ι ν) :=
  (HazardPointerDomain.step s.toSystem a).map fun t => { t with held := s.heldAfter a }

/-- Readers name slots that they hold, or an index that stands for none. -/
def KeepsToSlots (s : Clients ι ν) : Action ι ν → Prop
  | .releaseSlot p i | .protect p i _ | .clear p i => i < kMaxHazardSlots → i ∈ s.held p
  | _ => True

instance (s : Clients ι ν) (a : Action ι ν) : Decidable (s.KeepsToSlots a) := by
  cases a <;> unfold KeepsToSlots <;> infer_instance

theorem Owned.readerNext (h : Owned s) {p : ι} (hs : s.step (.readerNext p) = some t) :
    Owned t := by
  obtain ⟨u, hu, rfl⟩ := Option.map_eq_some_iff.mp hs
  simp only [HazardPointerDomain.step, HazardPointerDomain.readerNext] at hu
  cases hp : s.readerPc p with
  | idle => simp only [hp] at hu; cases hu
  | acquire i =>
    simp only [hp] at hu
    split_ifs at hu with hi hactive <;> obtain rfl := Option.some.inj hu
    · exact h.setReader (by simp [hp]) (show ∀ j, ReaderPc.acquire (i + 1) ≠ .release j by simp) rfl
        (by simp [heldAfter, hp, hactive]) rfl
    · have hfree : (s.slots i).active = false := by simpa using hactive
      exact h.acquire hp hi hfree rfl (by simp [heldAfter, hp, hi, hfree]) rfl
    · exact h.setReader (by simp [hp]) (show ∀ j, ReaderPc.idle ≠ .release j by simp) rfl
        (by simp [heldAfter, hp, hi]) rfl
  | release i =>
    simp only [hp] at hu
    obtain rfl := Option.some.inj hu
    exact h.endRelease hp rfl (by simp [heldAfter, hp]) rfl

/-- The retiring thread looks at the slots and leaves them alone. -/
theorem step_writer {s t : System ι ν} (ha : a.ofReader = false)
    (h : HazardPointerDomain.step s a = some t) :
    t.slots = s.slots ∧ t.readerPc = s.readerPc := by
  cases a with
  | retire ptr hasDeleter =>
    obtain ⟨-, ⟨p, -, -, rfl⟩ | ⟨-, rfl⟩⟩ := step_retire h
    · exact ⟨rfl, rfl⟩
    · exact ⟨rfl, rfl⟩
  | reclaim =>
    obtain ⟨-, rfl | rfl⟩ := step_reclaim h
    · exact ⟨rfl, rfl⟩
    · exact ⟨rfl, rfl⟩
  | next =>
    simp only [HazardPointerDomain.step, HazardPointerDomain.next] at h
    repeat' split at h
    all_goals cases h
    all_goals exact ⟨rfl, rfl⟩
  | _ => cases ha

theorem Owned.step (h : Owned s) (hok : s.KeepsToSlots a) (hs : s.step a = some t) : Owned t := by
  cases hreader : a.ofReader with
  | false =>
    have hheld : s.heldAfter a = s.held := by
      cases a <;> first | rfl | cases hreader
    obtain ⟨u, hu, rfl⟩ := Option.map_eq_some_iff.mp hs
    obtain ⟨hslots, hpc⟩ := step_writer hreader hu
    exact h.congr (slotsAt_eq hpc hheld) fun i => congrArg (fun f => (f i).active) hslots
  | true =>
    cases a with
    | readerNext p => exact h.readerNext hs
    | acquireSlot p =>
      obtain ⟨u, hu, rfl⟩ := Option.map_eq_some_iff.mp hs
      obtain ⟨hp, hu⟩ := Option.ite_none_right_eq_some.mp hu
      obtain rfl := Option.some.inj hu
      exact h.setReader (by simp [hp]) (show ∀ j, ReaderPc.acquire 0 ≠ .release j by simp) rfl rfl
        rfl
    | releaseSlot p i =>
      obtain ⟨u, hu, rfl⟩ := Option.map_eq_some_iff.mp hs
      obtain ⟨hp, hu⟩ := Option.ite_none_right_eq_some.mp hu
      split_ifs at hu with hi <;> obtain rfl := Option.some.inj hu
      · refine h.beginRelease hp (hok hi) ?_ rfl (active_setPointer _ _ _)
        simp [System.setReader, readerPc_setPointer]
      · have hnot : i ∉ s.held p := fun hmem => hi (h.active (.held p) i hmem).1
        refine h.congr (slotsAt_eq rfl ?_) fun _ => rfl
        simp [heldAfter, List.erase_of_not_mem hnot]
    | protect p i ptr =>
      obtain ⟨u, hu, rfl⟩ := Option.map_eq_some_iff.mp hs
      obtain ⟨-, hu⟩ := Option.ite_none_right_eq_some.mp hu
      obtain rfl := Option.some.inj hu
      exact h.setPointer i ptr
    | clear p i =>
      obtain ⟨u, hu, rfl⟩ := Option.map_eq_some_iff.mp hs
      obtain ⟨-, hu⟩ := Option.ite_none_right_eq_some.mp hu
      obtain rfl := Option.some.inj hu
      exact h.setPointer i none
    | _ => cases hreader

theorem Guards.step {r : ι} {i : Nat} {ptr : ν} (h : Guards r i ptr s) (hok : s.KeepsToSlots a)
    (hstay : ¬ Withdraws r i a) (hs : s.step a = some t) : Guards r i ptr t := by
  have howned := h.owned.step hok hs
  have hpointer := h.pointer
  obtain ⟨u, hu, rfl⟩ := Option.map_eq_some_iff.mp hs
  cases hreader : a.ofReader with
  | false =>
    have hheld : s.heldAfter a = s.held := by
      cases a <;> first | rfl | cases hreader
    obtain ⟨hslots, -⟩ := step_writer hreader hu
    refine ⟨howned, ?_, ?_⟩
    · rw [hheld]
      exact h.held
    · rw [hslots]
      exact hpointer
  | true =>
    cases a with
    | acquireSlot p =>
      obtain ⟨-, hu⟩ := Option.ite_none_right_eq_some.mp hu
      obtain rfl := Option.some.inj hu
      exact ⟨howned, h.held, hpointer⟩
    | releaseSlot p j =>
      have hheld : i ∈ s.heldAfter (.releaseSlot p j) r := by
        by_cases hp : p = r
        · subst hp
          have hij : i ≠ j := fun hij => hstay ⟨rfl, hij.symm⟩
          simp only [heldAfter, Function.update_self]
          exact (List.mem_erase_of_ne hij).mpr h.held
        · simp only [heldAfter, Function.update_of_ne (Ne.symm hp)]
          exact h.held
      obtain ⟨-, hu⟩ := Option.ite_none_right_eq_some.mp hu
      split_ifs at hu <;> obtain rfl := Option.some.inj hu
      · exact ⟨howned, hheld, (pointer_setPointer _ _ _ (h.ne_of_keeps hok hstay)).trans hpointer⟩
      · exact ⟨howned, hheld, hpointer⟩
    | protect p j ptr' =>
      obtain ⟨-, hu⟩ := Option.ite_none_right_eq_some.mp hu
      obtain rfl := Option.some.inj hu
      exact ⟨howned, h.held,
        (pointer_setPointer _ _ _ (h.ne_of_keeps hok hstay)).trans hpointer⟩
    | clear p j =>
      obtain ⟨-, hu⟩ := Option.ite_none_right_eq_some.mp hu
      obtain rfl := Option.some.inj hu
      exact ⟨howned, h.held,
        (pointer_setPointer _ _ _ (h.ne_of_keeps hok hstay)).trans hpointer⟩
    | readerNext p =>
      have hheld : i ∈ s.heldAfter (.readerNext p) r := by
        have hmem (j : Nat) : i ∈ Function.update s.held p (s.held p ++ [j]) r := by
          by_cases hp : r = p
          · subst hp
            simp [h.held]
          · simpa [hp] using h.held
        cases hp : s.readerPc p with
        | acquire j =>
          simp only [heldAfter, hp]
          split_ifs
          · exact hmem j
          · exact h.held
        | _ =>
          simp only [heldAfter, hp]
          exact h.held
      simp only [HazardPointerDomain.step, HazardPointerDomain.readerNext] at hu
      split at hu
      · cases hu
      · split_ifs at hu <;> obtain rfl := Option.some.inj hu
        · exact ⟨howned, hheld, hpointer⟩
        · exact ⟨howned, hheld, (pointer_setActive _ _ _ _).trans hpointer⟩
        · exact ⟨howned, hheld, hpointer⟩
      · obtain rfl := Option.some.inj hu
        exact ⟨howned, hheld, (pointer_setActive _ _ _ _).trans hpointer⟩
    | _ => cases hreader

theorem books_step (h : Books s.toSystem) (hs : s.step a = some t) : Books t.toSystem := by
  obtain ⟨u, hu, rfl⟩ := Option.map_eq_some_iff.mp hs
  exact h.step hu

/-- Two readers take the first two slots at the same time, the second one for the
node 7. -/
def racing : List (Action Bool Nat) :=
  [.acquireSlot false, .acquireSlot true, .readerNext false, .readerNext true, .readerNext true,
    .protect true 1 (some 7)]

end Clients

end HazardPointerDomain

end Ume
