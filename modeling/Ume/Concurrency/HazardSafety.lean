import Mathlib.Data.List.Nodup
import Mathlib.Data.List.Perm.Basic
import Ume.Concurrency.HazardPointers

/-! A pointer that a slot has held since before it was retired is found by every
scan, and no deleter is lost or run twice. -/

namespace Ume

namespace HazardPointerDomain

variable {ι ν : Type*} [DecidableEq ι] [DecidableEq ν] {s t : System ι ν} {a : Action ι ν}

def Action.ofReader : Action ι ν → Bool
  | .retire _ _ | .reclaim | .next => false
  | _ => true

/-- Readers touch the slots and nothing else of the domain. -/
theorem step_reader (ha : a.ofReader = true) (h : step s a = some t) :
    ∃ slots readerPc acquired, t = { s with slots, readerPc, acquired } := by
  have hpointer (i : Nat) (ptr : Option ν) : ∃ slots, s.setPointer i ptr = { s with slots } := by
    unfold System.setPointer
    split_ifs
    · exact ⟨_, rfl⟩
    · exact ⟨_, rfl⟩
  cases a with
  | acquireSlot p =>
    obtain ⟨-, h⟩ := Option.ite_none_right_eq_some.mp h
    exact ⟨_, _, _, (Option.some.inj h).symm⟩
  | releaseSlot p i =>
    obtain ⟨-, h⟩ := Option.ite_none_right_eq_some.mp h
    split_ifs at h
    · obtain ⟨slots, hslots⟩ := hpointer i none
      rw [hslots] at h
      exact ⟨_, _, _, (Option.some.inj h).symm⟩
    · exact ⟨_, _, _, (Option.some.inj h).symm⟩
  | protect p i ptr =>
    obtain ⟨-, h⟩ := Option.ite_none_right_eq_some.mp h
    obtain ⟨slots, hslots⟩ := hpointer i ptr
    rw [hslots] at h
    exact ⟨_, _, _, (Option.some.inj h).symm⟩
  | clear p i =>
    obtain ⟨-, h⟩ := Option.ite_none_right_eq_some.mp h
    obtain ⟨slots, hslots⟩ := hpointer i none
    rw [hslots] at h
    exact ⟨_, _, _, (Option.some.inj h).symm⟩
  | readerNext p =>
    simp only [step, readerNext] at h
    split at h
    · cases h
    · split_ifs at h <;> exact ⟨_, _, _, (Option.some.inj h).symm⟩
    · exact ⟨_, _, _, (Option.some.inj h).symm⟩
  | retire ptr hasDeleter => cases ha
  | reclaim => cases ha
  | next => cases ha

/-- A `retire` call hands over its item and starts a scan, or does nothing. -/
theorem step_retire {ptr : Option ν} {hasDeleter : Bool}
    (h : step s (.retire ptr hasDeleter) = some t) :
    s.pc = .idle ∧
      ((∃ p, ptr = some p ∧ hasDeleter = true ∧
          t = { s with
            retired := s.retired ++ [⟨p, s.retires⟩]
            retires := s.retires + 1
            handed := s.handed ++ [⟨p, s.retires⟩]
            pc := .scanActive 0 [] }) ∨
        ¬(ptr.isSome = true ∧ hasDeleter = true) ∧ t = { s with retires := s.retires + 1 }) := by
  simp only [step] at h
  split at h
  · rename_i p hpc
    refine ⟨hpc, .inl ⟨p, rfl, rfl, ?_⟩⟩
    rw [← Option.some.inj h]
    simp [System.startReclaim]
  · rename_i hpc hnot
    refine ⟨hpc, .inr ⟨?_, (Option.some.inj h).symm⟩⟩
    rintro ⟨hsome, rfl⟩
    obtain ⟨p, rfl⟩ := Option.isSome_iff_exists.mp hsome
    exact hnot p rfl rfl
  · cases h

theorem step_reclaim (h : step s .reclaim = some t) :
    s.pc = .idle ∧ (t = s ∨ t = { s with pc := .scanActive 0 [] }) := by
  simp only [step] at h
  split at h
  · rename_i hpc
    refine ⟨hpc, ?_⟩
    rw [System.startReclaim] at h
    split_ifs at h
    · exact .inl (Option.some.inj h).symm
    · exact .inr (Option.some.inj h).symm
  · cases h

/-- The items whose deleter is still to run: during the sweep, those kept and those not
looked at yet. -/
def System.pending (s : System ι ν) : List (RetiredItem ν) :=
  match s.pc with
  | .sweep items _ stillRetired => stillRetired ++ items
  | _ => s.retired

/-- Every item handed over is pending or its deleter has run, and not both. -/
structure Books (s : System ι ν) : Prop where
  nodup : (s.handed.map RetiredItem.deleter).Nodup
  lt : ∀ item ∈ s.handed, item.deleter < s.retires
  kept : (s.ran ++ s.pending).Perm s.handed

omit [DecidableEq ι] in
theorem Books.next (h : Books s) (hs : next s = some t) : Books t := by
  have hkept := h.kept
  simp only [HazardPointerDomain.next] at hs
  cases hpc : s.pc with
  | idle => simp only [hpc] at hs; cases hs
  | scanActive i protectedPtrs =>
    simp only [hpc] at hs
    simp only [System.pending, hpc] at hkept
    split_ifs at hs <;> obtain rfl := Option.some.inj hs
    · exact ⟨h.nodup, h.lt, hkept⟩
    · exact ⟨h.nodup, h.lt, hkept⟩
    · exact ⟨h.nodup, h.lt, hkept⟩
  | scanPointer i protectedPtrs =>
    simp only [hpc] at hs
    simp only [System.pending, hpc] at hkept
    obtain rfl := Option.some.inj hs
    exact ⟨h.nodup, h.lt, hkept⟩
  | sweep items protectedPtrs stillRetired =>
    simp only [System.pending, hpc] at hkept
    cases items with
    | nil =>
      simp only [hpc] at hs
      obtain rfl := Option.some.inj hs
      rw [List.append_nil] at hkept
      exact ⟨h.nodup, h.lt, hkept⟩
    | cons item items =>
      simp only [hpc] at hs
      split_ifs at hs <;> obtain rfl := Option.some.inj hs
      · refine ⟨h.nodup, h.lt, ?_⟩
        rw [List.append_cons] at hkept
        exact hkept
      · refine ⟨h.nodup, h.lt, ?_⟩
        have hmoved : (s.ran ++ [item] ++ (stillRetired ++ items)).Perm
            (s.ran ++ (stillRetired ++ item :: items)) := by
          rw [List.append_assoc, List.singleton_append]
          exact List.perm_middle.symm.append_left s.ran
        exact hmoved.trans hkept

theorem Books.step (h : Books s) (hs : step s a = some t) : Books t := by
  cases hreader : a.ofReader with
  | true =>
    obtain ⟨slots, readerPc, acquired, rfl⟩ := step_reader hreader hs
    exact ⟨h.nodup, h.lt, h.kept⟩
  | false =>
    have hkept := h.kept
    cases a with
    | retire ptr hasDeleter =>
      obtain ⟨hpc, ⟨p, -, -, rfl⟩ | ⟨-, rfl⟩⟩ := step_retire hs
      · simp only [System.pending, hpc] at hkept
        refine ⟨?_, ?_, ?_⟩
        · rw [List.map_append, List.map_singleton, ← List.concat_eq_append]
          refine h.nodup.concat fun hmem => ?_
          obtain ⟨item, hitem, heq⟩ := List.mem_map.mp hmem
          exact absurd heq (Nat.ne_of_lt (h.lt item hitem))
        · rw [List.forall_mem_append, List.forall_mem_singleton]
          exact ⟨fun item hitem => Nat.lt_succ_of_lt (h.lt item hitem), Nat.lt_succ_self _⟩
        · rw [System.pending, ← List.append_assoc]
          exact hkept.append_right _
      · refine ⟨h.nodup, fun item hitem => Nat.lt_succ_of_lt (h.lt item hitem), ?_⟩
        simp only [System.pending, hpc] at hkept ⊢
        exact hkept
    | reclaim =>
      obtain ⟨hpc, rfl | rfl⟩ := step_reclaim hs
      · exact h
      · simp only [System.pending, hpc] at hkept
        exact ⟨h.nodup, h.lt, hkept⟩
    | next => exact h.next hs
    | _ => cases hreader

theorem books_of_run {as : List (Action ι ν)}
    (h : Runs.run HazardPointerDomain.step {} as = some s) : Books s := by
  have hinitial : Books ({} : System ι ν) := ⟨List.nodup_nil, by simp, List.Perm.nil⟩
  exact Runs.invariant (fun _ _ _ hi hs => hi.step hs) hinitial h

def Published (s : System ι ν) (i : Nat) (p : ν) : Prop :=
  i < kMaxHazardSlots ∧ (s.slots i).active = true ∧ (s.slots i).pointer = some p

instance (s : System ι ν) (i : Nat) (p : ν) : Decidable (Published s i p) :=
  inferInstanceAs (Decidable (_ ∧ _ ∧ _))

/-- A scan that has passed the slot `i` has found `p`. -/
def Found (i : Nat) (p : ν) : Pc ν → Prop
  | .idle => True
  | .scanActive j protectedPtrs | .scanPointer j protectedPtrs => i < j → p ∈ protectedPtrs
  | .sweep _ protectedPtrs _ => p ∈ protectedPtrs

/-- The deleter of the call `k`, which retires `p`, has not run, and `p` is found by the
scan under way. -/
structure Protected (k i : Nat) (p : ν) (s : System ι ν) : Prop where
  lt : k < s.retires
  ran : ∀ item ∈ s.ran, item.deleter ≠ k
  pending : ∀ item ∈ s.pending, item.deleter = k → item.ptr = p
  found : Found i p s.pc

section Protected

variable {k i : Nat} {p : ν}

omit [DecidableEq ι] in
theorem Protected.next (h : Protected k i p s) (hp : Published s i p) (hs : next s = some t) :
    Protected k i p t := by
  have hpending := h.pending
  have hfound := h.found
  simp only [HazardPointerDomain.next] at hs
  cases hpc : s.pc with
  | idle => simp only [hpc] at hs; cases hs
  | scanActive j protectedPtrs =>
    simp only [hpc] at hs hfound
    simp only [System.pending, hpc] at hpending
    split_ifs at hs with hj hactive <;> obtain rfl := Option.some.inj hs
    · exact ⟨h.lt, h.ran, hpending, hfound⟩
    · have hne : i ≠ j := by
        rintro rfl
        exact hactive hp.2.1
      exact ⟨h.lt, h.ran, hpending, fun hij => hfound (by omega)⟩
    · have hij : i < j := Nat.lt_of_lt_of_le hp.1 (Nat.not_lt.mp hj)
      exact ⟨h.lt, h.ran, hpending, hfound hij⟩
  | scanPointer j protectedPtrs =>
    simp only [hpc] at hs hfound
    simp only [System.pending, hpc] at hpending
    obtain rfl := Option.some.inj hs
    refine ⟨h.lt, h.ran, hpending, fun hij => ?_⟩
    by_cases hj : i = j
    · subst hj
      rw [hp.2.2]
      exact List.mem_append_right _ (List.mem_singleton_self _)
    · exact List.mem_append_left _ (hfound (by omega))
  | sweep items protectedPtrs stillRetired =>
    simp only [hpc] at hfound
    simp only [System.pending, hpc] at hpending
    cases items with
    | nil =>
      simp only [hpc] at hs
      obtain rfl := Option.some.inj hs
      rw [List.append_nil] at hpending
      exact ⟨h.lt, h.ran, hpending, trivial⟩
    | cons item items =>
      simp only [hpc] at hs
      split_ifs at hs with hmem <;> obtain rfl := Option.some.inj hs
      · rw [List.append_cons] at hpending
        exact ⟨h.lt, h.ran, hpending, hfound⟩
      · have hne : item.deleter ≠ k := by
          intro hk
          rw [hpending item (by simp) hk] at hmem
          exact hmem hfound
        refine ⟨h.lt, ?_, fun item' hitem' => hpending item' ?_, hfound⟩
        · rw [List.forall_mem_append, List.forall_mem_singleton]
          exact ⟨h.ran, hne⟩
        · exact (List.Sublist.append_left (List.sublist_cons_self item items) _).subset hitem'

theorem Protected.step (h : Protected k i p s) (hp : Published s i p) (hs : step s a = some t) :
    Protected k i p t := by
  cases hreader : a.ofReader with
  | true =>
    obtain ⟨slots, readerPc, acquired, rfl⟩ := step_reader hreader hs
    exact ⟨h.lt, h.ran, h.pending, h.found⟩
  | false =>
    have hpending := h.pending
    cases a with
    | retire ptr hasDeleter =>
      obtain ⟨hpc, ⟨q, -, -, rfl⟩ | ⟨-, rfl⟩⟩ := step_retire hs
      · simp only [System.pending, hpc] at hpending
        refine ⟨Nat.lt_succ_of_lt h.lt, h.ran, ?_, fun hij => absurd hij (Nat.not_lt_zero i)⟩
        rw [System.pending, List.forall_mem_append, List.forall_mem_singleton]
        exact ⟨hpending, fun hk => absurd hk (Nat.ne_of_gt h.lt)⟩
      · refine ⟨Nat.lt_succ_of_lt h.lt, h.ran, ?_, h.found⟩
        simp only [System.pending, hpc] at hpending ⊢
        exact hpending
    | reclaim =>
      obtain ⟨hpc, rfl | rfl⟩ := step_reclaim hs
      · exact h
      · simp only [System.pending, hpc] at hpending
        exact ⟨h.lt, h.ran, hpending, fun hij => absurd hij (Nat.not_lt_zero i)⟩
    | next => exact h.next hp hs
    | _ => cases hreader

theorem Books.protected_of_retire (h : Books s) {hasDeleter : Bool}
    (hs : HazardPointerDomain.step s (.retire (some p) hasDeleter) = some t) :
    Protected s.retires i p t := by
  have hran : ∀ item ∈ s.ran ++ s.pending, item.deleter ≠ s.retires := fun item hitem =>
    Nat.ne_of_lt (h.lt item (h.kept.subset hitem))
  rw [List.forall_mem_append] at hran
  obtain ⟨hpc, ⟨q, hq, -, rfl⟩ | ⟨-, rfl⟩⟩ := step_retire hs
  · simp only [System.pending, hpc] at hran
    refine ⟨Nat.lt_succ_self _, hran.1, ?_, fun hij => absurd hij (Nat.not_lt_zero i)⟩
    rw [System.pending, List.forall_mem_append, List.forall_mem_singleton]
    exact ⟨fun item hitem hk => absurd hk (hran.2 item hitem), fun _ => (Option.some.inj hq).symm⟩
  · refine ⟨Nat.lt_succ_self _, hran.1, ?_, ?_⟩
    · simp only [System.pending, hpc] at hran ⊢
      exact fun item hitem hk => absurd hk (hran.2 item hitem)
    · rw [hpc]
      trivial

end Protected

theorem mem_handed_step {item : RetiredItem ν} (h : item ∈ s.handed)
    (hs : HazardPointerDomain.step s a = some t) : item ∈ t.handed := by
  cases hreader : a.ofReader with
  | true =>
    obtain ⟨slots, readerPc, acquired, rfl⟩ := step_reader hreader hs
    exact h
  | false =>
    cases a with
    | retire ptr hasDeleter =>
      obtain ⟨-, ⟨q, -, -, rfl⟩ | ⟨-, rfl⟩⟩ := step_retire hs
      · exact List.mem_append_left _ h
      · exact h
    | reclaim =>
      obtain ⟨-, rfl | rfl⟩ := step_reclaim hs
      · exact h
      · exact h
    | next =>
      simp only [HazardPointerDomain.step, HazardPointerDomain.next] at hs
      split at hs
      · cases hs
      · split_ifs at hs <;> obtain rfl := Option.some.inj hs <;> exact h
      · obtain rfl := Option.some.inj hs
        exact h
      · obtain rfl := Option.some.inj hs
        exact h
      · split_ifs at hs <;> obtain rfl := Option.some.inj hs <;> exact h
    | _ => cases hreader

def System.runs (s : System ι ν) (k : Nat) : Nat := (s.ran.map RetiredItem.deleter).count k

/-- How often the item of a `retire` call waits in the list. -/
def System.waits (s : System ι ν) (k : Nat) : Nat := (s.retired.map RetiredItem.deleter).count k

omit [DecidableEq ι] [DecidableEq ν] in
theorem Books.runs_add_waits (h : Books s) (hpc : s.pc = .idle) {item : RetiredItem ν}
    (hitem : item ∈ s.handed) : s.runs item.deleter + s.waits item.deleter = 1 := by
  have hkept := h.kept
  simp only [System.pending, hpc] at hkept
  rw [System.runs, System.waits, ← List.count_append, ← List.map_append,
    (hkept.map RetiredItem.deleter).count_eq]
  exact List.count_eq_one_of_mem h.nodup (List.mem_map_of_mem hitem)

/-- In every run: the deleter of a pointer that one slot holds from before the `retire`
call on does not run, and whenever no reclaim is under way, the deleter of every call
with a pointer and a deleter has run once or waits once. -/
theorem hazard_pointers_protect {as : List (Action ι ν)}
    (h : Runs.run HazardPointerDomain.step {} as = some s) :
    (∀ i p hasDeleter after t,
      Runs.run HazardPointerDomain.step s (.retire (some p) hasDeleter :: after) = some t →
      Runs.Along HazardPointerDomain.step (fun s _ => Published s i p) s
        (.retire (some p) hasDeleter :: after) →
      ∀ item ∈ t.ran, item.deleter ≠ s.retires) ∧
    (s.pc = .idle → ∀ before p after s₀, as = before ++ .retire (some p) true :: after →
      Runs.run HazardPointerDomain.step {} before = some s₀ →
      s.runs s₀.retires + s.waits s₀.retires = 1) := by
  refine ⟨?_, ?_⟩
  · intro i p hasDeleter after t hrun hpublished
    obtain ⟨s', hs, hrest⟩ := Runs.run_cons_eq_some.mp hrun
    have hretired : Protected s.retires i p s' := (books_of_run h).protected_of_retire hs
    exact (Runs.invariant_along (fun _ _ _ hi hp hs => hi.step hp hs) hretired
      (hpublished.2 s' hs) hrest).ran
  · rintro hpc before p after s₀ rfl hbefore
    have hbooks := books_of_run h
    rw [Runs.run_append hbefore] at h
    obtain ⟨s₁, hs, hrest⟩ := Runs.run_cons_eq_some.mp h
    have hhanded : (⟨p, s₀.retires⟩ : RetiredItem ν) ∈ s₁.handed := by
      obtain ⟨-, ⟨q, hq, -, rfl⟩ | ⟨hrefused, -⟩⟩ := step_retire hs
      · rw [Option.some.inj hq]
        exact List.mem_append_right _ (List.mem_singleton_self _)
      · exact absurd ⟨rfl, rfl⟩ hrefused
    have hmem : (⟨p, s₀.retires⟩ : RetiredItem ν) ∈ s.handed :=
      Runs.invariant (fun _ _ _ hi hs => mem_handed_step hi hs) hhanded hrest
    exact hbooks.runs_add_waits hpc hmem

/-- A reader that has taken the first slot for the node 7. -/
def protecting : List (Action Unit Nat) :=
  [.acquireSlot (), .readerNext (), .protect () 0 (some 7)]

theorem hazard_pointers_protect_first : ∃ s t : System Unit Nat,
    Runs.run HazardPointerDomain.step {} protecting = some s ∧
    Runs.run HazardPointerDomain.step s (.retire (some 7) true :: List.replicate 132 .next) =
      some t ∧
    ∀ item ∈ t.ran, item.deleter ≠ s.retires := by
  have hs : Runs.run HazardPointerDomain.step {} protecting =
      some ((Runs.run HazardPointerDomain.step {} protecting).getD {}) := rfl
  generalize hs₀ : (Runs.run HazardPointerDomain.step {} protecting).getD {} = s at hs
  have hpublished : Runs.Along HazardPointerDomain.step (fun s _ => Published s 0 7) s
      (.retire (some 7) true :: List.replicate 132 .next) := by
    rw [← hs₀]
    decide +kernel
  have hrun : (Runs.run HazardPointerDomain.step s
      (.retire (some 7) true :: List.replicate 132 .next)).isSome = true := by
    rw [← hs₀]
    decide +kernel
  obtain ⟨t, ht⟩ := Option.isSome_iff_exists.mp hrun
  exact ⟨s, t, hs, ht, (hazard_pointers_protect hs).1 0 7 true _ t ht hpublished⟩

/-- A `retire` call without a pointer drops its deleter. -/
theorem null_retire_drops_deleter : ∃ s : System Unit Nat,
    Runs.run HazardPointerDomain.step {} [.retire none true, .reclaim] = some s ∧
      s.pc = .idle ∧ s.runs 0 + s.waits 0 = 0 :=
  ⟨_, rfl, rfl, rfl⟩

end HazardPointerDomain

end Ume
