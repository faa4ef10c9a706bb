import Mathlib.Data.List.Basic
import Mathlib.Data.List.Infix
import Mathlib.Order.Bounds.Basic

/-! Facts about every prefix of a list that is folded into a state. -/

namespace Folds

variable {σ α β : Type*} {step : σ → α → σ}

/-- Every element of a list meets a condition on the state it is folded into. -/
def Along (step : σ → α → σ) (ok : σ → α → Prop) (s : σ) (as : List α) : Prop :=
  ∀ before a, before ++ [a] <+: as → ok (before.foldl step s) a

theorem along_nil {ok : σ → α → Prop} {s : σ} : Along step ok s [] := by
  intro before a hb
  exact absurd (List.prefix_nil.mp hb) (by simp)

theorem along_cons {ok : σ → α → Prop} {s : σ} {a : α} {as : List α} (h : ok s a)
    (hrest : Along step ok (step s a) as) : Along step ok s (a :: as) := by
  intro before b hb
  cases before with
  | nil =>
    obtain ⟨rfl, -⟩ := List.cons_prefix_cons.mp hb
    exact h
  | cons c before =>
    obtain ⟨rfl, htail⟩ := List.cons_prefix_cons.mp hb
    exact hrest before b htail

/-- What holds at the start, and is kept by each element that meets the condition,
holds at every prefix. -/
theorem Along.induction {ok : σ → α → Prop} {s : σ} {as : List α} (h : Along step ok s as)
    {motive : List α → Prop} (hnil : motive [])
    (hsnoc : ∀ before a, before ++ [a] <+: as → ok (before.foldl step s) a → motive before →
      motive (before ++ [a]))
    (before : List α) (hb : before <+: as) : motive before := by
  induction before using List.reverseRecOn with
  | nil => exact hnil
  | append_singleton before a ih =>
    exact hsnoc before a hb (h before a hb) (ih ((List.prefix_append before [a]).trans hb))

/-- The values an observable takes at the prefixes of a list. -/
def Takes (step : σ → α → σ) (s : σ) (current : σ → β) (as : List α) : Set β :=
  {x | ∃ before, before <+: as ∧ x = current (before.foldl step s)}

theorem takes_snoc (s : σ) (current : σ → β) (as : List α) (a : α) :
    Takes step s current (as ++ [a]) =
      insert (current (step (as.foldl step s) a)) (Takes step s current as) := by
  ext x
  simp only [Takes, Set.mem_ofPred_eq, Set.mem_insert_iff, List.prefix_concat_iff]
  constructor
  · rintro ⟨before, rfl | hb, rfl⟩
    · exact .inl (by rw [List.foldl_append]; rfl)
    · exact .inr ⟨before, hb, rfl⟩
  · rintro (rfl | ⟨before, hb, rfl⟩)
    · exact ⟨as ++ [a], .inl rfl, by rw [List.foldl_append]; rfl⟩
    · exact ⟨before, .inr hb, rfl⟩

/-- A field that is raised to the current value by each step is its maximum over
all prefixes. -/
theorem isGreatest_peak [LinearOrder β] {current peak : σ → β} {s : σ} (hstart : peak s = current s)
    (hstep : ∀ t a, current t ≤ peak t → peak (step t a) = max (current (step t a)) (peak t))
    (as : List α) : IsGreatest (Takes step s current as) (peak (as.foldl step s)) := by
  induction as using List.reverseRecOn with
  | nil =>
    refine ⟨⟨[], List.prefix_rfl, hstart⟩, ?_⟩
    rintro x ⟨before, hb, rfl⟩
    rw [List.prefix_nil.mp hb]
    exact hstart.ge
  | append_singleton as a ih =>
    have hle : current (as.foldl step s) ≤ peak (as.foldl step s) :=
      ih.2 ⟨as, List.prefix_rfl, rfl⟩
    rw [takes_snoc, List.foldl_append, List.foldl_cons, List.foldl_nil, hstep _ a hle]
    exact ih.insert _

/-! ### Steps that concern one key each -/

section Keyed

variable {κ ν : Type*} [DecidableEq κ] {key : α → κ}

/-- What is kept for a key depends only on the elements with that key. -/
theorem look_foldl {look : σ → κ → ν} {own : ν → α → ν}
    (hstep : ∀ s a k, look (step s a) k = if key a = k then own (look s k) a else look s k)
    (s : σ) (as : List α) (k : κ) :
    look (as.foldl step s) k = (as.filter (key · = k)).foldl own (look s k) := by
  induction as generalizing s with
  | nil => rfl
  | cons a as ih =>
    rw [List.foldl_cons, ih, hstep]
    by_cases hk : key a = k
    · simp [hk]
    · simp [hk]

/-- Lists that agree for every key are rearrangements of each other. -/
theorem perm_of_filter_eq [DecidableEq α] {as bs : List α}
    (h : ∀ k, as.filter (key · = k) = bs.filter (key · = k)) : as.Perm bs := by
  apply List.perm_iff_count.mpr
  intro a
  have hcount (l : List α) : (l.filter (key · = key a)).count a = l.count a :=
    List.count_filter (by simp)
  rw [← hcount as, ← hcount bs, h]

end Keyed

end Folds
