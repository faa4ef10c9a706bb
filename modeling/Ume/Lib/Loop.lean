import Mathlib.Order.WellFounded
import Mathlib.Data.Sum.Basic

/-! Loops given by a body that either continues with a state or leaves with a
result. A run has fuel; a loop returns when some amount of fuel is enough. -/

namespace Loop

variable {σ ρ : Type*} (step : σ → σ ⊕ ρ)

def run : Nat → σ → Option ρ
  | 0, _ => none
  | fuel + 1, s =>
    match step s with
    | .inl s' => run fuel s'
    | .inr r => some r

def Returns (s : σ) (r : ρ) : Prop := ∃ fuel, run step fuel s = some r

variable {step} {s s' : σ} {r r' : ρ} {fuel fuel' : Nat}

theorem run_mono (h : run step fuel s = some r) (hle : fuel ≤ fuel') :
    run step fuel' s = some r := by
  induction fuel generalizing s fuel' with
  | zero => simp [run] at h
  | succ fuel ih =>
    obtain ⟨more, rfl⟩ : ∃ more, fuel' = more + 1 := ⟨fuel' - 1, by omega⟩
    cases hs : step s with
    | inl s' =>
      simp only [run, hs] at h ⊢
      exact ih h (by omega)
    | inr r' => simpa only [run, hs] using h

theorem Returns.unique (h : Returns step s r) (h' : Returns step s r') : r = r' := by
  obtain ⟨fuel, h⟩ := h
  obtain ⟨fuel', h'⟩ := h'
  have hh := run_mono h (le_max_left fuel fuel')
  rw [run_mono h' (le_max_right fuel fuel')] at hh
  exact (Option.some.inj hh).symm

theorem returns_of_inr (h : step s = .inr r) : Returns step s r :=
  ⟨1, by simp [run, h]⟩

theorem returns_inl_iff (h : step s = .inl s') : Returns step s r ↔ Returns step s' r := by
  constructor
  · rintro ⟨fuel, hr⟩
    cases fuel with
    | zero => simp [run] at hr
    | succ fuel => exact ⟨fuel, by simpa only [run, h] using hr⟩
  · rintro ⟨fuel, hr⟩
    exact ⟨fuel + 1, by simpa only [run, h] using hr⟩

/-- What holds where the loop leaves, and passes back over every pass, holds
where it started. -/
theorem run_induction {motive : σ → Prop} (hret : ∀ s, step s = .inr r → motive s)
    (hpass : ∀ s s', step s = .inl s' → motive s' → motive s) (h : run step fuel s = some r) :
    motive s := by
  induction fuel generalizing s with
  | zero => simp [run] at h
  | succ fuel ih =>
    cases hs : step s with
    | inl s' =>
      simp only [run, hs] at h
      exact hpass s s' hs (ih h)
    | inr r' =>
      simp only [run, hs, Option.some.injEq] at h
      exact hret s (h ▸ hs)

/-- An invariant of the passes holds of the state that the loop leaves from. -/
theorem run_invariant (inv : σ → Prop) (hpass : ∀ s s', inv s → step s = .inl s' → inv s')
    (h : run step fuel s = some r) (hs : inv s) : ∃ s', inv s' ∧ step s' = .inr r := by
  induction fuel generalizing s with
  | zero => simp [run] at h
  | succ fuel ih =>
    cases he : step s with
    | inl s' =>
      simp only [run, he] at h
      exact ih h (hpass s s' hs he)
    | inr r' =>
      simp only [run, he, Option.some.injEq] at h
      exact ⟨s, hs, h ▸ he⟩

/-- A measure that falls at every continuing pass makes the loop return. -/
theorem exists_returns_of_measure (inv : σ → Prop) (μ : σ → Nat)
    (hstep : ∀ s s', inv s → step s = .inl s' → inv s' ∧ μ s' < μ s) (s : σ) (hs : inv s) :
    ∃ r, Returns step s r := by
  induction hn : μ s using Nat.strong_induction_on generalizing s with
  | _ n ih =>
    cases he : step s with
    | inr r => exact ⟨r, returns_of_inr he⟩
    | inl s' =>
      have hh := hstep s s' hs he
      obtain ⟨r, hr⟩ := ih (μ s') (hn ▸ hh.2) s' hh.1 rfl
      exact ⟨r, (returns_inl_iff he).mpr hr⟩

/-- A set of states that every pass stays in and none leaves the loop from. -/
theorem not_returns_of_trap (trap : σ → Prop)
    (hstep : ∀ s, trap s → ∃ s', step s = .inl s' ∧ trap s') (s : σ) (hs : trap s) (r : ρ) :
    ¬ Returns step s r := by
  rintro ⟨fuel, h⟩
  induction fuel generalizing s with
  | zero => simp [run] at h
  | succ fuel ih =>
    obtain ⟨s', he, hs'⟩ := hstep s hs
    simp only [run, he] at h
    exact ih s' hs' h

end Loop
