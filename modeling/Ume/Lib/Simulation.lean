import Mathlib.Data.Option.Basic

/-! Machines that answer calls one after the other. A call that a machine leaves open has
no answer. A machine that keeps step with a specification gives its answers, as long as
the specification gives any. -/

namespace Simulation

variable {σ τ α β : Type*}

def answers (call : σ → α → Option (β × σ)) (s : σ) : List α → Option (List β × σ)
  | [] => some ([], s)
  | a :: as => (call s a).bind fun r => (answers call r.2 as).map fun rs => (r.1 :: rs.1, rs.2)

theorem answers_cons_eq_some {call : σ → α → Option (β × σ)} {s s' : σ} {a : α} {as : List α}
    {bs : List β} : answers call s (a :: as) = some (bs, s') ↔
      ∃ b u bs', call s a = some (b, u) ∧ answers call u as = some (bs', s') ∧ bs = b :: bs' := by
  constructor
  · intro h
    obtain ⟨⟨b, u⟩, hcall, hrest⟩ := Option.bind_eq_some_iff.mp h
    obtain ⟨⟨bs', t⟩, has, heq⟩ := Option.map_eq_some_iff.mp hrest
    obtain ⟨rfl, rfl⟩ := Prod.mk.inj heq
    exact ⟨b, u, bs', hcall, has, rfl⟩
  · rintro ⟨b, u, bs', hcall, has, rfl⟩
    simp [answers, hcall, has]

/-- Forward simulation: a relation that every call keeps, with the same answer. -/
theorem answers_of_simulation {impl : σ → α → Option (β × σ)} {spec : τ → α → Option (β × τ)}
    {rel : τ → σ → Prop}
    (hcall : ∀ t s a b t', rel t s → spec t a = some (b, t') →
      ∃ s', impl s a = some (b, s') ∧ rel t' s')
    {t t' : τ} {s : σ} {as : List α} {bs : List β} (hrel : rel t s)
    (h : answers spec t as = some (bs, t')) :
    ∃ s', answers impl s as = some (bs, s') ∧ rel t' s' := by
  induction as generalizing t s bs with
  | nil =>
    obtain ⟨rfl, rfl⟩ := Prod.mk.inj (Option.some.inj h)
    exact ⟨s, rfl, hrel⟩
  | cons a as ih =>
    obtain ⟨b, u, bs', ha, has, rfl⟩ := answers_cons_eq_some.mp h
    obtain ⟨v, hv, hrel'⟩ := hcall t s a b u hrel ha
    obtain ⟨s', hs', hend⟩ := ih hrel' has
    exact ⟨s', answers_cons_eq_some.mpr ⟨b, v, bs', hv, hs', rfl⟩, hend⟩

end Simulation
