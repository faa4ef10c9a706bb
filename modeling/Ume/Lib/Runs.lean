import Mathlib.Data.List.Basic
import Mathlib.Data.List.Infix

/-! Runs of a system whose steps are chosen from outside: an action that is not
enabled has no next state. The actions of several threads in one list are one
interleaving of them. -/

namespace Runs

variable {σ α : Type*}

def run (step : σ → α → Option σ) (s : σ) : List α → Option σ
  | [] => some s
  | a :: as => (step s a).bind fun s' => run step s' as

theorem run_cons {step : σ → α → Option σ} {s s' : σ} {a : α} (h : step s a = some s')
    (as : List α) : run step s (a :: as) = run step s' as := by
  rw [run, h, Option.bind_some]

theorem run_cons_eq_some {step : σ → α → Option σ} {s t : σ} {a : α} {as : List α} :
    run step s (a :: as) = some t ↔ ∃ s', step s a = some s' ∧ run step s' as = some t :=
  Option.bind_eq_some_iff

theorem run_append {step : σ → α → Option σ} {s t : σ} {as : List α}
    (h : run step s as = some t) (bs : List α) : run step s (as ++ bs) = run step t bs := by
  induction as generalizing s with
  | nil =>
    obtain rfl := Option.some.inj h
    rfl
  | cons a as ih =>
    obtain ⟨s', hs, hr⟩ := run_cons_eq_some.mp h
    rw [List.cons_append, run_cons hs, ih hr]

theorem run_mono {step step' : σ → α → Option σ}
    (hstep : ∀ s a s', step s a = some s' → step' s a = some s') {s t : σ} {as : List α}
    (h : run step s as = some t) : run step' s as = some t := by
  induction as generalizing s with
  | nil => exact h
  | cons a as ih =>
    obtain ⟨s', hs, hr⟩ := run_cons_eq_some.mp h
    rw [run_cons (hstep s a s' hs), ih hr]

/-- Every step of a run meets a condition on the state it starts from and its
action. -/
def Along (step : σ → α → Option σ) (ok : σ → α → Prop) (s : σ) : List α → Prop
  | [] => True
  | a :: as => ok s a ∧ ∀ s', step s a = some s' → Along step ok s' as

instance decidableAlong {step : σ → α → Option σ} {ok : σ → α → Prop}
    [∀ s a, Decidable (ok s a)] : ∀ s as, Decidable (Along step ok s as)
  | _, [] => .isTrue trivial
  | s, a :: as =>
    match hs : step s a with
    | none =>
      decidable_of_iff (ok s a)
        ⟨fun h => ⟨h, fun s' hs' => absurd (hs.symm.trans hs') (Option.some_ne_none s').symm⟩,
          fun h => h.1⟩
    | some s' =>
      have : Decidable (Along step ok s' as) := decidableAlong s' as
      decidable_of_iff (ok s a ∧ Along step ok s' as)
        ⟨fun h => ⟨h.1, fun _ hs' => Option.some.inj (hs.symm.trans hs') ▸ h.2⟩,
          fun h => ⟨h.1, h.2 s' hs⟩⟩

/-- What the steps that meet a condition preserve, of a state and the actions that
led to it, holds after every run of such steps. -/
theorem invariant_history {step : σ → α → Option σ} {ok : σ → α → Prop} {inv : List α → σ → Prop}
    (hstep : ∀ before s a s', inv before s → ok s a → step s a = some s' → inv (before ++ [a]) s')
    (before : List α) {as : List α} {s t : σ} (hs : inv before s) (hok : Along step ok s as)
    (h : run step s as = some t) : inv (before ++ as) t := by
  induction as generalizing before s with
  | nil =>
    obtain rfl := Option.some.inj h
    rwa [List.append_nil]
  | cons a as ih =>
    obtain ⟨s', ha, hr⟩ := run_cons_eq_some.mp h
    rw [List.append_cons]
    exact ih _ (hstep before s a s' hs hok.1 ha) (hok.2 s' ha) hr

theorem invariant_along {step : σ → α → Option σ} {ok : σ → α → Prop} {inv : σ → Prop}
    (hstep : ∀ s a s', inv s → ok s a → step s a = some s' → inv s') {s t : σ} {as : List α}
    (hs : inv s) (hok : Along step ok s as) (h : run step s as = some t) : inv t :=
  invariant_history (fun _ s a s' => hstep s a s') [] hs hok h

/-- Where every step that meets the condition can be made, the whole run can. -/
theorem exists_run {step : σ → α → Option σ} {ok : σ → α → Prop} {inv : σ → Prop}
    (hstep : ∀ s a, inv s → ok s a → ∃ s', step s a = some s' ∧ inv s') {s : σ} {as : List α}
    (hs : inv s) (hok : Along step ok s as) : ∃ t, run step s as = some t ∧ inv t := by
  induction as generalizing s with
  | nil => exact ⟨s, rfl, hs⟩
  | cons a as ih =>
    obtain ⟨s', ha, hs'⟩ := hstep s a hs hok.1
    obtain ⟨t, ht, hinv⟩ := ih hs' (hok.2 s' ha)
    exact ⟨t, (run_cons ha as).trans ht, hinv⟩

theorem Along.imp {step : σ → α → Option σ} {ok ok' : σ → α → Prop}
    (himp : ∀ s a, ok s a → ok' s a) {s : σ} {as : List α} (h : Along step ok s as) :
    Along step ok' s as := by
  induction as generalizing s with
  | nil => trivial
  | cons a as ih => exact ⟨himp s a h.1, fun s' hs => ih (h.2 s' hs)⟩

theorem Along.mono {step step' : σ → α → Option σ} {ok : σ → α → Prop}
    (hstep : ∀ s a s', step s a = some s' → step' s a = some s') {s : σ} {as : List α}
    (h : Along step' ok s as) : Along step ok s as := by
  induction as generalizing s with
  | nil => trivial
  | cons a as ih => exact ⟨h.1, fun s' hs => ih (h.2 s' (hstep s a s' hs))⟩

theorem along_and {step : σ → α → Option σ} {ok ok' : σ → α → Prop} {s : σ} {as : List α} :
    Along step (fun s a => ok s a ∧ ok' s a) s as ↔ Along step ok s as ∧ Along step ok' s as := by
  constructor
  · intro h
    exact ⟨h.imp fun _ _ h => h.1, h.imp fun _ _ h => h.2⟩
  · rintro ⟨h, h'⟩
    induction as generalizing s with
    | nil => trivial
    | cons a as ih => exact ⟨⟨h.1, h'.1⟩, fun s' hs => ih (h.2 s' hs) (h'.2 s' hs)⟩

theorem Along.cons {step : σ → α → Option σ} {ok : σ → α → Prop} {s t : σ} {a : α}
    {as : List α} (ha : ok s a) (hs : step s a = some t) (h : Along step ok t as) :
    Along step ok s (a :: as) :=
  ⟨ha, fun _ hs' => Option.some.inj (hs.symm.trans hs') ▸ h⟩

/-- A condition that keeps an invariant can be replaced by what follows from both. -/
theorem Along.imp_of_invariant {step : σ → α → Option σ} {ok ok' : σ → α → Prop} {inv : σ → Prop}
    (himp : ∀ s a s', inv s → ok s a → step s a = some s' → ok' s a)
    (hstep : ∀ s a s', inv s → ok s a → step s a = some s' → inv s') {s t : σ} {as : List α}
    (hok : Along step ok s as) (hs : inv s) (h : run step s as = some t) :
    Along step ok' s as := by
  induction as generalizing s with
  | nil => trivial
  | cons a as ih =>
    obtain ⟨s', ha, hr⟩ := run_cons_eq_some.mp h
    exact Along.cons (himp s a s' hs hok.1 ha) ha
      (ih (hok.2 s' ha) (hstep s a s' hs hok.1 ha) hr)

/-- Two conditions that agree in the states of an invariant agree along a run, if the
first of them keeps the invariant. -/
theorem along_congr {step : σ → α → Option σ} {ok ok' : σ → α → Prop} {inv : σ → Prop}
    (hiff : ∀ s a s', inv s → step s a = some s' → (ok s a ↔ ok' s a))
    (hstep : ∀ s a s', inv s → ok s a → step s a = some s' → inv s') {s t : σ} {as : List α}
    (hs : inv s) (h : run step s as = some t) : Along step ok s as ↔ Along step ok' s as := by
  constructor
  · intro hok
    exact hok.imp_of_invariant (fun s a s' hs hok ha => (hiff s a s' hs ha).mp hok) hstep hs h
  · intro hok'
    have himp (s : σ) (a : α) (s' : σ) (hs : inv s) (hok' : ok' s a) (ha : step s a = some s') :
        ok s a := (hiff s a s' hs ha).mpr hok'
    exact hok'.imp_of_invariant himp
      (fun s a s' hs hok' ha => hstep s a s' hs (himp s a s' hs hok' ha) ha) hs h

theorem Along.append {step : σ → α → Option σ} {ok : σ → α → Prop} {s t : σ} {as bs : List α}
    (h : Along step ok s as) (hrun : run step s as = some t) (hbs : Along step ok t bs) :
    Along step ok s (as ++ bs) := by
  induction as generalizing s with
  | nil =>
    obtain rfl := Option.some.inj hrun
    exact hbs
  | cons a as ih =>
    refine ⟨h.1, fun s' hs => ih (h.2 s' hs) ?_⟩
    rwa [run_cons hs] at hrun

/-- A property of every state that a run comes to. -/
def Throughout (step : σ → α → Option σ) (good : σ → Prop) (s : σ) (as : List α) : Prop :=
  ∀ before, before <+: as → ∀ t, run step s before = some t → good t

theorem throughout_iff {step : σ → α → Option σ} {good : σ → Prop} {s : σ} {as : List α} :
    Throughout step good s as ↔
      good s ∧ Along step (fun s a => ∀ s', step s a = some s' → good s') s as := by
  induction as generalizing s with
  | nil =>
    constructor
    · intro h
      exact ⟨h [] List.prefix_rfl s rfl, trivial⟩
    · rintro ⟨h, -⟩ before hb t ht
      rw [List.prefix_nil.mp hb] at ht
      exact Option.some.inj ht ▸ h
  | cons a as ih =>
    have hnext {s' : σ} (hs : step s a = some s') (h : Throughout step good s (a :: as)) :
        Throughout step good s' as := by
      intro before hb t ht
      exact h (a :: before) (List.cons_prefix_cons.mpr ⟨rfl, hb⟩) t (by rwa [run_cons hs])
    constructor
    · intro h
      refine ⟨h [] List.nil_prefix s rfl, ?_, ?_⟩
      · intro s' hs
        exact (ih.mp (hnext hs h)).1
      · intro s' hs
        exact (ih.mp (hnext hs h)).2
    · rintro ⟨h, hgood, hrest⟩ before hb t ht
      cases before with
      | nil => exact Option.some.inj ht ▸ h
      | cons b before =>
        obtain ⟨rfl, hb'⟩ := List.cons_prefix_cons.mp hb
        obtain ⟨s', hs, hr⟩ := run_cons_eq_some.mp ht
        exact ih.mpr ⟨hgood s' hs, hrest s' hs⟩ before hb' t hr

/-- Where one step keeps a property exactly if it meets a condition, so does a run. -/
theorem throughout_iff_along {step : σ → α → Option σ} {ok : σ → α → Prop} {inv good : σ → Prop}
    (hgood : ∀ s a s', inv s → good s → step s a = some s' → (good s' ↔ ok s a))
    (hinv : ∀ s a s', inv s → step s a = some s' → inv s') {s t : σ} {as : List α}
    (hs : inv s) (hg : good s) (h : run step s as = some t) :
    Throughout step good s as ↔ Along step ok s as := by
  rw [throughout_iff, and_iff_right hg]
  refine along_congr (fun s a s' hi ha => ?_)
    (fun s a s' hi hok ha => (⟨hinv s a s' hi.1 ha, hok s' ha⟩ : inv s' ∧ good s')) ⟨hs, hg⟩ h
  constructor
  · intro hnext
    exact (hgood s a s' hi.1 hi.2 ha).mp (hnext s' ha)
  · intro hok s'' ha'
    exact (hgood s a s'' hi.1 hi.2 ha').mpr hok

theorem along_true (step : σ → α → Option σ) (s : σ) (as : List α) :
    Along step (fun _ _ => True) s as := by
  induction as generalizing s with
  | nil => trivial
  | cons a as ih => exact ⟨trivial, fun s' _ => ih s'⟩

theorem invariant {step : σ → α → Option σ} {inv : σ → Prop}
    (hstep : ∀ s a s', inv s → step s a = some s' → inv s') {s t : σ} {as : List α}
    (hs : inv s) (h : run step s as = some t) : inv t :=
  invariant_along (fun s a s' hi _ ha => hstep s a s' hi ha) hs (along_true step s as) h

/-- The sum of a quantity over the steps of a run. -/
def total (step : σ → α → Option σ) (f : σ → α → Nat) (s : σ) : List α → Nat
  | [] => 0
  | a :: as => f s a + (step s a).elim 0 fun s' => total step f s' as

theorem total_cons {step : σ → α → Option σ} {f : σ → α → Nat} {s s' : σ} {a : α}
    (h : step s a = some s') (as : List α) :
    total step f s (a :: as) = f s a + total step f s' as := by
  rw [total, h, Option.elim_some]

theorem total_add (step : σ → α → Option σ) (f g : σ → α → Nat) (s : σ) (as : List α) :
    total step (fun s a => f s a + g s a) s as = total step f s as + total step g s as := by
  induction as generalizing s with
  | nil => rfl
  | cons a as ih =>
    cases hs : step s a with
    | none => simp [total, hs]
    | some s' =>
      rw [total_cons hs, total_cons hs, total_cons hs, ih]
      omega

theorem total_mul (step : σ → α → Option σ) (k : Nat) (f : σ → α → Nat) (s : σ) (as : List α) :
    total step (fun s a => k * f s a) s as = k * total step f s as := by
  induction as generalizing s with
  | nil => rfl
  | cons a as ih =>
    cases hs : step s a with
    | none => simp [total, hs]
    | some s' => rw [total_cons hs, total_cons hs, ih, Nat.mul_add]

/-- Amortised accounting: a run costs no more than the potential it starts with and
what its steps gain. -/
theorem total_cost_le {step : σ → α → Option σ} {ok : σ → α → Prop} {inv : σ → Prop}
    {cost gain : σ → α → Nat} {potential : σ → Nat}
    (hinv : ∀ s a s', inv s → ok s a → step s a = some s' → inv s')
    (hstep : ∀ s a s', inv s → ok s a → step s a = some s' →
      cost s a + potential s' ≤ potential s + gain s a)
    {s t : σ} {as : List α} (hs : inv s) (hok : Along step ok s as)
    (h : run step s as = some t) :
    total step cost s as + potential t ≤ potential s + total step gain s as := by
  induction as generalizing s with
  | nil =>
    obtain rfl := Option.some.inj h
    simp [total]
  | cons a as ih =>
    obtain ⟨s', ha, hr⟩ := run_cons_eq_some.mp h
    have hhead := hstep s a s' hs hok.1 ha
    have htail := ih (hinv s a s' hs hok.1 ha) (hok.2 s' ha) hr
    rw [total_cons ha, total_cons ha]
    omega

theorem along_of_forall {step : σ → α → Option σ} {ok : α → Prop} {as : List α}
    (h : ∀ a ∈ as, ok a) (s : σ) : Along step (fun _ a => ok a) s as := by
  induction as generalizing s with
  | nil => trivial
  | cons a as ih =>
    exact ⟨h a List.mem_cons_self, fun s' _ => ih (fun b hb => h b (List.mem_cons_of_mem a hb)) s'⟩

/-- What grows along a run stays below its last value. -/
theorem le_of_run {step : σ → α → Option σ} {size : σ → Nat}
    (hstep : ∀ s a s', step s a = some s' → size s ≤ size s') {s t : σ} {as : List α}
    (h : run step s as = some t) : size s ≤ size t := by
  have hkeep (u : σ) (a : α) (u' : σ) (hle : size s ≤ size u) (ha : step u a = some u') :
      size s ≤ size u' := hle.trans (hstep u a u' ha)
  exact invariant hkeep (Nat.le_refl _) h

theorem along_le_of_run {step : σ → α → Option σ} {size : σ → Nat}
    (hstep : ∀ s a s', step s a = some s' → size s ≤ size s') {s t : σ} {as : List α}
    (h : run step s as = some t) : Along step (fun s _ => size s ≤ size t) s as := by
  induction as generalizing s with
  | nil => trivial
  | cons a as ih =>
    obtain ⟨s', ha, hr⟩ := run_cons_eq_some.mp h
    exact Along.cons (le_of_run hstep h) ha (ih hr)

/-- What the steps of a run give out, in order. -/
def outputs {β : Type*} (step : σ → α → Option σ) (out : σ → α → List β) (s : σ) :
    List α → List β
  | [] => []
  | a :: as => out s a ++ (step s a).elim [] fun s' => outputs step out s' as

theorem outputs_cons {β : Type*} {step : σ → α → Option σ} {out : σ → α → List β} {s s' : σ}
    {a : α} (h : step s a = some s') (as : List α) :
    outputs step out s (a :: as) = out s a ++ outputs step out s' as := by
  rw [outputs, h, Option.elim_some]

/-- What holds of a state and what was given out before it, and is kept by every step,
holds of the whole output of a run. -/
theorem invariant_outputs {β : Type*} {step : σ → α → Option σ} {out : σ → α → List β}
    {inv : List β → σ → Prop}
    (hstep : ∀ given s a s', inv given s → step s a = some s' → inv (given ++ out s a) s')
    (given : List β) {s t : σ} {as : List α} (hs : inv given s) (h : run step s as = some t) :
    inv (given ++ outputs step out s as) t := by
  induction as generalizing given s with
  | nil =>
    obtain rfl := Option.some.inj h
    rwa [outputs, List.append_nil]
  | cons a as ih =>
    obtain ⟨s', ha, hr⟩ := run_cons_eq_some.mp h
    rw [outputs_cons ha, ← List.append_assoc]
    exact ih _ (hstep given s a s' hs ha) hr

end Runs
