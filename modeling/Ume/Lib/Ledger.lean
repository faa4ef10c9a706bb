import Mathlib.Algebra.BigOperators.Group.Finset.Piecewise
import Mathlib.Algebra.GroupWithZero.Nat
import Mathlib.Algebra.Order.BigOperators.Group.Finset
import Mathlib.Data.List.Basic

/-! A ledger of credits and debits by key. When no debit takes more than its own
key has left, no group of keys is overdrawn, and the net amounts of the parts of
a group add up. -/

namespace Ledger

inductive Side where
  | credit | debit
  deriving DecidableEq

structure Entry (κ : Type*) where
  side : Side
  key : κ
  amount : Nat

variable {κ : Type*}

section Totals

variable (side : Side) (P : κ → Prop) [DecidablePred P]

def Entry.counted (e : Entry κ) : Nat := if e.side = side ∧ P e.key then e.amount else 0

def total (es : List (Entry κ)) : Nat := (es.map (Entry.counted side P)).sum

theorem total_append (es es' : List (Entry κ)) :
    total side P (es ++ es') = total side P es + total side P es' := by
  rw [total, List.map_append, List.sum_append, total, total]

theorem total_snoc (es : List (Entry κ)) (e : Entry κ) :
    total side P (es ++ [e]) = total side P es + e.counted side P := by
  rw [total_append]
  rfl

theorem total_le_all (es : List (Entry κ)) :
    total side P es ≤ total side (fun _ => True) es := by
  apply List.sum_le_sum
  intro e _
  simp only [Entry.counted, and_true]
  by_cases he : e.side = side ∧ P e.key
  · rw [if_pos he, if_pos he.1]
  · rw [if_neg he]
    exact Nat.zero_le _

def net (es : List (Entry κ)) : Nat := total .credit P es - total .debit P es

variable {P} {Q : κ → Prop} [DecidablePred Q]

theorem total_congr (h : ∀ k, P k ↔ Q k) (es : List (Entry κ)) :
    total side P es = total side Q es := by
  unfold total
  congr 2
  funext e
  simp only [Entry.counted, h]

theorem net_congr (h : ∀ k, P k ↔ Q k) (es : List (Entry κ)) : net P es = net Q es := by
  rw [net, net, total_congr _ h, total_congr _ h]

end Totals

section Groups

variable {ι : Type*} [DecidableEq ι] (side : Side)

theorem sum_total (f : κ → ι) (S : Finset ι) (es : List (Entry κ)) :
    ∑ i ∈ S, total side (f · = i) es = total side (f · ∈ S) es := by
  induction es with
  | nil => exact Finset.sum_eq_zero fun _ _ => rfl
  | cons e es ih =>
    have hhead : ∑ i ∈ S, e.counted side (f · = i) = e.counted side (f · ∈ S) := by
      by_cases hs : e.side = side
      · simp only [Entry.counted, hs, true_and, Finset.sum_ite_eq]
      · simp only [Entry.counted, hs, false_and, if_false, Finset.sum_const_zero]
    simp only [total, List.map_cons, List.sum_cons, Finset.sum_add_distrib] at ih ⊢
    rw [ih, hhead]

variable [DecidableEq κ]

def keys (es : List (Entry κ)) : Finset κ := (es.map Entry.key).toFinset

theorem total_eq_mem (P : κ → Prop) [DecidablePred P] (es : List (Entry κ)) :
    total side P es = total side (· ∈ (keys es).filter P) es := by
  unfold total
  congr 1
  apply List.map_congr_left
  intro e he
  have hk : e.key ∈ keys es := List.mem_toFinset.mpr (List.mem_map.mpr ⟨e, he, rfl⟩)
  simp only [Entry.counted, Finset.mem_filter, hk, true_and]

end Groups

section Covered

variable [DecidableEq κ] {es : List (Entry κ)}

/-- Every debit takes at most what its key has left. -/
def Covered (es : List (Entry κ)) : Prop :=
  ∀ before e, before ++ [e] <+: es → e.side = .debit → e.amount ≤ net (· = e.key) before

theorem Covered.mono {es' : List (Entry κ)} (h : Covered es') (hes : es <+: es') : Covered es :=
  fun before e hb => h before e (hb.trans hes)

theorem covered_nil : Covered ([] : List (Entry κ)) := by
  intro before e hb
  exact absurd (List.prefix_nil.mp hb) (by simp)

theorem Covered.snoc {e : Entry κ} (h : Covered es)
    (he : e.side = .debit → e.amount ≤ net (· = e.key) es) : Covered (es ++ [e]) := by
  intro before e' hb
  rcases List.prefix_concat_iff.mp hb with heq | hb
  · obtain ⟨rfl, hlast⟩ := List.append_inj' heq rfl
    obtain rfl := List.singleton_inj.mp hlast
    exact he
  · exact h before e' hb

theorem Covered.debits_le_of_key (h : Covered es) (key : κ) :
    total .debit (· = key) es ≤ total .credit (· = key) es := by
  induction es using List.reverseRecOn with
  | nil => exact Nat.le_refl _
  | append_singleton es e ih =>
    have hes := ih (h.mono (List.prefix_append es [e]))
    have hcov := h es e List.prefix_rfl
    rw [total_snoc, total_snoc]
    obtain ⟨side, k, amount⟩ := e
    cases side with
    | credit => exact Nat.le_add_right_of_le hes
    | debit =>
      by_cases hk : k = key
      · subst hk
        have hcov : amount ≤ net (· = k) es := hcov rfl
        unfold net at hcov
        simp only [Entry.counted, reduceCtorEq, false_and, true_and, if_true, if_false]
        omega
      · simp only [Entry.counted, reduceCtorEq, hk, and_false, if_false]
        exact hes

variable (P : κ → Prop) [DecidablePred P]

/-- No group of keys is overdrawn. -/
theorem Covered.debits_le (h : Covered es) : total .debit P es ≤ total .credit P es :=
  calc total .debit P es = total .debit (· ∈ (keys es).filter P) es := total_eq_mem ..
    _ = ∑ key ∈ (keys es).filter P, total .debit (· = key) es := (sum_total .debit id _ es).symm
    _ ≤ ∑ key ∈ (keys es).filter P, total .credit (· = key) es :=
      Finset.sum_le_sum fun key _ => h.debits_le_of_key key
    _ = total .credit (· ∈ (keys es).filter P) es := sum_total .credit id _ es
    _ = total .credit P es := (total_eq_mem ..).symm

theorem Covered.amount_le_net {e : Entry κ} (h : Covered (es ++ [e])) (he : e.side = .debit)
    (hP : P e.key) : e.amount ≤ net P es := by
  have hle := h.debits_le P
  rw [total_snoc, total_snoc, Entry.counted, Entry.counted, if_pos ⟨he, hP⟩,
    if_neg (fun hc => Side.noConfusion (he.symm.trans hc.1))] at hle
  unfold net
  omega

theorem Covered.sum_net {ι : Type*} [DecidableEq ι] (h : Covered es) (f : κ → ι) (S : Finset ι) :
    ∑ i ∈ S, net (f · = i) es = net (f · ∈ S) es := by
  have hsum : ∑ i ∈ S, (net (f · = i) es + total .debit (f · = i) es) =
      ∑ i ∈ S, total .credit (f · = i) es :=
    Finset.sum_congr rfl fun i _ => Nat.sub_add_cancel (h.debits_le (f · = i))
  rw [Finset.sum_add_distrib, sum_total, sum_total] at hsum
  have hle := h.debits_le (f · ∈ S)
  unfold net at hsum ⊢
  omega

end Covered

end Ledger
