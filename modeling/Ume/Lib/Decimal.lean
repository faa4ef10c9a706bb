import Mathlib.Data.List.Induction
import Mathlib.Data.String.Basic
import Mathlib.Tactic.Ring

/-! Decimal numerals padded with zeros on the left: they determine the number,
and numerals of one width are in lexicographic order as the numbers are. -/

namespace Decimal

/-- At least `width` digits, as a field width with fill character `0` prints. -/
def padded (width n : Nat) : List Char :=
  (Nat.toDigits 10 n).leftpad width '0'

theorem ofDigitChars_padded (width n : Nat) : Nat.ofDigitChars 10 (padded width n) 0 = n := by
  rw [padded, List.leftpad, Nat.ofDigitChars_append, Nat.ofDigitChars_replicate_zero, Nat.mul_zero,
    Nat.ofDigitChars_ten_toDigits]

theorem padded_injective (width : Nat) : Function.Injective (padded width) := by
  intro m n h
  rw [← ofDigitChars_padded width m, h, ofDigitChars_padded]

theorem isDigit_of_mem_padded {width n : Nat} {c : Char} (h : c ∈ padded width n) :
    c.isDigit = true := by
  rw [padded, List.leftpad, List.mem_append, List.mem_replicate] at h
  rcases h with ⟨_, rfl⟩ | h
  · rfl
  · exact Nat.isDigit_of_mem_toDigits (by decide) (by decide) h

theorem length_padded {width n : Nat} (hw : 0 < width) (hn : n < 10 ^ width) :
    (padded width n).length = width := by
  have hl := (Nat.length_toDigits_le_iff (b := 10) (by decide) hw).mpr hn
  simp only [padded, List.leftpad, List.length_append, List.length_replicate]
  omega

theorem digit_bounds {c : Char} (h : c.isDigit = true) : 48 ≤ c.toNat ∧ c.toNat ≤ 57 := by
  simp only [Char.isDigit, Bool.and_eq_true, decide_eq_true_eq] at h
  exact h

theorem ofDigitChars_lt {l : List Char} (h : ∀ c ∈ l, c.isDigit = true) :
    Nat.ofDigitChars 10 l 0 < 10 ^ l.length := by
  induction l with
  | nil => simp
  | cons c cs ih =>
    have hc := digit_bounds (h c (by simp))
    have hcs := ih (fun x hx => h x (by simp [hx]))
    rw [Nat.ofDigitChars_cons, Nat.ofDigitChars_eq_ofDigitChars_zero, List.length_cons,
      Nat.pow_succ]
    have hd : 10 * 0 + (c.toNat - '0'.toNat) ≤ 9 := by
      change 10 * 0 + (c.toNat - 48) ≤ 9
      omega
    have := Nat.mul_le_mul_left (10 ^ cs.length) hd
    omega

theorem lt_of_ofDigitChars_lt {l m : List Char} (hl : ∀ c ∈ l, c.isDigit = true)
    (hm : ∀ c ∈ m, c.isDigit = true) (hlen : l.length = m.length)
    (h : Nat.ofDigitChars 10 l 0 < Nat.ofDigitChars 10 m 0) : l < m := by
  induction l generalizing m with
  | nil =>
    cases m with
    | nil => simp at h
    | cons d ds => simp at hlen
  | cons c cs ih =>
    cases m with
    | nil => simp at hlen
    | cons d ds =>
      have hlen' : cs.length = ds.length := by simpa using hlen
      have hc := digit_bounds (hl c (by simp))
      have hd := digit_bounds (hm d (by simp))
      have hcs : ∀ x ∈ cs, x.isDigit = true := fun x hx => hl x (by simp [hx])
      have hds : ∀ x ∈ ds, x.isDigit = true := fun x hx => hm x (by simp [hx])
      have hb := ofDigitChars_lt hds
      rw [Nat.ofDigitChars_cons, Nat.ofDigitChars_eq_ofDigitChars_zero, Nat.ofDigitChars_cons,
        Nat.ofDigitChars_eq_ofDigitChars_zero (l := ds), hlen'] at h
      change 10 ^ ds.length * (10 * 0 + (c.toNat - 48)) + _ <
        10 ^ ds.length * (10 * 0 + (d.toNat - 48)) + _ at h
      rw [List.cons_lt_cons_iff]
      rcases Nat.lt_trichotomy c.toNat d.toNat with hlt | heq | hgt
      · exact .inl hlt
      · refine .inr ⟨Char.toNat_inj.mp heq, ih hcs hds hlen' ?_⟩
        rw [heq] at h
        omega
      · have hle : 10 * 0 + (d.toNat - 48) + 1 ≤ 10 * 0 + (c.toNat - 48) := by omega
        have := Nat.mul_le_mul_left (10 ^ ds.length) hle
        rw [Nat.mul_add, Nat.mul_one] at this
        omega

theorem append_lt_append_iff {a b : List Char} (pre : List Char) :
    pre ++ a < pre ++ b ↔ a < b := by
  induction pre with
  | nil => exact Iff.rfl
  | cons c cs ih => simp [ih]

theorem append_lt_append_of_length_eq {a b : List Char} (hlen : a.length = b.length) (h : a < b)
    (x y : List Char) : a ++ x < b ++ y := by
  induction a generalizing b with
  | nil =>
    cases b with
    | nil => exact False.elim (lt_irrefl _ h)
    | cons d ds => simp at hlen
  | cons c cs ih =>
    cases b with
    | nil => simp at hlen
    | cons d ds =>
      rcases List.cons_lt_cons_iff.mp h with hlt | ⟨rfl, ht⟩
      · exact List.cons_lt_cons_iff.mpr (.inl hlt)
      · exact List.cons_lt_cons_iff.mpr (.inr ⟨rfl, ih (by simpa using hlen) ht⟩)

theorem ofDigitChars_append (l m : List Char) : Nat.ofDigitChars 10 (l ++ m) 0 =
    10 ^ m.length * Nat.ofDigitChars 10 l 0 + Nat.ofDigitChars 10 m 0 := by
  rw [Nat.ofDigitChars_append, Nat.ofDigitChars_eq_ofDigitChars_zero]

/-- The leading digits are the number without its last digits. -/
theorem ofDigitChars_eq_div {l m : List Char} (hm : ∀ c ∈ m, c.isDigit = true) :
    Nat.ofDigitChars 10 l 0 = Nat.ofDigitChars 10 (l ++ m) 0 / 10 ^ m.length := by
  rw [ofDigitChars_append, Nat.mul_add_div (Nat.pow_pos (by decide)),
    Nat.div_eq_of_lt (ofDigitChars_lt hm), Nat.add_zero]

theorem eq_of_ofDigitChars_eq {l m : List Char} (hl : ∀ c ∈ l, c.isDigit = true)
    (hm : ∀ c ∈ m, c.isDigit = true) (hlen : l.length = m.length)
    (h : Nat.ofDigitChars 10 l 0 = Nat.ofDigitChars 10 m 0) : l = m := by
  induction l using List.reverseRecOn generalizing m with
  | nil => exact (List.length_eq_zero_iff.mp hlen.symm).symm
  | append_singleton l c ih =>
    rcases List.eq_nil_or_concat' m with rfl | ⟨m, d, rfl⟩
    · simp at hlen
    have hc := digit_bounds (hl c (by simp))
    have hd := digit_bounds (hm d (by simp))
    have hone (x : Char) : Nat.ofDigitChars 10 [x] 0 = x.toNat - 48 := by
      rw [Nat.ofDigitChars_cons, Nat.ofDigitChars_nil, Nat.mul_zero, Nat.zero_add]
      rfl
    rw [ofDigitChars_append, ofDigitChars_append, hone, hone, List.length_singleton,
      List.length_singleton, Nat.pow_one] at h
    have hinit : l = m := by
      refine ih (fun x hx => hl x (by simp [hx])) (fun x hx => hm x (by simp [hx])) ?_ (by omega)
      simpa using hlen
    have hlast : c = d := Char.toNat_inj.mp (by omega)
    rw [hinit, hlast]

theorem length_padded_le {width i j : Nat} (hij : i ≤ j) :
    (padded width i).length ≤ (padded width j).length := by
  have hpos : 0 < (Nat.toDigits 10 j).length := Nat.length_toDigits_pos
  have hlt : j < 10 ^ (Nat.toDigits 10 j).length :=
    (Nat.length_toDigits_le_iff (by decide) hpos).mp le_rfl
  have hle : (Nat.toDigits 10 i).length ≤ (Nat.toDigits 10 j).length :=
    (Nat.length_toDigits_le_iff (by decide) hpos).mpr (hij.trans_lt hlt)
  simp only [padded, List.leftpad, List.length_append, List.length_replicate]
  omega

/-- How numerals of any width compare that are followed by a character before the digits. -/
theorem padded_append_lt_iff {width i j : Nat} {c : Char} (hc : c < '0') (x : List Char)
    (hij : i < j) :
    padded width i ++ c :: x < padded width j ++ c :: x ↔
      i ≤ j / 10 ^ ((padded width j).length - (padded width i).length) := by
  have hdigits (n : Nat) : ∀ c ∈ padded width n, c.isDigit = true :=
    fun _ => isDigit_of_mem_padded
  obtain ⟨front, back, hfront, hj⟩ : ∃ front back, front.length = (padded width i).length ∧
      padded width j = front ++ back :=
    ⟨_, _, List.length_take_of_le (length_padded_le hij.le), (List.take_append_drop _ _).symm⟩
  have hfd : ∀ c ∈ front, c.isDigit = true := fun c h => hdigits j c (hj ▸ List.mem_append_left _ h)
  have hbd : ∀ c ∈ back, c.isDigit = true := fun c h => hdigits j c (hj ▸ List.mem_append_right _ h)
  have hdiv : Nat.ofDigitChars 10 front 0 =
      j / 10 ^ ((padded width j).length - (padded width i).length) := by
    have hback : (padded width j).length - (padded width i).length = back.length := by
      rw [hj, List.length_append, hfront, Nat.add_sub_cancel_left]
    rw [hback, ofDigitChars_eq_div hbd, ← hj, ofDigitChars_padded]
  have hi := ofDigitChars_padded width i
  rw [← hdiv, hj, List.append_assoc]
  rcases Nat.lt_trichotomy i (Nat.ofDigitChars 10 front 0) with hlt | heq | hgt
  · refine iff_of_true ?_ hlt.le
    exact append_lt_append_of_length_eq hfront.symm
      (lt_of_ofDigitChars_lt (hdigits i) hfd hfront.symm (hi.trans_lt hlt)) _ _
  · refine iff_of_true ?_ heq.le
    have hsame : padded width i = front :=
      eq_of_ofDigitChars_eq (hdigits i) hfd hfront.symm (hi.trans heq)
    rw [hsame]
    rw [append_lt_append_iff]
    cases back with
    | nil =>
      rw [List.append_nil] at hj
      exact absurd (padded_injective width (hsame.trans hj.symm)) hij.ne
    | cons d back =>
      have hd := digit_bounds (hbd d List.mem_cons_self)
      exact List.cons_lt_cons_iff.mpr (.inl (hc.trans_le hd.1))
  · refine iff_of_false (lt_asymm ?_) (Nat.not_le.mpr hgt)
    exact append_lt_append_of_length_eq hfront
      (lt_of_ofDigitChars_lt hfd (hdigits i) hfront (hgt.trans_eq hi.symm)) _ _

end Decimal
