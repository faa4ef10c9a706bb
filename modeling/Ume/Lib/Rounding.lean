import Mathlib.Data.Nat.Log
import Mathlib.Tactic.Ring
import Ume.Lib.Binary64

/-! Rounding keeps the order and leaves a number alone that needs none, so a result lies
between any two doubles that the exact one lies between. `Within` says so of the positive
numbers, with the bounds counted in units. -/

namespace Binary64

section Round

variable {n d n' d' u : Nat}

theorem le_nearest (n d : Nat) : n / d ≤ nearest n d := by
  rw [nearest]
  split_ifs <;> omega

theorem div_le_div_of_ratio_le (hd : 0 < d) (hd' : 0 < d') (h : n * d' ≤ n' * d) :
    n / d ≤ n' / d' := by
  rw [Nat.le_div_iff_mul_le hd']
  refine Nat.le_of_mul_le_mul_right ?_ hd
  calc n / d * d' * d = n / d * d * d' := Nat.mul_right_comm _ _ _
    _ ≤ n * d' := Nat.mul_le_mul_right _ (Nat.div_mul_le_self n d)
    _ ≤ n' * d := h

theorem nearest_mono (hd : 0 < d) (hd' : 0 < d') (h : n * d' ≤ n' * d) :
    nearest n d ≤ nearest n' d' := by
  rcases (div_le_div_of_ratio_le hd hd' h).lt_or_eq with hlt | heq
  · exact (nearest_le_succ n d).trans (Nat.succ_le_of_lt hlt |>.trans (le_nearest n' d'))
  · have hrem : n % d * d' ≤ n' % d' * d := by
      have hn := congrArg (· * d') (Nat.div_add_mod n d)
      have hn' := congrArg (· * d) (Nat.div_add_mod n' d')
      have hcomm : d' * (n' / d') * d = d * (n / d) * d' := by rw [heq]; ring
      simp only [Nat.add_mul] at hn hn'
      omega
    have hdouble : 2 * (n % d) * d' ≤ 2 * (n' % d') * d := by
      rw [Nat.mul_assoc, Nat.mul_assoc]
      omega
    rw [nearest, nearest, heq]
    split_ifs with hdown hdown' hdown'
    · exact le_rfl
    · omega
    · refine absurd ?_ hdown
      rcases hdown' with hless | ⟨hhalf, heven⟩
      · have hlt := hdouble.trans_lt (Nat.mul_lt_mul_of_pos_right hless hd)
        rw [Nat.mul_comm d' d] at hlt
        exact .inl (Nat.lt_of_mul_lt_mul_right hlt)
      · rw [hhalf, Nat.mul_comm d' d] at hdouble
        rcases (Nat.le_of_mul_le_mul_right hdouble hd').lt_or_eq with hless | hhalf'
        · exact .inl hless
        · exact .inr ⟨hhalf', heven⟩
    · exact le_rfl

theorem excess_mono (h : n / d ≤ n' / d') : excess n d ≤ excess n' d' := by
  have hlog : Nat.log2 (n / d) ≤ Nat.log2 (n' / d') := by
    rw [Nat.log2_eq_log_two, Nat.log2_eq_log_two]
    exact Nat.log_mono_right h
  rw [excess, excess]
  omega

/-- A number that was cut has all 53 bits. -/
theorem le_round_of_excess (h : 0 < excess n d) : 2 ^ 52 * 2 ^ excess n d ≤ round n d := by
  refine Nat.mul_le_mul_right _ (le_trans ?_ (le_nearest n _))
  rw [← Nat.div_div_eq_div_mul, Nat.le_div_iff_mul_le (Nat.two_pow_pos _), ← Nat.pow_add]
  have hne : n / d ≠ 0 := by
    intro hz
    rw [excess, hz, Nat.log2_zero] at h
    omega
  refine (Nat.pow_le_pow_right Nat.two_pos ?_).trans (Nat.log2_self_le hne)
  rw [excess] at h ⊢
  omega

theorem round_mono (hd : 0 < d) (hd' : 0 < d') (h : n * d' ≤ n' * d) :
    round n d ≤ round n' d' := by
  rcases (excess_mono (div_le_div_of_ratio_le hd hd' h)).lt_or_eq with hlt | heq
  · calc round n d ≤ 2 ^ 53 * 2 ^ excess n d := Nat.mul_le_mul_right _ (nearest_excess_le n d)
      _ = 2 ^ 52 * 2 ^ (excess n d + 1) := by ring
      _ ≤ 2 ^ 52 * 2 ^ excess n' d' :=
        Nat.mul_le_mul_left _ (Nat.pow_le_pow_right Nat.two_pos hlt)
      _ ≤ round n' d' := le_round_of_excess (Nat.zero_lt_of_lt hlt)
  · rw [round, round, heq]
    refine Nat.mul_le_mul_right _ (nearest_mono ?_ ?_ ?_)
    · exact Nat.mul_pos hd (Nat.two_pow_pos _)
    · exact Nat.mul_pos hd' (Nat.two_pow_pos _)
    · calc n * (d' * 2 ^ excess n' d') = n * d' * 2 ^ excess n' d' := by ring
        _ ≤ n' * d * 2 ^ excess n' d' := Nat.mul_le_mul_right _ h
        _ = n' * (d * 2 ^ excess n' d') := by ring

theorem round_of_representable (hd : 0 < d) (hu : Representable u) : round (u * d) d = u := by
  obtain ⟨⟨s, k, hs, rfl⟩, -⟩ := hu
  have hdiv : s * 2 ^ k * d / d = s * 2 ^ k := Nat.mul_div_cancel _ hd
  have hle : excess (s * 2 ^ k * d) d ≤ k := by
    rw [excess, hdiv]
    by_cases hz : s * 2 ^ k = 0
    · rw [hz, Nat.log2_zero]
      omega
    · have hlt : s * 2 ^ k < 2 ^ (53 + k) := by
        rw [Nat.pow_add]
        exact Nat.mul_lt_mul_of_pos_right hs (Nat.two_pow_pos k)
      have := (Nat.log2_lt hz).mpr hlt
      omega
  obtain ⟨q, hq⟩ : 2 ^ excess (s * 2 ^ k * d) d ∣ s * 2 ^ k :=
    (Nat.pow_dvd_pow 2 hle).trans (Nat.dvd_mul_left _ _)
  have he : 0 < 2 ^ excess (s * 2 ^ k * d) d := Nat.two_pow_pos _
  rw [round]
  generalize 2 ^ excess (s * 2 ^ k * d) d = e at hq he
  have hmul : s * 2 ^ k * d = q * (d * e) := by rw [hq]; ring
  have hpos : 0 < d * e := Nat.mul_pos hd he
  rw [hmul, nearest, Nat.mul_mod_left, Nat.mul_div_cancel _ hpos, if_pos (.inl (by omega)), hq,
    Nat.mul_comm]

theorem round_le_of_le (hd : 0 < d) (hu : Representable u) (h : n ≤ u * d) : round n d ≤ u := by
  rw [← round_of_representable hd hu]
  exact round_mono hd hd (Nat.mul_le_mul_right _ h)

theorem le_round_of_le (hd : 0 < d) (hu : Representable u) (h : u * d ≤ n) : u ≤ round n d := by
  rw [← round_of_representable hd hu]
  exact round_mono hd hd (Nat.mul_le_mul_right _ h)

theorem nearest_error (hd : 0 < d) :
    2 * n ≤ 2 * (d * nearest n d) + d ∧ 2 * (d * nearest n d) ≤ 2 * n + d := by
  have hn := Nat.div_add_mod n d
  have hlt := Nat.mod_lt n hd
  rw [nearest]
  split_ifs with hdown
  · omega
  · rw [Nat.mul_succ]
    omega

/-- The error is half a unit, or less than a part in 2 to the power of 53. -/
theorem round_error (hd : 0 < d) :
    2 ^ 53 * n ≤ 2 ^ 53 * (d * round n d) + n + 2 ^ 52 * d ∧
      2 ^ 53 * (d * round n d) ≤ 2 ^ 53 * n + n + 2 ^ 52 * d := by
  have herror := nearest_error (n := n) (Nat.mul_pos hd (Nat.two_pow_pos (excess n d)))
  have hround : d * 2 ^ excess n d * nearest n (d * 2 ^ excess n d) = d * round n d := by
    rw [round]
    ring
  have hcut : 2 ^ 52 * (d * 2 ^ excess n d) ≤ n + 2 ^ 52 * d := by
    by_cases hz : excess n d = 0
    · rw [hz]
      omega
    · have hne : n / d ≠ 0 := by
        intro h0
        rw [excess, h0, Nat.log2_zero] at hz
        omega
      have hlog : 2 ^ (52 + excess n d) ≤ n / d := by
        refine (Nat.pow_le_pow_right Nat.two_pos ?_).trans (Nat.log2_self_le hne)
        rw [excess] at hz ⊢
        omega
      have hle := (Nat.le_div_iff_mul_le hd).mp hlog
      have hcomm : 2 ^ 52 * (d * 2 ^ excess n d) = 2 ^ (52 + excess n d) * d := by ring
      omega
  rw [hround] at herror
  omega

end Round

theorem representable_mul_one {n : Nat} (h : n < 2 ^ 53) : Representable (n * one) :=
  ⟨⟨n, 1074, h, rfl⟩, (Nat.mul_le_mul_right one h.le).trans (by decide +kernel)⟩

theorem representable_one : Representable one :=
  (Nat.one_mul one) ▸ representable_mul_one (show 1 < 2 ^ 53 by decide)

theorem representable_zero : Representable 0 := ⟨⟨0, 0, by decide, rfl⟩, Nat.zero_le _⟩

/-- A finite number that is not negative, of so many units. -/
def Within (lo hi : Nat) (x : Binary64) : Prop :=
  ∃ u h, x = .finite false u h ∧ lo ≤ u ∧ u ≤ hi

theorem within_ofRatio {lo hi n d : Nat} (hd : 0 < d) (hlo : Representable lo)
    (hhi : Representable hi) (hl : lo * d ≤ n) (hh : n ≤ hi * d) :
    Within lo hi (ofRatio false n d) := by
  have hle := round_le_of_le hd hhi hh
  exact ⟨_, _, dif_pos (hle.trans hhi.2), le_round_of_le hd hlo hl, hle⟩

/-- The same with bounds that are rounded with it. -/
theorem within_ofRatio_round {n₁ n n₂ d : Nat} (hd : 0 < d) (h₁ : n₁ ≤ n) (h₂ : n ≤ n₂)
    (hmax : round n₂ d ≤ maxUnits) : Within (round n₁ d) (round n₂ d) (ofRatio false n d) := by
  have hlow := round_mono hd hd (Nat.mul_le_mul_right d h₁)
  have hhigh := round_mono hd hd (Nat.mul_le_mul_right d h₂)
  exact ⟨_, _, dif_pos (hhigh.trans hmax), hlow, hhigh⟩

theorem exists_ofDecimal {n digits : Nat} (h : round (n * one) (10 ^ digits) ≤ maxUnits) :
    ∃ hr, ofDecimal n digits = .finite false (round (n * one) (10 ^ digits)) hr :=
  ⟨representable_round h, dif_pos h⟩

theorem within_ofDecimal {n digits : Nat} (h : round (n * one) (10 ^ digits) ≤ maxUnits) :
    Within (round (n * one) (10 ^ digits)) (round (n * one) (10 ^ digits))
      (ofDecimal n digits) := by
  obtain ⟨hr, heq⟩ := exists_ofDecimal h
  exact ⟨_, hr, heq, le_rfl, le_rfl⟩

/-- Numbers nearest to two ratios are in their order. -/
theorem not_lt_ofRatio {n d n' d' : Nat} (hd : 0 < d) (hd' : 0 < d') (h : n' * d ≤ n * d') :
    lt (ofRatio false n d) (ofRatio false n' d') = false := by
  have hle := round_mono hd' hd h
  rw [ofRatio, ofRatio]
  split_ifs with hr hr'
  · simpa [lt, signed] using hle
  · omega
  · rfl
  · rfl

theorem within_ofNat {n : Nat} (h : n < 2 ^ 53) : Within (n * one) (n * one) (ofNat n) :=
  within_ofRatio Nat.one_pos (representable_mul_one h) (representable_mul_one h)
    (Nat.mul_one _).le (Nat.mul_one _).ge

theorem within_one : Within one one (ofNat 1) :=
  (Nat.one_mul one) ▸ within_ofNat (show 1 < 2 ^ 53 by decide)

theorem within_ofNat_zero : Within 0 0 (ofNat 0) := by
  simpa only [Nat.zero_mul] using within_ofNat (show 0 < 2 ^ 53 by decide)

theorem sub_finite {u v : Nat} (hu : Representable u) (hv : Representable v) (h : v ≤ u) :
    sub (.finite false u hu) (.finite false v hv) = ofRatio false (u - v) 1 := by
  have hneg : ¬((u : Int) + -v < 0) := by omega
  have habs : ((u : Int) + -v).natAbs = u - v := by omega
  simp only [sub, neg, add, signed, Bool.not_false, Bool.false_eq_true, if_false, if_true,
    Bool.and_true, hneg, decide_false, habs]
  split_ifs with hzero
  · rw [show u - v = 0 by omega]
  · rfl

section Within

variable {x y : Binary64} {a b c d lo hi : Nat}

theorem Within.mono (h : Within a b x) (hlo : lo ≤ a) (hhi : b ≤ hi) : Within lo hi x := by
  obtain ⟨u, hu, rfl, ha, hb⟩ := h
  exact ⟨u, hu, rfl, hlo.trans ha, hb.trans hhi⟩

theorem Within.lt_of_lt (hx : Within a b x) (hy : Within c d y) (h : b < c) :
    lt x y = true := by
  obtain ⟨u, hu, rfl, -, hb⟩ := hx
  obtain ⟨v, hv, rfl, hc, -⟩ := hy
  have : u < v := by omega
  simpa [Binary64.lt, signed] using this

theorem Within.not_lt_of_le (hx : Within a b x) (hy : Within c d y) (h : d ≤ a) :
    lt x y = false := by
  obtain ⟨u, hu, rfl, ha, -⟩ := hx
  obtain ⟨v, hv, rfl, -, hd⟩ := hy
  have : v ≤ u := by omega
  simpa [Binary64.lt, signed] using this

theorem Within.le_of_not_lt (hx : Within a b x) (hy : Within c d y) (h : lt x y = false) :
    Within c b x := by
  obtain ⟨u, hu, rfl, -, hb⟩ := hx
  obtain ⟨v, hv, rfl, hc, -⟩ := hy
  have : v ≤ u := by simpa [Binary64.lt, signed] using h
  exact ⟨u, hu, rfl, hc.trans this, hb⟩

theorem Within.add (hx : Within a b x) (hy : Within c d y) (hlo : Representable lo)
    (hhi : Representable hi) (hl : lo ≤ a + c) (hh : b + d ≤ hi) : Within lo hi (add x y) := by
  obtain ⟨u, hu, rfl, ha, hb⟩ := hx
  obtain ⟨v, hv, rfl, hc, hd⟩ := hy
  rw [add_finite]
  exact within_ofRatio Nat.one_pos hlo hhi (by omega) (by omega)

theorem Within.add_round (hx : Within a b x) (hy : Within c d y)
    (hmax : round (b + d) 1 ≤ maxUnits) :
    Within (round (a + c) 1) (round (b + d) 1) (Binary64.add x y) := by
  obtain ⟨u, hu, rfl, ha, hb⟩ := hx
  obtain ⟨v, hv, rfl, hc, hd⟩ := hy
  rw [add_finite]
  exact within_ofRatio_round Nat.one_pos (by omega) (by omega) hmax

theorem Within.mul (hx : Within a b x) (hy : Within c d y) (hlo : Representable lo)
    (hhi : Representable hi) (hl : lo * one ≤ a * c) (hh : b * d ≤ hi * one) :
    Within lo hi (mul x y) := by
  obtain ⟨u, hu, rfl, ha, hb⟩ := hx
  obtain ⟨v, hv, rfl, hc, hd⟩ := hy
  exact within_ofRatio one_pos hlo hhi (hl.trans (Nat.mul_le_mul ha hc))
    ((Nat.mul_le_mul hb hd).trans hh)

theorem Within.min (hx : Within a b x) (hy : Within c d y) :
    Within (Nat.min a c) (Nat.min b d) (min x y) := by
  rw [Binary64.min]
  by_cases hlt : Binary64.lt y x = true
  · rw [if_pos hlt]
    obtain ⟨u, hu, rfl, ha, hb⟩ := hx
    obtain ⟨v, hv, rfl, hc, hd⟩ := hy
    have hvu : v < u := by simpa [Binary64.lt, signed] using hlt
    exact ⟨v, hv, rfl, (Nat.min_le_right a c).trans hc, Nat.le_min.mpr ⟨by omega, hd⟩⟩
  · rw [if_neg hlt]
    obtain ⟨u, hu, rfl, ha, hb⟩ := hx
    obtain ⟨v, hv, rfl, hc, hd⟩ := hy
    have huv : u ≤ v := by simpa [Binary64.lt, signed] using hlt
    exact ⟨u, hu, rfl, (Nat.min_le_left a c).trans ha, Nat.le_min.mpr ⟨hb, by omega⟩⟩

theorem Within.exists_eq (hx : Within a a x) : ∃ h, x = .finite false a h := by
  obtain ⟨u, hu, rfl, hau, hua⟩ := hx
  obtain rfl : u = a := by omega
  exact ⟨hu, rfl⟩

theorem Within.eq (hx : Within a a x) (hy : Within a a y) : x = y := by
  obtain ⟨hu, rfl⟩ := hx.exists_eq
  obtain ⟨hv, rfl⟩ := hy.exists_eq
  rfl

theorem exists_ofNat_zero : ∃ h, ofNat 0 = .finite false 0 h := within_ofNat_zero.exists_eq

theorem lt_zero_ofRatio_true (n d : Nat) : lt (ofNat 0) (ofRatio true n d) = false := by
  obtain ⟨hz, h0⟩ := exists_ofNat_zero
  rw [h0, ofRatio]
  split_ifs
  · simp [lt, signed]
  · rfl

theorem max_zero_of_not_lt (h : lt (ofNat 0) x = false) : max (ofNat 0) x = ofNat 0 := by
  rw [max, h, if_neg Bool.false_ne_true]

theorem Within.max_zero (hx : Within lo hi x) : Within lo hi (max (ofNat 0) x) := by
  by_cases hlt : lt (ofNat 0) x = true
  · rwa [max, if_pos hlt]
  · obtain ⟨hz, h0⟩ := exists_ofNat_zero
    rw [max_zero_of_not_lt (Bool.eq_false_iff.mpr hlt), h0]
    obtain ⟨u, hu, rfl, hl, -⟩ := hx
    have hu0 : u = 0 := by simpa [h0, lt, signed] using hlt
    exact ⟨0, hz, rfl, by omega, Nat.zero_le _⟩

/-- A difference that is cut off at zero. -/
theorem Within.max_zero_sub (hx : Within a b x) (hy : Within c d y) (hlo : Representable lo)
    (hhi : Representable hi) (hl : lo ≤ a - d) (hh : b - c ≤ hi) :
    Within lo hi (max (ofNat 0) (sub x y)) := by
  obtain ⟨u, hu, rfl, ha, hb⟩ := hx
  obtain ⟨v, hv, rfl, hc, hd⟩ := hy
  by_cases hle : v ≤ u
  · rw [sub_finite hu hv hle]
    exact (within_ofRatio Nat.one_pos hlo hhi (by omega) (by omega)).max_zero
  · have hneg : (u : Int) + -v < 0 := by omega
    have hsub : sub (.finite false u hu) (.finite false v hv) =
        ofRatio true ((u : Int) + -v).natAbs 1 := by
      simp [sub, neg, Binary64.add, signed, hneg, hneg.ne]
    obtain ⟨hz, h0⟩ := exists_ofNat_zero
    rw [hsub, max_zero_of_not_lt (lt_zero_ofRatio_true _ _)]
    exact ⟨0, hz, h0, by omega, Nat.zero_le _⟩

/-- A positive number of so many units, which may be infinite. -/
def AtLeast (lo : Nat) (x : Binary64) : Prop :=
  x = .infinite false ∨ ∃ u h, x = .finite false u h ∧ lo ≤ u

theorem Within.atLeast_add (hx : Within a b x) (hy : Within c d y) (hlo : Representable lo)
    (hl : lo ≤ a + c) : AtLeast lo (Binary64.add x y) := by
  obtain ⟨u, hu, rfl, ha, -⟩ := hx
  obtain ⟨v, hv, rfl, hc, -⟩ := hy
  rw [add_finite, ofRatio]
  split_ifs
  · exact .inr ⟨_, _, rfl, le_round_of_le Nat.one_pos hlo (by omega)⟩
  · exact .inl rfl

theorem AtLeast.add (hx : AtLeast lo x) (hy : Within c d y) (hlo : Representable lo) :
    AtLeast lo (Binary64.add x y) := by
  rcases hx with rfl | ⟨u, hu, rfl, hl⟩
  · obtain ⟨v, hv, rfl, -, -⟩ := hy
    exact .inl rfl
  · exact Within.atLeast_add ⟨u, hu, rfl, le_rfl, le_rfl⟩ hy hlo (by omega)

theorem Within.max_zero_sub_atLeast (hx : Within a b x) (hy : AtLeast b y) :
    Binary64.max (ofNat 0) (sub x y) = ofNat 0 := by
  rcases hy with rfl | ⟨v, hv, rfl, hb⟩
  · obtain ⟨hz, h0⟩ := exists_ofNat_zero
    obtain ⟨u, hu, rfl, -, -⟩ := hx
    refine max_zero_of_not_lt ?_
    rw [h0]
    rfl
  · exact (hx.max_zero_sub ⟨v, hv, rfl, hb, le_rfl⟩ representable_zero representable_zero
      (Nat.zero_le _) (by omega)).eq within_ofNat_zero

/-- What is taken away may be any number, or none, that is not below a bound. -/
theorem Within.max_zero_sub_round {z : Binary64} (hx : Within 0 b x) (hb : Representable b)
    (hy : lt y z = false) (hz : Within d d z) :
    Within 0 (round (b - d) 1) (max (ofNat 0) (sub x y)) := by
  have hmax : round (b - d) 1 ≤ maxUnits :=
    (round_le_of_le Nat.one_pos hb (by omega)).trans hb.2
  obtain ⟨h0, hzero⟩ := exists_ofNat_zero
  have hnone : Within 0 (round (b - d) 1) (ofNat 0) := ⟨0, h0, hzero, le_rfl, Nat.zero_le _⟩
  obtain ⟨u, hu, rfl, -, hub⟩ := hx
  obtain ⟨hd, rfl⟩ := hz.exists_eq
  have hdiff {n : Nat} (hn : n ≤ b - d) :
      Within 0 (round (b - d) 1) (max (ofNat 0) (ofRatio false n 1)) :=
    ((within_ofRatio_round Nat.one_pos (Nat.zero_le n) hn hmax).mono (Nat.zero_le _)
      le_rfl).max_zero
  cases y with
  | nan =>
    rw [max_zero_of_not_lt ?_]
    · exact hnone
    · rw [hzero]
      rfl
  | infinite s =>
    obtain rfl : s = false := hy
    rw [max_zero_of_not_lt ?_]
    · exact hnone
    · rw [hzero]
      rfl
  | finite s v hv =>
    cases s with
    | false =>
      have hdv : d ≤ v := by simpa [lt, signed] using hy
      by_cases hle : v ≤ u
      · rw [sub_finite hu hv hle]
        exact hdiff (by omega)
      · have hself : Within u u (.finite false u hu) := ⟨u, hu, rfl, le_rfl, le_rfl⟩
        rw [hself.max_zero_sub_atLeast (.inr ⟨v, hv, rfl, by omega⟩)]
        exact hnone
    | true =>
      have hsum : d = 0 ∧ v = 0 := by
        simp only [lt, signed, if_true, Bool.false_eq_true, if_false, decide_eq_false_iff_not] at hy
        omega
      obtain ⟨rfl, rfl⟩ := hsum
      have hsub : sub (.finite false u hu) (.finite true 0 hv) = ofRatio false (u + 0) 1 :=
        add_finite hu hv
      rw [hsub]
      exact hdiff (by omega)

/-- What is taken away may be any number, or none, that is not negative. -/
theorem Within.max_zero_sub_le (hx : Within 0 b x) (hb : Representable b)
    (hy : lt y (ofNat 0) = false) : Within 0 b (max (ofNat 0) (sub x y)) := by
  have hround := hx.max_zero_sub_round hb hy within_ofNat_zero
  have hexact := round_of_representable Nat.one_pos hb
  rw [Nat.mul_one] at hexact
  rwa [Nat.sub_zero, hexact] at hround

theorem Within.not_neg_mul (hx : Within a b x) (hy : lt y (ofNat 0) = false) :
    lt (Binary64.mul x y) (ofNat 0) = false := by
  obtain ⟨u, hu, rfl, -, -⟩ := hx
  obtain ⟨hz, h0⟩ := exists_ofNat_zero
  rw [h0] at hy ⊢
  cases y with
  | nan => rfl
  | infinite s =>
    obtain rfl : s = false := hy
    rw [Binary64.mul]
    split_ifs <;> rfl
  | finite s v hv =>
    cases s with
    | false =>
      rw [Binary64.mul, Bool.xor_self, ofRatio]
      split_ifs
      · simp [lt, signed]
      · rfl
    | true =>
      have hv0 : v = 0 := by simpa [lt, signed] using hy
      subst hv0
      have hround : round 0 one = 0 := by
        have := round_of_representable one_pos representable_zero
        rwa [Nat.zero_mul] at this
      simp [Binary64.mul, ofRatio, hround, lt, signed]

end Within

end Binary64
