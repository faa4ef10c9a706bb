import Mathlib.Algebra.CharP.Two
import Mathlib.Algebra.Field.ZMod
import Mathlib.Algebra.Polynomial.FieldDivision
import Mathlib.Tactic.LinearCombination

/-! Cyclic redundancy checks with a reflected register, and the remainders of
polynomials over the field with two elements that they compute. The bit `i` of a
register of width `w` stands for the power `w - 1 - i`. -/

namespace Crc

open Polynomial

variable {w : Nat}

def bitStep (gen r : BitVec w) (b : Bool) : BitVec w :=
  if r.getLsbD 0 ^^ b then (r >>> 1) ^^^ gen else r >>> 1

def run (gen r : BitVec w) (bits : List Bool) : BitVec w := bits.foldl (bitStep gen) r

/-- The bits of a byte, the lowest first. -/
def byteBits (b : UInt8) : List Bool := (List.range 8).map b.toBitVec.getLsbD

def dataBits (data : List UInt8) : List Bool := data.flatMap byteBits

@[simp] theorem length_byteBits (b : UInt8) : (byteBits b).length = 8 := by simp [byteBits]

theorem length_dataBits (data : List UInt8) : (dataBits data).length = 8 * data.length := by
  induction data with
  | nil => rfl
  | cons b data ih =>
    rw [dataBits, List.flatMap_cons, List.length_append, length_byteBits, ← dataBits, ih,
      List.length_cons]
    ring

theorem byteBits_injective : Function.Injective byteBits := by
  intro b b' h
  rw [byteBits, byteBits, List.map_inj_left] at h
  apply UInt8.toBitVec_inj.mp
  apply BitVec.eq_of_getLsbD_eq
  intro i hi
  exact h i (List.mem_range.mpr hi)

theorem dataBits_append (data data' : List UInt8) :
    dataBits (data ++ data') = dataBits data ++ dataBits data' :=
  List.flatMap_append

theorem dataBits_injective : Function.Injective dataBits := by
  intro data data' h
  induction data generalizing data' with
  | nil =>
    cases data' with
    | nil => rfl
    | cons b data' =>
      have hlen := congrArg List.length h
      simp only [length_dataBits, List.length_cons, List.length_nil] at hlen
      omega
  | cons b data ih =>
    cases data' with
    | nil =>
      have hlen := congrArg List.length h
      simp only [length_dataBits, List.length_cons, List.length_nil] at hlen
      omega
    | cons b' data' =>
      obtain ⟨hb, hd⟩ := List.append_inj h (by simp)
      rw [byteBits_injective hb, ih hd]

/-! ### Linearity, and the step by a table -/

theorem bitStep_eq (gen r : BitVec w) (b : Bool) :
    bitStep gen r b = (r >>> 1) ^^^ if r.getLsbD 0 ^^ b then gen else 0 := by
  rw [bitStep]
  split_ifs
  · rfl
  · exact BitVec.xor_zero.symm

theorem bitStep_xor (gen r r' : BitVec w) (b b' : Bool) :
    bitStep gen (r ^^^ r') (b ^^ b') = bitStep gen r b ^^^ bitStep gen r' b' := by
  have hbit : ((r ^^^ r').getLsbD 0 ^^ (b ^^ b')) =
      ((r.getLsbD 0 ^^ b) ^^ (r'.getLsbD 0 ^^ b')) := by
    rw [BitVec.getLsbD_xor]
    cases r.getLsbD 0 <;> cases b <;> simp
  have hgen (c c' : Bool) : (if c ^^ c' then gen else 0) =
      (if c then gen else 0) ^^^ (if c' then gen else 0) := by
    cases c <;> cases c' <;> simp
  rw [bitStep_eq, bitStep_eq, bitStep_eq, hbit, hgen, BitVec.ushiftRight_xor_distrib]
  ac_rfl

theorem run_zipWith_xor (gen r r' : BitVec w) {bs bs' : List Bool}
    (h : bs.length = bs'.length) :
    run gen (r ^^^ r') (List.zipWith Bool.xor bs bs') = run gen r bs ^^^ run gen r' bs' := by
  induction bs generalizing r r' bs' with
  | nil =>
    cases bs' with
    | nil => rfl
    | cons => cases h
  | cons b bs ih =>
    cases bs' with
    | nil => cases h
    | cons b' bs' =>
      have hih := ih (bitStep gen r b) (bitStep gen r' b') (Nat.succ.inj h)
      rw [← bitStep_xor] at hih
      exact hih

/-- The bits that are in the register act as if they came in, one after the other,
to a register of zeros. -/
theorem run_replicate_false (gen r : BitVec w) (k : Nat) :
    run gen r (List.replicate k false) =
      (r >>> k) ^^^ run gen 0#w ((List.range k).map r.getLsbD) := by
  induction k with
  | zero => simp [run]
  | succ k ih =>
    have hlow : (r >>> k).getLsbD 0 = r.getLsbD k := by
      rw [BitVec.getLsbD_ushiftRight, Nat.add_zero]
    have hzero : bitStep gen 0#w (r.getLsbD k) = if r.getLsbD k then gen else 0 := by
      rw [bitStep_eq, BitVec.zero_ushiftRight, BitVec.zero_xor, BitVec.getLsbD_zero,
        Bool.false_xor]
    generalize hfed : run gen 0#w ((List.range k).map r.getLsbD) = fed at ih
    have hleft : run gen r (List.replicate (k + 1) false) =
        bitStep gen ((r >>> k) ^^^ fed) false := by
      rw [← ih, run, run, List.replicate_succ', List.foldl_append]
      rfl
    have hright : run gen 0#w ((List.range (k + 1)).map r.getLsbD) =
        bitStep gen (fed ^^^ 0#w) (false ^^ r.getLsbD k) := by
      rw [← hfed, BitVec.xor_zero, Bool.false_xor, run, run, List.range_succ, List.map_append,
        List.foldl_append]
      rfl
    have hshift : bitStep gen ((r >>> k) ^^^ fed) false =
        bitStep gen (r >>> k) false ^^^ bitStep gen fed false := bitStep_xor gen _ _ false false
    rw [hleft, hshift, hright, bitStep_xor, bitStep_eq gen (r >>> k), hlow, Bool.xor_false, hzero,
      BitVec.shiftRight_add]
    ac_rfl

/-- The lowest byte of a register. -/
def lowByte (r : BitVec w) : UInt8 := ⟨r.setWidth 8⟩

theorem byteBits_lowByte (r : BitVec w) : byteBits (lowByte r) = (List.range 8).map r.getLsbD := by
  rw [byteBits, List.map_inj_left]
  intro i hi
  simp [lowByte, List.mem_range.mp hi]

theorem byteBits_xor (b b' : UInt8) :
    byteBits (b ^^^ b') = List.zipWith Bool.xor (byteBits b) (byteBits b') := by
  simp [byteBits, List.zipWith_map]

/-- A byte is taken in by a shift and a table with an entry for each byte. -/
theorem run_byteBits (gen r : BitVec w) (b : UInt8) :
    run gen r (byteBits b) = (r >>> 8) ^^^ run gen 0#w (byteBits (lowByte r ^^^ b)) := by
  have hxor (r' : BitVec w) (c : UInt8) : run gen r' (byteBits (c ^^^ b)) =
      run gen r' (byteBits c) ^^^ run gen 0#w (byteBits b) := by
    rw [byteBits_xor, ← run_zipWith_xor _ _ _ (by simp), BitVec.xor_zero]
  have hshift : run gen r (byteBits 0) = (r >>> 8) ^^^ run gen 0#w (byteBits (lowByte r)) := by
    rw [byteBits_lowByte]
    exact run_replicate_false gen r 8
  rw [hxor, ← BitVec.xor_assoc, ← hshift, ← hxor, UInt8.zero_xor]

/-! ### Polynomials -/

noncomputable def bit (b : Bool) : (ZMod 2)[X] := if b then 1 else 0

theorem bit_xor (b b' : Bool) : bit (b ^^ b') = bit b + bit b' := by
  cases b <;> cases b' <;> simp [bit, CharTwo.add_self_eq_zero]

noncomputable def poly (r : BitVec w) : (ZMod 2)[X] :=
  ∑ i ∈ Finset.range w, bit (r.getLsbD i) * X ^ (w - 1 - i)

/-- The first bit of a message is its highest coefficient. -/
noncomputable def message : List Bool → (ZMod 2)[X]
  | [] => 0
  | b :: bs => bit b * X ^ bs.length + message bs

/-- The polynomial that a register divides by: its leading term is implicit. -/
noncomputable def generator (gen : BitVec w) : (ZMod 2)[X] := X ^ w + poly gen

theorem poly_xor (r r' : BitVec w) : poly (r ^^^ r') = poly r + poly r' := by
  simp only [poly, BitVec.getLsbD_xor, bit_xor, add_mul, Finset.sum_add_distrib]

theorem poly_zero : poly 0#w = 0 := by
  simp [poly, bit]

theorem poly_ushiftRight_one (hw : 0 < w) (r : BitVec w) :
    poly (r >>> 1) = X * poly r + bit (r.getLsbD 0) * X ^ w := by
  obtain ⟨n, rfl⟩ : ∃ n, w = n + 1 := ⟨w - 1, by omega⟩
  have hshift : poly (r >>> 1) = ∑ i ∈ Finset.range n, bit (r.getLsbD (i + 1)) * X ^ (n - i) := by
    rw [poly, Finset.sum_range_succ]
    have hlast : (r >>> 1).getLsbD n = false := by
      rw [BitVec.getLsbD_ushiftRight]
      exact BitVec.getLsbD_of_ge r _ (by omega)
    rw [hlast]
    simp [bit, Nat.add_comm 1]
  have hmul : X * poly r = (∑ i ∈ Finset.range n, bit (r.getLsbD (i + 1)) * X ^ (n - i)) +
      bit (r.getLsbD 0) * X ^ (n + 1) := by
    have hterm : ∀ i ∈ Finset.range n, X * (bit (r.getLsbD (i + 1)) * X ^ (n + 1 - 1 - (i + 1))) =
        bit (r.getLsbD (i + 1)) * X ^ (n - i) := by
      intro i hi
      have hi := Finset.mem_range.mp hi
      rw [show n - i = (n + 1 - 1 - (i + 1)) + 1 by omega, pow_succ]
      ring
    rw [poly, Finset.mul_sum, Finset.sum_range_succ', Finset.sum_congr rfl hterm,
      Nat.add_sub_cancel, Nat.sub_zero, pow_succ]
    ring
  rw [hshift, hmul, add_assoc, CharTwo.add_self_eq_zero, add_zero]

theorem poly_bitStep (hw : 0 < w) (gen r : BitVec w) (b : Bool) :
    poly (bitStep gen r b) =
      X * poly r + bit b * X ^ w + bit (r.getLsbD 0 ^^ b) * generator gen := by
  have hgen : poly (if r.getLsbD 0 ^^ b then gen else 0) = bit (r.getLsbD 0 ^^ b) * poly gen := by
    cases r.getLsbD 0 ^^ b
    · simp [bit, poly_zero]
    · simp [bit]
  rw [bitStep_eq, poly_xor, hgen, poly_ushiftRight_one hw, generator, mul_add, bit_xor]
  have htwo : bit b * X ^ w + bit b * X ^ w = 0 := CharTwo.add_self_eq_zero _
  linear_combination -htwo

/-- A register holds, up to a multiple of the generator, what was in it before and the
message that came in. -/
theorem generator_dvd_poly_run (hw : 0 < w) (gen r : BitVec w) (bits : List Bool) :
    generator gen ∣
      poly (run gen r bits) + (X ^ bits.length * poly r + X ^ w * message bits) := by
  induction bits generalizing r with
  | nil =>
    rw [run, List.foldl_nil, List.length_nil, pow_zero, one_mul, message, mul_zero, add_zero,
      CharTwo.add_self_eq_zero]
    exact dvd_zero _
  | cons b bits ih =>
    obtain ⟨q, hq⟩ := ih (bitStep gen r b)
    rw [poly_bitStep hw] at hq
    refine ⟨q + X ^ bits.length * bit (r.getLsbD 0 ^^ b), ?_⟩
    have hrun : run gen r (b :: bits) = run gen (bitStep gen r b) bits := rfl
    have htwo : X ^ bits.length * bit (r.getLsbD 0 ^^ b) * generator gen +
        X ^ bits.length * bit (r.getLsbD 0 ^^ b) * generator gen = 0 := CharTwo.add_self_eq_zero _
    rw [hrun, message, List.length_cons, pow_succ]
    linear_combination hq - htwo

theorem coeff_poly (r : BitVec w) {j : Nat} (hj : j < w) :
    (poly r).coeff j = if r.getLsbD (w - 1 - j) then 1 else 0 := by
  rw [poly, finsetSum_coeff, Finset.sum_eq_single (w - 1 - j)]
  · rw [show w - 1 - (w - 1 - j) = j by omega]
    cases r.getLsbD (w - 1 - j) <;> simp [bit]
  · intro i hi hne
    have hi := Finset.mem_range.mp hi
    have hne' : j ≠ w - 1 - i := by omega
    cases r.getLsbD i <;> simp [bit, coeff_X_pow, hne']
  · intro h
    exact absurd (Finset.mem_range.mpr (by omega)) h

theorem poly_injective : Function.Injective (poly : BitVec w → (ZMod 2)[X]) := by
  intro r r' h
  apply BitVec.eq_of_getLsbD_eq
  intro i hi
  have hc := congrArg (fun p => p.coeff (w - 1 - i)) h
  simp only [coeff_poly _ (show w - 1 - i < w by omega),
    show w - 1 - (w - 1 - i) = i by omega] at hc
  cases hr : r.getLsbD i <;> cases hr' : r'.getLsbD i <;> simp [hr, hr'] at hc ⊢

theorem degree_poly_lt (r : BitVec w) : (poly r).degree < w := by
  rw [degree_lt_iff_coeff_zero]
  intro j hj
  rw [poly, finsetSum_coeff]
  refine Finset.sum_eq_zero fun i hi => ?_
  have hne : j ≠ w - 1 - i := by
    have := Finset.mem_range.mp hi
    omega
  cases r.getLsbD i <;> simp [bit, coeff_X_pow, hne]

theorem degree_generator (gen : BitVec w) : (generator gen).degree = w := by
  rw [generator, degree_add_eq_left_of_degree_lt, degree_X_pow]
  rw [degree_X_pow]
  exact degree_poly_lt gen

theorem monic_generator (gen : BitVec w) : (generator gen).Monic :=
  monic_X_pow_add (degree_poly_lt gen)

/-- What a register is to hold when its content and a message have come in. -/
noncomputable def dividend (r : BitVec w) (bits : List Bool) : (ZMod 2)[X] :=
  X ^ bits.length * poly r + X ^ w * message bits

theorem modByMonic_eq_of_degree_lt {p q r : (ZMod 2)[X]} (hq : q.Monic) (hr : r.degree < q.degree)
    (hdvd : q ∣ r - p) : p %ₘ q = r := by
  rw [← modByMonic_eq_of_dvd_sub hq hdvd]
  exact (modByMonic_eq_self_iff hq).mpr hr

/-- A register holds the remainder of the division by its generator. -/
theorem poly_run (hw : 0 < w) (gen r : BitVec w) (bits : List Bool) :
    poly (run gen r bits) = dividend r bits %ₘ generator gen := by
  refine (modByMonic_eq_of_degree_lt (monic_generator gen) ?_ ?_).symm
  · rw [degree_generator]
    exact degree_poly_lt _
  · rw [CharTwo.sub_eq_add]
    exact generator_dvd_poly_run hw gen r bits

/-- Two registers that divide by coprime generators agree exactly if the remainder of
the division by the product of both is short enough to be theirs. -/
theorem run_eq_run_iff (hw : 0 < w) {gen gen' : BitVec w}
    (hcop : IsCoprime (generator gen) (generator gen')) (r : BitVec w) (bits : List Bool) :
    run gen r bits = run gen' r bits ↔
      (dividend r bits %ₘ (generator gen * generator gen')).degree < w := by
  have hmonic : (generator gen * generator gen').Monic :=
    (monic_generator gen).mul (monic_generator gen')
  rw [← poly_injective.eq_iff, poly_run hw, poly_run hw]
  generalize dividend r bits = p
  constructor
  · intro h
    have hdegree : (p %ₘ generator gen).degree < w := by
      rw [← degree_generator gen]
      exact degree_modByMonic_lt _ (monic_generator gen)
    have hdvd : generator gen' ∣ p %ₘ generator gen - p := by
      rw [h]
      exact dvd_modByMonic_sub p (generator gen')
    rw [modByMonic_eq_of_degree_lt hmonic ?_ (hcop.mul_dvd (dvd_modByMonic_sub p _) hdvd)]
    · exact hdegree
    · refine hdegree.trans_le ?_
      rw [degree_mul, degree_generator, degree_generator]
      exact le_add_of_nonneg_right (by simp)
  · intro h
    have hdvd := dvd_modByMonic_sub p (generator gen * generator gen')
    rw [modByMonic_eq_of_degree_lt (monic_generator gen) (by rwa [degree_generator])
        ((dvd_mul_right _ _).trans hdvd),
      modByMonic_eq_of_degree_lt (monic_generator gen') (by rwa [degree_generator])
        ((dvd_mul_left _ _).trans hdvd)]

theorem generator_add_generator (gen gen' : BitVec w) :
    generator gen + generator gen' = poly (gen ^^^ gen') := by
  have htwo : (X : (ZMod 2)[X]) ^ w + X ^ w = 0 := CharTwo.add_self_eq_zero _
  rw [generator, generator, poly_xor]
  linear_combination htwo

theorem isCoprime_generator_X {gen : BitVec w} (hw : 0 < w) (h : gen.getLsbD (w - 1) = true) :
    IsCoprime (generator gen) X := by
  have hcoeff : (generator gen).coeff 0 = 1 := by
    rw [generator, coeff_add, coeff_poly gen hw, coeff_X_pow, Nat.sub_zero, if_pos h,
      if_neg hw.ne, zero_add]
  have hirr : Irreducible (X : (ZMod 2)[X]) := irreducible_X
  refine (hirr.coprime_iff_not_dvd.mpr ?_).symm
  rw [X_dvd_iff, hcoeff]
  exact one_ne_zero

/-- A generator with an odd number of terms is not divisible by `X + 1`. -/
theorem isCoprime_generator_X_add_one {gen : BitVec w}
    (h : (∑ i ∈ Finset.range w, if gen.getLsbD i then (1 : ZMod 2) else 0) = 0) :
    IsCoprime (generator gen) (X + 1) := by
  have heval : (generator gen).eval 1 = 1 := by
    have hbit (b : Bool) : (bit b).eval 1 = if b then 1 else 0 := by cases b <;> simp [bit]
    rw [generator, eval_add, eval_X_pow, one_pow, poly, eval_finsetSum]
    simp only [eval_mul, eval_X_pow, one_pow, mul_one, hbit, h, add_zero]
  have hX : (X + 1 : (ZMod 2)[X]) = X - C 1 := by
    rw [C_1, CharTwo.sub_eq_add]
  have hirr : Irreducible (X - C 1 : (ZMod 2)[X]) := irreducible_X_sub_C 1
  rw [hX]
  refine (hirr.coprime_iff_not_dvd.mpr ?_).symm
  rw [dvd_iff_isRoot, IsRoot, heval]
  exact one_ne_zero

/-! ### Bursts -/

theorem message_append (bs bs' : List Bool) :
    message (bs ++ bs') = X ^ bs'.length * message bs + message bs' := by
  induction bs with
  | nil => rw [List.nil_append, message, mul_zero, zero_add]
  | cons b bs ih =>
    rw [List.cons_append, message, ih, message, List.length_append, pow_add]
    ring

theorem degree_message_lt (bs : List Bool) : (message bs).degree < bs.length := by
  induction bs with
  | nil =>
    rw [message, degree_zero]
    exact WithBot.bot_lt_coe 0
  | cons b bs ih =>
    have hlt : ((bs.length : Nat) : WithBot Nat) < (b :: bs).length := by
      rw [List.length_cons]
      exact_mod_cast Nat.lt_succ_self bs.length
    rw [message]
    refine (degree_add_le _ _).trans_lt (max_lt ?_ (ih.trans hlt))
    cases b with
    | false => simp [bit]
    | true => simpa [bit] using hlt

theorem message_inj_of_length {bs bs' : List Bool} (hlen : bs.length = bs'.length)
    (h : message bs = message bs') : bs = bs' := by
  induction bs generalizing bs' with
  | nil => exact (List.length_eq_zero_iff.mp hlen.symm).symm
  | cons b bs ih =>
    cases bs' with
    | nil => cases hlen
    | cons b' bs' =>
      have hlen' : bs.length = bs'.length := Nat.succ.inj hlen
      have hcoeff (c : Bool) (cs : List Bool) :
          (message (c :: cs)).coeff cs.length = if c then 1 else 0 := by
        rw [message, coeff_add, coeff_eq_zero_of_degree_lt (degree_message_lt cs), add_zero]
        cases c <;> simp [bit]
      have hb : b = b' := by
        have hc := hcoeff b bs
        rw [h, hlen', hcoeff b' bs'] at hc
        cases b <;> cases b' <;> simp at hc ⊢
      subst hb
      rw [message, message, hlen', add_right_inj] at h
      rw [ih hlen' h]

/-- Two messages that differ only in a window no wider than the register leave it with
different contents. -/
theorem run_ne_of_burst {gen : BitVec w} (hw : 0 < w) (hgen : gen.getLsbD (w - 1) = true)
    (r : BitVec w) (before after : List Bool) {bs bs' : List Bool}
    (hlen : bs.length = bs'.length) (hwidth : bs.length ≤ w) (hne : bs ≠ bs') :
    run gen r (before ++ bs ++ after) ≠ run gen r (before ++ bs' ++ after) := by
  intro h
  have hdvd := dvd_add (generator_dvd_poly_run hw gen r (before ++ bs ++ after))
    (generator_dvd_poly_run hw gen r (before ++ bs' ++ after))
  have hdiff : poly (run gen r (before ++ bs ++ after)) +
      (X ^ (before ++ bs ++ after).length * poly r + X ^ w * message (before ++ bs ++ after)) +
      (poly (run gen r (before ++ bs' ++ after)) +
        (X ^ (before ++ bs' ++ after).length * poly r +
          X ^ w * message (before ++ bs' ++ after))) =
      X ^ (w + after.length) * (message bs + message bs') := by
    have hlength : (before ++ bs' ++ after).length = (before ++ bs ++ after).length := by
      rw [List.length_append, List.length_append, List.length_append, List.length_append, hlen]
    have htwo (p : (ZMod 2)[X]) : p + p = 0 := CharTwo.add_self_eq_zero p
    rw [h, hlength, message_append, message_append, message_append, message_append, hlen, pow_add]
    linear_combination htwo (poly (run gen r (before ++ bs' ++ after))) +
      htwo (X ^ (before ++ bs ++ after).length * poly r) +
      htwo (X ^ w * (X ^ after.length * (X ^ bs'.length * message before))) +
      htwo (X ^ w * message after)
  rw [hdiff] at hdvd
  have hburst : generator gen ∣ message bs + message bs' :=
    ((isCoprime_generator_X hw hgen).pow_right).dvd_of_dvd_mul_left hdvd
  have hdegree : (message bs + message bs').degree < (generator gen).degree := by
    rw [degree_generator]
    refine (degree_add_le _ _).trans_lt (max_lt ?_ ?_)
    · exact (degree_message_lt bs).trans_le (by exact_mod_cast hwidth)
    · exact (degree_message_lt bs').trans_le (by exact_mod_cast hlen ▸ hwidth)
  have hzero := eq_zero_of_dvd_of_degree_lt hburst hdegree
  exact hne (message_inj_of_length hlen (CharTwo.add_eq_zero.mp hzero))

end Crc
