import Mathlib.Algebra.GroupWithZero.Nat
import Mathlib.Algebra.Order.Group.Nat

/-! Double precision numbers of IEEE 754 with rounding to nearest, ties to even,
as exact values. A finite magnitude is counted in units of the smallest positive
one, which is 2 to the power of -1074. -/

namespace Binary64

/-- The number of units in one. -/
def one : Nat := 2 ^ 1074

theorem one_pos : 0 < one := by decide +kernel

def maxUnits : Nat := (2 ^ 53 - 1) * 2 ^ 2045

/-- Magnitudes with a significand of 53 bits that are not too large. -/
def Representable (units : Nat) : Prop :=
  (∃ significand exponent, significand < 2 ^ 53 ∧ units = significand * 2 ^ exponent) ∧
    units ≤ maxUnits

/-- The integer nearest to a ratio, the even one of two that are equally near. -/
def nearest (n d : Nat) : Nat :=
  if 2 * (n % d) < d ∨ 2 * (n % d) = d ∧ n / d % 2 = 0 then n / d else n / d + 1

/-- The bits of a ratio that do not fit the significand. -/
def excess (n d : Nat) : Nat := Nat.log2 (n / d) + 1 - 53

/-- A ratio rounded to 53 significant bits, and to whole units. -/
def round (n d : Nat) : Nat := nearest n (d * 2 ^ excess n d) * 2 ^ excess n d

theorem nearest_le_succ (n d : Nat) : nearest n d ≤ n / d + 1 := by
  rw [nearest]
  split_ifs <;> omega

theorem div_excess_lt (n d : Nat) : n / (d * 2 ^ excess n d) < 2 ^ 53 := by
  rw [← Nat.div_div_eq_div_mul, Nat.div_lt_iff_lt_mul (Nat.two_pow_pos _), ← Nat.pow_add]
  refine Nat.lt_of_lt_of_le Nat.lt_log2_self (Nat.pow_le_pow_right Nat.two_pos ?_)
  rw [excess]
  omega

theorem nearest_excess_le (n d : Nat) : nearest n (d * 2 ^ excess n d) ≤ 2 ^ 53 :=
  (nearest_le_succ _ _).trans (div_excess_lt n d)

theorem representable_round {n d : Nat} (h : round n d ≤ maxUnits) :
    Representable (round n d) := by
  refine ⟨?_, h⟩
  rcases (nearest_excess_le n d).lt_or_eq with hlt | heq
  · exact ⟨_, _, hlt, rfl⟩
  · refine ⟨1, 53 + excess n d, by decide, ?_⟩
    rw [round, heq, Nat.pow_add, Nat.one_mul]

end Binary64

inductive Binary64 where
  | nan
  | infinite (negative : Bool)
  | finite (negative : Bool) (units : Nat) (representable : Binary64.Representable units)
  deriving DecidableEq

namespace Binary64

def ofRatio (negative : Bool) (n d : Nat) : Binary64 :=
  if h : round n d ≤ maxUnits then .finite negative (round n d) (representable_round h)
  else .infinite negative

/-- The nearest number to a natural number. -/
def ofNat (n : Nat) : Binary64 := ofRatio false (n * one) 1

/-- The nearest number to a decimal fraction with so many digits behind the point. -/
def ofDecimal (n digits : Nat) : Binary64 := ofRatio false (n * one) (10 ^ digits)

def signed (negative : Bool) (units : Nat) : Int := if negative then -units else units

def neg : Binary64 → Binary64
  | .nan => .nan
  | .infinite s => .infinite !s
  | .finite s u h => .finite (!s) u h

/-- An exact zero is positive unless both terms are negative. -/
def add : Binary64 → Binary64 → Binary64
  | .nan, _ => .nan
  | _, .nan => .nan
  | .infinite s, .infinite t => if s = t then .infinite s else .nan
  | .infinite s, .finite _ _ _ => .infinite s
  | .finite _ _ _, .infinite t => .infinite t
  | .finite s u _, .finite t v _ =>
    let sum := signed s u + signed t v
    if sum = 0 then ofRatio (s && t) 0 1 else ofRatio (sum < 0) sum.natAbs 1

def sub (x y : Binary64) : Binary64 := add x (neg y)

def mul : Binary64 → Binary64 → Binary64
  | .nan, _ => .nan
  | _, .nan => .nan
  | .infinite s, .infinite t => .infinite (s ^^ t)
  | .infinite s, .finite t v _ => if v = 0 then .nan else .infinite (s ^^ t)
  | .finite s u _, .infinite t => if u = 0 then .nan else .infinite (s ^^ t)
  | .finite s u _, .finite t v _ => ofRatio (s ^^ t) (u * v) one

def div : Binary64 → Binary64 → Binary64
  | .nan, _ => .nan
  | _, .nan => .nan
  | .infinite _, .infinite _ => .nan
  | .infinite s, .finite t _ _ => .infinite (s ^^ t)
  | .finite s _ _, .infinite t => ofRatio (s ^^ t) 0 1
  | .finite s u _, .finite t v _ =>
    if v = 0 then if u = 0 then .nan else .infinite (s ^^ t)
    else ofRatio (s ^^ t) (u * one) v

/-- Comparisons with a number that is none are false, and both zeros are equal. -/
def lt : Binary64 → Binary64 → Bool
  | .nan, _ => false
  | _, .nan => false
  | .infinite s, .infinite t => s && !t
  | .infinite s, .finite _ _ _ => s
  | .finite _ _ _, .infinite t => !t
  | .finite s u _, .finite t v _ => signed s u < signed t v

/-- The first argument unless the second is smaller, as the C++ template. -/
def min (x y : Binary64) : Binary64 := if lt y x then y else x

/-- The first argument unless it is smaller than the second. -/
def max (x y : Binary64) : Binary64 := if lt x y then y else x

/-- The conversion to 64 bits, towards zero, of a number in their range. -/
def toUInt64 : Binary64 → UInt64
  | .finite false units _ => UInt64.ofNat (units / one)
  | _ => 0

theorem add_finite {u v : Nat} (hu : Representable u) (hv : Representable v) :
    add (.finite false u hu) (.finite false v hv) = ofRatio false (u + v) 1 := by
  have hneg : ¬((u : Int) + v < 0) := by omega
  have habs : ((u : Int) + v).natAbs = u + v := by omega
  simp only [add, signed, Bool.false_eq_true, if_false, Bool.and_false, hneg, decide_false, habs]
  split_ifs with hzero
  · rw [show u + v = 0 by omega]
  · rfl

example : sub (ofDecimal 3 1) (ofDecimal 1 1) =
    ofRatio false (7205759403792793 * one) (2 ^ 55) := by
  decide +kernel

end Binary64
