import Mathlib.Algebra.GroupWithZero.Nat
import Mathlib.Algebra.Order.Group.Nat

/-! The monotonic clock. On Windows the value of a counter is converted to nanoseconds,
the whole seconds and the rest of it apart, so that no product needs more than 64 bits. -/

namespace Ume

namespace Clock

def nsPerSecond : UInt64 := 1000000000

/-- The clock on Windows. A frequency of zero would be a division by zero. -/
def monotonicNowNs (frequency count : UInt64) : UInt64 :=
  let wholeSeconds := count / frequency
  let remainder := count % frequency
  wholeSeconds * nsPerSecond + remainder * nsPerSecond / frequency

theorem mul_div_eq_split (count scale : Nat) {d : Nat} (hd : 0 < d) :
    count * scale / d = count / d * scale + count % d * scale / d := by
  have hparts : count * scale = count % d * scale + d * (count / d * scale) := by
    rw [← Nat.mul_assoc, ← Nat.add_mul, Nat.mod_add_div]
  rw [hparts, Nat.add_mul_div_left _ _ hd, Nat.add_comm]

section Windows

variable {frequency count : UInt64}

/-- No step of the conversion leaves 64 bits. -/
structure Fits (frequency count : UInt64) : Prop where
  seconds : (count / frequency).toNat * 10 ^ 9 < 2 ^ 64
  rest : (count % frequency).toNat * 10 ^ 9 < 2 ^ 64
  sum : (count / frequency).toNat * 10 ^ 9 +
    (count % frequency).toNat * 10 ^ 9 / frequency.toNat < 2 ^ 64

theorem fits_of_lt (hpos : 0 < frequency) (hmax : frequency.toNat ≤ (2 ^ 64 - 1) / 10 ^ 9)
    (hlt : count.toNat * 10 ^ 9 / frequency.toNat < 2 ^ 64) : Fits frequency count := by
  have hd : 0 < frequency.toNat := UInt64.lt_iff_toNat_lt.mp hpos
  rw [mul_div_eq_split _ _ hd, ← UInt64.toNat_div, ← UInt64.toNat_mod] at hlt
  have hrem : (count % frequency).toNat < frequency.toNat := by
    rw [UInt64.toNat_mod]
    exact Nat.mod_lt _ hd
  refine ⟨(Nat.le_add_right _ _).trans_lt hlt, ?_, hlt⟩
  calc (count % frequency).toNat * 10 ^ 9 ≤ (2 ^ 64 - 1) / 10 ^ 9 * 10 ^ 9 :=
        Nat.mul_le_mul_right _ (hrem.le.trans hmax)
    _ < 2 ^ 64 := by decide

theorem Fits.toNat_monotonicNowNs (h : Fits frequency count) (hpos : 0 < frequency) :
    (monotonicNowNs frequency count).toNat = count.toNat * 10 ^ 9 / frequency.toNat := by
  have hseconds : (count / frequency * nsPerSecond).toNat = (count / frequency).toNat * 10 ^ 9 := by
    rw [UInt64.toNat_mul]
    exact Nat.mod_eq_of_lt h.seconds
  have hrest : (count % frequency * nsPerSecond).toNat = (count % frequency).toNat * 10 ^ 9 := by
    rw [UInt64.toNat_mul]
    exact Nat.mod_eq_of_lt h.rest
  rw [mul_div_eq_split _ _ (UInt64.lt_iff_toNat_lt.mp hpos), monotonicNowNs, UInt64.toNat_add,
    UInt64.toNat_div, hseconds, hrest, Nat.mod_eq_of_lt h.sum, UInt64.toNat_div, UInt64.toNat_mod]

end Windows

/-- As long as the time fits 64 bits, the conversion is the exact quotient, rounded down, and
so the clock never goes back. -/
theorem monotonicNowNs_exact {frequency : UInt64} (hpos : 0 < frequency)
    (hmax : frequency.toNat ≤ (2 ^ 64 - 1) / 10 ^ 9) :
    (∀ count : UInt64, count.toNat * 10 ^ 9 / frequency.toNat < 2 ^ 64 →
        Fits frequency count ∧
          (monotonicNowNs frequency count).toNat = count.toNat * 10 ^ 9 / frequency.toNat) ∧
      ∀ count count' : UInt64, count ≤ count' →
        count'.toNat * 10 ^ 9 / frequency.toNat < 2 ^ 64 →
          monotonicNowNs frequency count ≤ monotonicNowNs frequency count' := by
  have hexact (count : UInt64) (hlt : count.toNat * 10 ^ 9 / frequency.toNat < 2 ^ 64) :
      Fits frequency count ∧
        (monotonicNowNs frequency count).toNat = count.toNat * 10 ^ 9 / frequency.toNat := by
    have hfits := fits_of_lt hpos hmax hlt
    exact ⟨hfits, hfits.toNat_monotonicNowNs hpos⟩
  refine ⟨hexact, fun count count' hle hlt => ?_⟩
  have hquot : count.toNat * 10 ^ 9 / frequency.toNat ≤ count'.toNat * 10 ^ 9 / frequency.toNat :=
    Nat.div_le_div_right (Nat.mul_le_mul_right _ (UInt64.le_iff_toNat_le.mp hle))
  rw [UInt64.le_iff_toNat_le, (hexact count (hquot.trans_lt hlt)).2, (hexact count' hlt).2]
  exact hquot

/-- A counter of ten megahertz, just before and just after the end of its first second. -/
theorem monotonicNowNs_tenMegahertz :
    (monotonicNowNs 10000000 9999999).toNat = 9999999 * 10 ^ 9 / 10000000 ∧
      monotonicNowNs 10000000 9999999 ≤ monotonicNowNs 10000000 10000003 := by
  obtain ⟨hexact, hmono⟩ := @monotonicNowNs_exact 10000000 (by decide) (by decide)
  exact ⟨(hexact 9999999 (by decide)).2, hmono 9999999 10000003 (by decide) (by decide)⟩

end Clock

end Ume
