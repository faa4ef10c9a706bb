import Mathlib.Data.Nat.Bitwise
import Mathlib.Data.Nat.Log
import Mathlib.Data.Nat.ModEq
import Mathlib.Logic.Function.Basic

/-! Rings of a power of two slots, addressed by 64-bit counters that wrap. The
counter of the `n`-th access is `UInt64.ofNat n` for an unbounded `n`. -/

namespace RingBuffer

theorem exists_two_pow_of_and_sub_one {n : Nat} (hpos : 0 < n) (hand : n &&& (n - 1) = 0) :
    ∃ k, n = 2 ^ k := by
  refine ⟨Nat.log2 n, ?_⟩
  by_contra hne
  have hlow : 2 ^ Nat.log2 n ≤ n := Nat.log2_self_le hpos.ne'
  have hhigh : n < 2 ^ (Nat.log2 n + 1) := Nat.lt_log2_self
  have hn := Nat.testBit_of_two_pow_le_and_two_pow_add_one_gt hlow hhigh
  have hp := Nat.testBit_of_two_pow_le_and_two_pow_add_one_gt
    (show 2 ^ Nat.log2 n ≤ n - 1 by omega) (by omega)
  have hbit := Nat.testBit_and n (n - 1) (Nat.log2 n)
  rw [hand, hn, hp, Nat.zero_testBit] at hbit
  cases hbit

/-- A number of slots, with the bit test that makes it a power of two. -/
structure Size where
  val : UInt64
  pos : 0 < val
  pow2 : val &&& (val - 1) = 0

namespace Size

variable (size : Size)

def toNat : Nat := size.val.toNat

def mask : UInt64 := size.val - 1

theorem toNat_pos : 0 < size.toNat := UInt64.lt_iff_toNat_lt.mp size.pos

theorem toNat_lt : size.toNat < 2 ^ 64 := size.val.toNat_lt

theorem toNat_mask : size.mask.toNat = size.toNat - 1 := by
  have hone : (1 : UInt64) ≤ size.val := by
    rw [UInt64.le_iff_toNat_le]
    exact size.toNat_pos
  exact UInt64.toNat_sub_of_le _ _ hone

theorem add_mask_add_one (n : Nat) :
    UInt64.ofNat n + size.mask + 1 = UInt64.ofNat (n + size.toNat) := by
  unfold mask
  rw [UInt64.add_assoc, UInt64.sub_add_cancel, UInt64.ofNat_add, toNat, UInt64.ofNat_toNat]

theorem exists_pow : ∃ k, size.toNat = 2 ^ k := by
  refine exists_two_pow_of_and_sub_one size.toNat_pos ?_
  have hand := congrArg UInt64.toNat size.pow2
  rw [UInt64.toNat_and] at hand
  rwa [← size.toNat_mask]

theorem toNat_dvd : size.toNat ∣ 2 ^ 64 := by
  obtain ⟨k, hk⟩ := size.exists_pow
  have hlt := size.toNat_lt
  rw [hk] at hlt ⊢
  have hk64 : k < 64 := (Nat.pow_lt_pow_iff_right (show 1 < 2 by decide)).mp hlt
  exact Nat.pow_dvd_pow 2 hk64.le

theorem toNat_and_mask (pos : UInt64) : (pos &&& size.mask).toNat = pos.toNat % size.toNat := by
  obtain ⟨k, hk⟩ := size.exists_pow
  rw [UInt64.toNat_and, size.toNat_mask, hk, Nat.and_two_pow_sub_one_eq_mod]

def slot (pos : UInt64) : Fin size.toNat :=
  ⟨(pos &&& size.mask).toNat, by
    rw [toNat_and_mask]
    exact Nat.mod_lt _ size.toNat_pos⟩

theorem val_slot_ofNat (n : Nat) : (size.slot (UInt64.ofNat n)).val = n % size.toNat := by
  show (UInt64.ofNat n &&& size.mask).toNat = _
  rw [toNat_and_mask, UInt64.toNat_ofNat', Nat.mod_mod_of_dvd _ size.toNat_dvd]

theorem slot_eq_iff {i j : Nat} : size.slot (UInt64.ofNat i) = size.slot (UInt64.ofNat j) ↔
    i % size.toNat = j % size.toNat := by
  rw [← val_slot_ofNat, ← val_slot_ofNat, Fin.ext_iff]

theorem slot_ne {i j : Nat} (hlt : i < j) (hlap : j < i + size.toNat) :
    size.slot (UInt64.ofNat i) ≠ size.slot (UInt64.ofNat j) := by
  intro heq
  have hmod := size.slot_eq_iff.mp heq
  have hdvd : size.toNat ∣ j - i := (Nat.modEq_iff_dvd' hlt.le).mp hmod
  have := Nat.le_of_dvd (by omega) hdvd
  omega

theorem slot_ne_of_ne {i j start : Nat} (hi : start ≤ i) (hi' : i < start + size.toNat)
    (hj : start ≤ j) (hj' : j < start + size.toNat) (hne : i ≠ j) :
    size.slot (UInt64.ofNat i) ≠ size.slot (UInt64.ofNat j) := by
  rcases Nat.lt_or_gt_of_ne hne with hlt | hgt
  · exact size.slot_ne hlt (by omega)
  · exact (size.slot_ne hgt (by omega)).symm

theorem slot_add_toNat (i : Nat) :
    size.slot (UInt64.ofNat (i + size.toNat)) = size.slot (UInt64.ofNat i) := by
  rw [slot_eq_iff, Nat.add_mod_right]

theorem exists_slot_eq (i start : Nat) : ∃ j, start ≤ j ∧ j < start + size.toNat ∧
    size.slot (UInt64.ofNat j) = size.slot (UInt64.ofNat i) := by
  have hpos := size.toNat_pos
  have hlt : (i + (size.toNat - start % size.toNat)) % size.toNat < size.toNat :=
    Nat.mod_lt _ hpos
  refine ⟨start + (i + (size.toNat - start % size.toNat)) % size.toNat, by omega, by omega, ?_⟩
  have hle := (Nat.mod_lt start hpos).le
  have hsplit := Nat.div_add_mod start size.toNat
  rw [slot_eq_iff, Nat.add_mod_mod]
  have hsum : start + (i + (size.toNat - start % size.toNat)) =
      i + size.toNat * (start / size.toNat + 1) := by
    rw [Nat.mul_add, Nat.mul_one]
    omega
  rw [hsum, Nat.add_mul_mod_self_left]

end Size

theorem toNat_ofNat_sub {a b : Nat} (h : b ≤ a) (hlt : a - b < 2 ^ 64) :
    (UInt64.ofNat a - UInt64.ofNat b).toNat = a - b := by
  rw [← UInt64.ofNat_sub h, UInt64.toNat_ofNat', Nat.mod_eq_of_lt hlt]

theorem ofNat_eq_iff {a b : Nat} (h : b ≤ a) (hlt : a - b < 2 ^ 64) :
    UInt64.ofNat a = UInt64.ofNat b ↔ a = b := by
  constructor
  · intro heq
    have hzero := toNat_ofNat_sub h hlt
    rw [heq, UInt64.sub_self] at hzero
    have : (0 : UInt64).toNat = 0 := rfl
    omega
  · rintro rfl
    rfl

theorem ofNat_injective {a b : Nat} (ha : a < 2 ^ 64) (hb : b < 2 ^ 64)
    (h : UInt64.ofNat a = UInt64.ofNat b) : a = b := by
  have hnat := congrArg UInt64.toNat h
  rwa [UInt64.toNat_ofNat', UInt64.toNat_ofNat', Nat.mod_eq_of_lt ha, Nat.mod_eq_of_lt hb] at hnat

/-- The test by which a ring with `a` accesses begun and `b` ended is full. -/
theorem Size.sub_ge_iff (size : Size) {a b : Nat} (h : b ≤ a) (hle : a ≤ b + size.toNat) :
    UInt64.ofNat a - UInt64.ofNat b ≥ size.val ↔ a = b + size.toNat := by
  have hlt := size.toNat_lt
  have hsub : (UInt64.ofNat a - UInt64.ofNat b).toNat = a - b := toNat_ofNat_sub h (by omega)
  rw [ge_iff_le, UInt64.le_iff_toNat_le, hsub]
  show size.toNat ≤ a - b ↔ _
  omega

theorem ofNat_succ (n : Nat) : UInt64.ofNat (n + 1) = UInt64.ofNat n + 1 := UInt64.ofNat_add n 1

end RingBuffer
