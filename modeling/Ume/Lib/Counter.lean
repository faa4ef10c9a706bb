import Mathlib.Algebra.GroupWithZero.Nat

/-! Counters of 64 bits and the numbers they stand for: a counter that has wrapped still adds
up, and one that has not is the number itself. -/

namespace Counter

variable {c d : UInt64} {m n : Nat}

/-- The counter stands for this number. -/
def Counts (c : UInt64) (n : Nat) : Prop := c = .ofNat n

theorem counts_ofNat (n : Nat) : Counts (.ofNat n) n := rfl

theorem Counts.add (h : Counts c m) (h' : Counts d n) : Counts (c + d) (m + n) := by
  unfold Counts at h h' ⊢
  rw [h, h', UInt64.ofNat_add]

theorem Counts.add_one (h : Counts c n) : Counts (c + 1) (n + 1) := h.add (counts_ofNat 1)

theorem Counts.add_ofNat (h : Counts c m) (n : Nat) : Counts (c + .ofNat n) (m + n) :=
  h.add (counts_ofNat n)

theorem Counts.eq (h : Counts c n) (h' : Counts d n) : c = d := Eq.trans h h'.symm

theorem Counts.toNat_eq (h : Counts c n) (hn : n < 2 ^ 64) : c.toNat = n := by
  rw [h, UInt64.toNat_ofNat_of_lt' hn]

end Counter
