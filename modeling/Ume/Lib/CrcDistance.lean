import Ume.Lib.Crc

/-! How many bits two strings differ in when they have the same check. A string with its
register behind it leaves zero, so the strings with that property that have the fewest bits
set decide, and those with at most three bits can be looked for by a sieve. -/

namespace Crc

variable {w : Nat}

def distance (bs bs' : List Bool) : Nat := (List.zipWith Bool.xor bs bs').count true

theorem distance_append {as as' : List Bool} (bs bs' : List Bool) (h : as.length = as'.length) :
    distance (as ++ bs) (as' ++ bs') = distance as as' + distance bs bs' := by
  rw [distance, List.zipWith_append h, List.count_append]
  rfl

theorem eq_of_distance_eq_zero {bs bs' : List Bool} (hlen : bs.length = bs'.length)
    (h : distance bs bs' = 0) : bs = bs' := by
  induction bs generalizing bs' with
  | nil => exact (List.length_eq_zero_iff.mp hlen.symm).symm
  | cons b bs ih =>
    cases bs' with
    | nil => cases hlen
    | cons b' bs' =>
      simp only [distance, List.zipWith_cons_cons, List.count_cons, Nat.add_eq_zero_iff] at h
      have hbit : b = b' := by simpa using h.2
      rw [hbit, ih (Nat.succ.inj hlen) h.1]

theorem distance_self (bs : List Bool) : distance bs bs = 0 := by
  induction bs with
  | nil => rfl
  | cons b bs ih => simpa [distance] using ih

/-- The bits of a register, in the order in which they leave it. -/
def registerBits (r : BitVec w) : List Bool := (List.range w).map r.getLsbD

theorem registerBits_xor (r r' : BitVec w) :
    registerBits (r ^^^ r') = List.zipWith Bool.xor (registerBits r) (registerBits r') := by
  simp [registerBits, List.zipWith_map]

/-! ### What single bits leave -/

/-- A register after `k` zeros have come in. -/
def echo (gen r : BitVec w) (k : Nat) : BitVec w := run gen r (List.replicate k false)

theorem run_append (gen r : BitVec w) (as bs : List Bool) :
    run gen r (as ++ bs) = run gen (run gen r as) bs := List.foldl_append

theorem bitStep_zero (gen : BitVec w) (b : Bool) :
    bitStep gen 0#w b = if b then gen else 0#w := by
  cases b <;> simp [bitStep]

theorem run_eq_echo_xor (gen r : BitVec w) (bs : List Bool) :
    run gen r bs = echo gen r bs.length ^^^ run gen 0#w bs := by
  have hzeros : List.zipWith Bool.xor (List.replicate bs.length false) bs = bs := by
    induction bs with
    | nil => rfl
    | cons b bs ih => simp [List.replicate_succ, ih]
  have h := run_zipWith_xor gen r 0#w (List.length_replicate (n := bs.length) (a := false))
  rw [hzeros, BitVec.xor_zero] at h
  exact h

theorem run_zero_cons (gen : BitVec w) (b : Bool) (bs : List Bool) :
    run gen 0#w (b :: bs) =
      (if b then echo gen gen bs.length else 0#w) ^^^ run gen 0#w bs := by
  have hstep : run gen 0#w (b :: bs) = run gen (bitStep gen 0#w b) bs := rfl
  rw [hstep, bitStep_zero]
  cases b with
  | false => simp
  | true => exact run_eq_echo_xor gen gen bs

/-- A register that takes in its own bits is left with zero. -/
theorem run_registerBits (gen r : BitVec w) : run gen r (registerBits r) = 0#w := by
  have hempty : r >>> w = 0#w := by
    apply BitVec.eq_of_getLsbD_eq
    intro i hi
    simp
  have hecho : echo gen r (registerBits r).length = run gen 0#w (registerBits r) := by
    have h := run_replicate_false gen r w
    rw [hempty, BitVec.zero_xor] at h
    simpa [echo, registerBits] using h
  rw [run_eq_echo_xor, hecho, BitVec.xor_self]

theorem run_of_count_zero (gen : BitVec w) {bs : List Bool} (h : bs.count true = 0) :
    run gen 0#w bs = 0#w := by
  induction bs with
  | nil => rfl
  | cons b bs ih =>
    cases b with
    | true => simp at h
    | false => simpa [run_zero_cons] using ih (by simpa using h)

theorem run_of_count_one (gen : BitVec w) {bs : List Bool} (h : bs.count true = 1) :
    ∃ k < bs.length, run gen 0#w bs = echo gen gen k := by
  induction bs with
  | nil => simp at h
  | cons b bs ih =>
    cases b with
    | true =>
      have hnone : bs.count true = 0 := by simpa using h
      have hrest := run_of_count_zero gen hnone
      exact ⟨bs.length, by simp, by simp [run_zero_cons, hrest]⟩
    | false =>
      obtain ⟨k, hk, hrun⟩ := ih (by simpa using h)
      exact ⟨k, by simp; omega, by simp [run_zero_cons, hrun]⟩

theorem run_of_count_two (gen : BitVec w) {bs : List Bool} (h : bs.count true = 2) :
    ∃ j < bs.length, ∃ k < bs.length, run gen 0#w bs = echo gen gen j ^^^ echo gen gen k := by
  induction bs with
  | nil => simp at h
  | cons b bs ih =>
    cases b with
    | true =>
      have hone : bs.count true = 1 := by simpa using h
      obtain ⟨k, hk, hrun⟩ := run_of_count_one gen hone
      exact ⟨bs.length, by simp, k, by simp; omega, by simp [run_zero_cons, hrun]⟩
    | false =>
      obtain ⟨j, hj, k, hk, hrun⟩ := ih (by simpa using h)
      exact ⟨j, by simp; omega, k, by simp; omega, by simp [run_zero_cons, hrun]⟩

/-! ### The last bit -/

/-- A generator with a lowest term loses no bit of a register. -/
theorem eq_of_bitStep_eq_zero {gen r : BitVec w} (hw : 0 < w)
    (hgen : gen.getLsbD (w - 1) = true) {b : Bool} (h : bitStep gen r b = 0#w) :
    r = if b then 1#w else 0#w := by
  rw [bitStep_eq, BitVec.xor_eq_zero_iff] at h
  have htop : (r >>> 1).getLsbD (w - 1) = false := by
    rw [BitVec.getLsbD_ushiftRight]
    exact BitVec.getLsbD_of_ge r _ (by omega)
  by_cases hlow : (r.getLsbD 0 ^^ b) = true
  · rw [h, if_pos hlow, hgen] at htop
    cases htop
  · rw [if_neg hlow] at h
    have hbit : r.getLsbD 0 = b := by simpa using hlow
    apply BitVec.eq_of_getLsbD_eq
    intro i hi
    cases i with
    | zero =>
      rw [hbit]
      cases b <;> simp [hw]
    | succ i =>
      have hshift := congrArg (·.getLsbD i) h
      simp only [BitVec.getLsbD_ushiftRight, BitVec.ofNat_eq_ofNat, BitVec.getLsbD_zero,
        Nat.add_comm 1] at hshift
      cases b <;> simp [hshift]

/-! ### The sieve -/

/-- Evaluates `n` before it goes on, so that a long loop does not pile up. -/
def force {β : Type*} (n : Nat) (f : Nat → β) : β :=
  match n with
  | 0 => f 0
  | k + 1 => f (k + 1)

@[simp] theorem force_eq {β : Type*} (n : Nat) (f : Nat → β) : force n f = f n := by
  cases n <;> rfl

/-- Marks the next `n` registers by their remainders. -/
def sieve (gen : BitVec w) (m : Nat) : Nat → BitVec w → Nat → Nat
  | 0, _, s => s
  | n + 1, r, s =>
    force (bitStep gen r false).toNat fun r' =>
      force (s ||| 1 <<< (r.toNat % m)) fun s' => sieve gen m n (BitVec.ofNat w r') s'

/-- Whether none of the next `n` registers has a marked neighbour. -/
def sifted (gen : BitVec w) (m s : Nat) : Nat → BitVec w → Bool
  | 0, _ => true
  | n + 1, r =>
    !s.testBit ((r ^^^ 1#w).toNat % m) &&
      force (bitStep gen r false).toNat fun r' => sifted gen m s n (BitVec.ofNat w r')

/-- Whether no two of the first `n` echoes of the generator, and none of them and zero, differ
in the lowest bit alone. The modulus `m` is chosen so that the sieve is sharp enough. -/
def separated (gen : BitVec w) (m n : Nat) : Bool :=
  force (sieve gen m n gen 1) fun s => sifted gen m s n gen

theorem testBit_sieve_of_mark {gen : BitVec w} {m n i : Nat} {r : BitVec w} {s : Nat}
    (h : s.testBit i = true) : (sieve gen m n r s).testBit i = true := by
  induction n generalizing r s with
  | zero => exact h
  | succ n ih =>
    simp only [sieve, force_eq]
    apply ih
    simp [Nat.testBit_or, h]

theorem testBit_sieve {gen : BitVec w} {m n k : Nat} (hk : k < n) (r : BitVec w) (s : Nat) :
    (sieve gen m n r s).testBit ((echo gen r k).toNat % m) = true := by
  induction n generalizing r s k with
  | zero => omega
  | succ n ih =>
    simp only [sieve, force_eq, BitVec.ofNat_toNat, BitVec.setWidth_eq]
    cases k with
    | zero =>
      apply testBit_sieve_of_mark
      simp [Nat.testBit_or, echo, run, Nat.one_shiftLeft]
    | succ k => exact ih (by omega) (bitStep gen r false) _

theorem testBit_of_sifted {gen : BitVec w} {m s n : Nat} {r : BitVec w}
    (h : sifted gen m s n r = true) {k : Nat} (hk : k < n) :
    s.testBit ((echo gen r k ^^^ 1#w).toNat % m) = false := by
  induction n generalizing r k with
  | zero => omega
  | succ n ih =>
    simp only [sifted, force_eq, BitVec.ofNat_toNat, BitVec.setWidth_eq, Bool.and_eq_true,
      Bool.not_eq_true'] at h
    cases k with
    | zero => exact h.1
    | succ k => exact ih h.2 (by omega)

theorem echo_ne_one {gen : BitVec w} {m n k : Nat} (h : separated gen m n = true) (hk : k < n) :
    echo gen gen k ≠ 1#w := by
  intro he
  rw [separated, force_eq] at h
  have hclear := testBit_of_sifted h hk
  have hmark : (sieve gen m n gen 1).testBit 0 = true := testBit_sieve_of_mark (by decide)
  simp [he, hmark] at hclear

theorem echo_xor_echo_ne_one {gen : BitVec w} {m n j k : Nat} (h : separated gen m n = true)
    (hj : j < n) (hk : k < n) : echo gen gen j ^^^ echo gen gen k ≠ 1#w := by
  intro he
  rw [separated, force_eq] at h
  have hclear := testBit_of_sifted h hj
  have hneighbour : echo gen gen j ^^^ 1#w = echo gen gen k := by
    rw [← he, ← BitVec.xor_assoc, BitVec.xor_self, BitVec.zero_xor]
  rw [hneighbour, testBit_sieve hk] at hclear
  cases hclear

/-! ### The distance -/

section Distance

variable {gen : BitVec w} {m n : Nat} (hw : 0 < w) (hgen : gen.getLsbD (w - 1) = true)
  (hsep : separated gen m n = true)

include hw hgen hsep

/-- The last bit that is set can be taken for the last bit of all. -/
theorem four_le_count {bs : List Bool} (hrun : run gen 0#w bs = 0#w) (hlen : bs.length ≤ n + 1)
    (hmem : true ∈ bs) : 4 ≤ bs.count true := by
  induction bs using List.reverseRecOn with
  | nil => simp at hmem
  | append_singleton bs b ih =>
    rw [run_append] at hrun
    have hrest := eq_of_bitStep_eq_zero hw hgen hrun
    have hlen' : bs.length ≤ n := by simpa using hlen
    cases b with
    | false => simpa using ih hrest (by omega) (by simpa using hmem)
    | true =>
      rw [List.count_append]
      by_contra hfew
      have hcases : bs.count true = 0 ∨ bs.count true = 1 ∨ bs.count true = 2 := by
        simp at hfew
        omega
      rcases hcases with hcount | hcount | hcount
      · rw [run_of_count_zero gen hcount] at hrest
        have hone := congrArg (·.getLsbD 0) hrest
        simp [hw] at hone
      · obtain ⟨k, hk, hecho⟩ := run_of_count_one gen hcount
        exact echo_ne_one hsep (by omega) (hecho ▸ hrest)
      · obtain ⟨j, hj, k, hk, hecho⟩ := run_of_count_two gen hcount
        exact echo_xor_echo_ne_one hsep (by omega : j < n) (by omega : k < n) (hecho ▸ hrest)

/-- Two different strings of one length, each with the register it leaves behind it, differ
in at least four bits. -/
theorem four_le_distance (r : BitVec w) {bs bs' : List Bool} (hlen : bs.length = bs'.length)
    (hshort : bs.length + w ≤ n + 1) (hne : bs ≠ bs') :
    4 ≤ distance bs bs' +
      distance (registerBits (run gen r bs)) (registerBits (run gen r bs')) := by
  have hdiff : run gen 0#w (List.zipWith Bool.xor bs bs') = run gen r bs ^^^ run gen r bs' := by
    rw [← run_zipWith_xor gen r r hlen, BitVec.xor_self]
  have hcode : run gen 0#w (List.zipWith Bool.xor bs bs' ++
      registerBits (run gen r bs ^^^ run gen r bs')) = 0#w := by
    rw [run_append, hdiff]
    exact run_registerBits gen _
  have hset : true ∈ List.zipWith Bool.xor bs bs' := by
    by_contra hnone
    exact hne (eq_of_distance_eq_zero hlen (List.count_eq_zero.mpr hnone))
  have h := four_le_count hw hgen hsep hcode (by simpa [registerBits, ← hlen] using hshort)
    (List.mem_append_left _ hset)
  rwa [List.count_append, registerBits_xor] at h

end Distance

end Crc
