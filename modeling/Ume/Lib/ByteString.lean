import Mathlib.Data.List.TakeDrop
import Mathlib.Tactic.Ring

/-! Byte strings: little-endian words, fixed-size blocks, and reading or
overwriting a range of a longer string. -/

namespace ByteString

def toLE : Nat → Nat → List UInt8
  | 0, _ => []
  | w + 1, n => UInt8.ofNat n :: toLE w (n / 256)

def ofLE : List UInt8 → Nat
  | [] => 0
  | b :: bs => b.toNat + 256 * ofLE bs

@[simp] theorem length_toLE (w n : Nat) : (toLE w n).length = w := by
  induction w generalizing n with
  | zero => rfl
  | succ w ih => simp [toLE, ih]

theorem ofLE_toLE (w n : Nat) : ofLE (toLE w n) = n % 256 ^ w := by
  induction w generalizing n with
  | zero => simp [toLE, ofLE, Nat.mod_one]
  | succ w ih =>
    have hb : (UInt8.ofNat n).toNat = n % 256 := by simp
    rw [toLE, ofLE, ih, hb, Nat.pow_succ', Nat.mod_mul]

/-- The `len` bytes at offset `off`, fewer when the string ends before. -/
def slice (bs : List UInt8) (off len : Nat) : List UInt8 :=
  (bs.drop off).take len

/-- Overwriting the bytes from offset `off` on, as a copy into a buffer does. -/
def splice (bs : List UInt8) (off : Nat) (data : List UInt8) : List UInt8 :=
  bs.take off ++ data ++ bs.drop (off + data.length)

theorem length_splice {bs data : List UInt8} {off : Nat} (h : off + data.length ≤ bs.length) :
    (splice bs off data).length = bs.length := by
  simp only [splice, List.length_append, List.length_take, List.length_drop]
  omega

theorem slice_append_left {a : List UInt8} {off len : Nat} (h : off + len ≤ a.length)
    (b : List UInt8) : slice (a ++ b) off len = slice a off len := by
  rw [slice, slice, List.drop_append_of_le_length (by omega),
    List.take_append_of_le_length (by simp only [List.length_drop]; omega)]

theorem slice_append_right {a : List UInt8} {off len : Nat} (h : a.length ≤ off)
    (b : List UInt8) : slice (a ++ b) off len = slice b (off - a.length) len := by
  rw [slice, slice, List.drop_append, List.drop_eq_nil_of_le h, List.nil_append]

theorem slice_zero_self {a : List UInt8} {len : Nat} (h : a.length = len) : slice a 0 len = a := by
  simp [slice, ← h]

theorem slice_append_slice (bs : List UInt8) (off m n : Nat) :
    slice bs off m ++ slice bs (off + m) n = slice bs off (m + n) := by
  rw [slice, slice, slice, List.take_add, List.drop_drop]

theorem slice_slice {bs : List UInt8} {off len i n : Nat} (h : i + n ≤ len) :
    slice (slice bs off len) i n = slice bs (off + i) n := by
  rw [slice, slice, slice, List.drop_take, List.take_take, List.drop_drop,
    Nat.min_eq_left (by omega)]

theorem slice_drop (bs : List UInt8) (off off' len : Nat) :
    slice (bs.drop off) off' len = slice bs (off + off') len := by
  rw [slice, slice, List.drop_drop]

theorem length_slice (bs : List UInt8) (off len : Nat) :
    (slice bs off len).length = min len (bs.length - off) := by
  rw [slice, List.length_take, List.length_drop]

theorem getElem?_slice (bs : List UInt8) (off len i : Nat) :
    (slice bs off len)[i]? = if i < len then bs[off + i]? else none := by
  rw [slice, List.getElem?_take, List.getElem?_drop]

theorem splice_append {a b data : List UInt8} :
    splice (a ++ b) a.length data = a ++ data ++ b.drop data.length := by
  simp [splice, List.drop_append]

theorem getElem?_splice {bs data : List UInt8} {off : Nat} (h : off + data.length ≤ bs.length)
    (i : Nat) : (splice bs off data)[i]? =
      if off ≤ i ∧ i < off + data.length then data[i - off]? else bs[i]? := by
  have hl : (bs.take off).length = off := by simp only [List.length_take]; omega
  rw [splice, List.append_assoc]
  by_cases hi : i < off
  · rw [List.getElem?_append_left (by omega), List.getElem?_take_of_lt hi, if_neg (by omega)]
  · rw [List.getElem?_append_right (by omega), hl]
    by_cases hd : i < off + data.length
    · rw [List.getElem?_append_left (by omega), if_pos (by omega)]
    · rw [List.getElem?_append_right (by omega), List.getElem?_drop, if_neg (by omega)]
      congr 1
      omega

theorem slice_splice_self {bs data : List UInt8} {off : Nat} (h : off + data.length ≤ bs.length) :
    slice (splice bs off data) off data.length = data := by
  have hl : (bs.take off).length = off := by simp only [List.length_take]; omega
  rw [splice, List.append_assoc, slice_append_right (by omega), hl, Nat.sub_self,
    slice_append_left (by omega), slice_zero_self rfl]

/-- An overwrite leaves every range that it does not meet. -/
theorem slice_splice_of_disjoint {bs data : List UInt8} {off pos len : Nat}
    (h : off + data.length ≤ bs.length) (hd : pos + len ≤ off ∨ off + data.length ≤ pos) :
    slice (splice bs off data) pos len = slice bs pos len := by
  apply List.ext_getElem?
  intro i
  simp only [slice, List.getElem?_take, List.getElem?_drop, getElem?_splice h]
  by_cases hi : i < len
  · simp only [hi, if_true]
    rw [if_neg (by omega)]
  · simp only [hi, if_false]

theorem splice_splice {bs a b : List UInt8} {off : Nat} (h : off + a.length ≤ bs.length) :
    splice (splice bs off a) (off + a.length) b = splice bs off (a ++ b) := by
  have hl : (bs.take off ++ a).length = off + a.length := by
    simp only [List.length_append, List.length_take]
    omega
  rw [splice, splice, splice, List.take_left' hl, ← List.drop_drop, List.drop_left' hl,
    List.drop_drop, List.length_append, List.append_assoc, List.append_assoc, List.append_assoc]
  simp only [List.append_assoc, Nat.add_assoc]

/-- The new bytes where a copy has stored them already, elsewhere the old ones. -/
def mix (done : Nat → Bool) (old new : List UInt8) : List UInt8 :=
  new.mapIdx fun i b => if done i then b else old.getD i 0

@[simp] theorem length_mix (done : Nat → Bool) (old new : List UInt8) :
    (mix done old new).length = new.length := List.length_mapIdx

/-- The strings hold the same bytes outside the window of `n` bytes at `k`. -/
def AgreeOutside (k n : Nat) (bs bs' : List UInt8) : Prop :=
  ∀ i, i < k ∨ k + n ≤ i → bs[i]? = bs'[i]?

section Window

variable {bs bs' : List UInt8} {k n off len : Nat}

theorem AgreeOutside.slice_eq (h : AgreeOutside k n bs bs')
    (hd : off + len ≤ k ∨ k + n ≤ off) : slice bs off len = slice bs' off len := by
  apply List.ext_getElem?
  intro i
  rw [getElem?_slice, getElem?_slice]
  split_ifs with hi
  · exact h _ (by omega)
  · rfl

theorem AgreeOutside.slice (h : AgreeOutside (off + k) n bs bs') (len : Nat) :
    AgreeOutside k n (slice bs off len) (slice bs' off len) := by
  intro i hi
  rw [getElem?_slice, getElem?_slice, h _ (by omega)]

/-- A part that covers the window tells the strings apart. -/
theorem AgreeOutside.slice_ne (h : AgreeOutside (off + k) n bs bs') (hk : k + n ≤ len)
    (hne : bs ≠ bs') : ByteString.slice bs off len ≠ ByteString.slice bs' off len := by
  intro he
  apply hne
  apply List.ext_getElem?
  intro i
  by_cases hi : i < off + k ∨ off + k + n ≤ i
  · exact h i hi
  · have hget := congrArg (fun part => part[i - off]?) he
    simp only [getElem?_slice] at hget
    rwa [if_pos (by omega), if_pos (by omega), Nat.add_sub_cancel' (by omega)] at hget

end Window

/-- A string of exactly `n` bytes. -/
@[ext] structure Block (n : Nat) where
  bytes : List UInt8
  length_bytes : bytes.length = n
  deriving DecidableEq

attribute [simp] Block.length_bytes

def Block.ofList (n : Nat) (bs : List UInt8) : Block n :=
  ⟨bs.takeD n 0, List.takeD_length n bs 0⟩

def Block.zero (n : Nat) : Block n :=
  ⟨List.replicate n 0, List.length_replicate⟩

@[simp] theorem Block.bytes_ofList {n : Nat} {bs : List UInt8} (h : bs.length = n) :
    (Block.ofList n bs).bytes = bs := by
  subst h
  exact (List.takeD_eq_take 0 (le_refl _)).trans List.take_length

@[simp] theorem Block.ofList_bytes {n : Nat} (b : Block n) : Block.ofList n b.bytes = b :=
  Block.ext (Block.bytes_ofList b.length_bytes)

def readU8 (bs : List UInt8) (off : Nat) : UInt8 := UInt8.ofNat (ofLE (slice bs off 1))
def readU16 (bs : List UInt8) (off : Nat) : UInt16 := UInt16.ofNat (ofLE (slice bs off 2))
def readU32 (bs : List UInt8) (off : Nat) : UInt32 := UInt32.ofNat (ofLE (slice bs off 4))
def readU64 (bs : List UInt8) (off : Nat) : UInt64 := UInt64.ofNat (ofLE (slice bs off 8))
def readBlock (n : Nat) (bs : List UInt8) (off : Nat) : Block n := Block.ofList n (slice bs off n)

section Words

variable {bs : List UInt8} {off : Nat}

theorem readU8_of_slice {x : UInt8} (h : slice bs off 1 = toLE 1 x.toNat) : readU8 bs off = x := by
  have hx := x.toNat_lt
  rw [readU8, h, ofLE_toLE, Nat.mod_eq_of_lt (by omega), UInt8.ofNat_toNat]

theorem readU16_of_slice {x : UInt16} (h : slice bs off 2 = toLE 2 x.toNat) :
    readU16 bs off = x := by
  have hx := x.toNat_lt
  rw [readU16, h, ofLE_toLE, Nat.mod_eq_of_lt (by omega), UInt16.ofNat_toNat]

theorem readU32_of_slice {x : UInt32} (h : slice bs off 4 = toLE 4 x.toNat) :
    readU32 bs off = x := by
  have hx := x.toNat_lt
  rw [readU32, h, ofLE_toLE, Nat.mod_eq_of_lt (by omega), UInt32.ofNat_toNat]

theorem readU64_of_slice {x : UInt64} (h : slice bs off 8 = toLE 8 x.toNat) :
    readU64 bs off = x := by
  have hx := x.toNat_lt
  rw [readU64, h, ofLE_toLE, Nat.mod_eq_of_lt (by omega), UInt64.ofNat_toNat]

theorem readBlock_of_slice {n : Nat} {b : Block n} (h : slice bs off n = b.bytes) :
    readBlock n bs off = b := by
  rw [readBlock, h, Block.ofList_bytes]

end Words

end ByteString
