import Ume.Event.SegmentFormat
import Ume.Lib.Crc

/-! The checksum of the source as a division of polynomials: which data have the
CRC-32 of IEEE 802.3, and which changes of the data it detects. -/

namespace Ume

open ByteString Polynomial

/-- The generator of the source's table. -/
def crc32Generator : BitVec 32 := 0xED888320#32

/-- The reflected generator of IEEE 802.3. -/
def ieeeGenerator : BitVec 32 := 0xEDB88320#32

/-- The CRC-32 of IEEE 802.3, bit by bit. -/
def ieeeCrc32 (data : List UInt8) : UInt32 :=
  ⟨Crc.run ieeeGenerator (BitVec.allOnes 32) (Crc.dataBits data)⟩ ^^^ 0xFFFFFFFF

theorem and_one_ne_zero_iff (c : UInt32) : c &&& 1 ≠ 0 ↔ c.toBitVec.getLsbD 0 = true := by
  rw [ne_eq, ← UInt32.toBitVec_inj, UInt32.toBitVec_and]
  have hand : c.toBitVec &&& 1#32 = BitVec.setWidth 32 (BitVec.ofBool (c.toBitVec.getLsbD 0)) :=
    BitVec.and_one_eq_setWidth_ofBool_getLsbD
  change ¬(c.toBitVec &&& 1#32 = 0#32) ↔ _
  rw [hand]
  cases c.toBitVec.getLsbD 0 <;> decide

theorem toBitVec_crc32TableStep (c : UInt32) :
    (crc32TableStep c).toBitVec = Crc.bitStep crc32Generator c.toBitVec false := by
  rw [crc32TableStep, Crc.bitStep, Bool.xor_false]
  by_cases hbit : c.toBitVec.getLsbD 0 = true
  · rw [if_pos ((and_one_ne_zero_iff c).mpr hbit), if_pos hbit, UInt32.toBitVec_xor,
      BitVec.xor_comm]
    rfl
  · rw [if_neg (mt (and_one_ne_zero_iff c).mp hbit), if_neg hbit]
    rfl

theorem toBitVec_iterate_crc32TableStep (c : UInt32) (k : Nat) :
    (crc32TableStep^[k] c).toBitVec =
      Crc.run crc32Generator c.toBitVec (List.replicate k false) := by
  induction k generalizing c with
  | zero => rfl
  | succ k ih =>
    rw [Function.iterate_succ_apply, ih, toBitVec_crc32TableStep]
    rfl

/-- The entry of the table for a byte is what the byte leaves in a register of zeros. -/
theorem toBitVec_kCrc32Table (b : UInt8) :
    (kCrc32Table.getD b.toNat 0).toBitVec = Crc.run crc32Generator 0#32 (Crc.byteBits b) := by
  have hb : b.toNat < 256 := b.toNat_lt
  have hget : kCrc32Table.getD b.toNat 0 = crc32TableStep^[8] (UInt32.ofNat b.toNat) := by
    rw [kCrc32Table, generateCrc32Table, List.getD_eq_getElem?_getD, List.getElem?_map,
      List.getElem?_range hb]
    rfl
  have hshift : (UInt32.ofNat b.toNat).toBitVec >>> 8 = 0#32 := by
    apply BitVec.eq_of_toNat_eq
    simpa [Nat.shiftRight_eq_div_pow] using hb
  have hlow : Crc.lowByte (UInt32.ofNat b.toNat).toBitVec = b := by
    apply UInt8.toNat_inj.mp
    simp [Crc.lowByte]
  rw [hget, toBitVec_iterate_crc32TableStep, Crc.run_replicate_false, hshift, BitVec.zero_xor,
    ← Crc.byteBits_lowByte, hlow]

theorem toBitVec_crc32Update (c : UInt32) (b : UInt8) :
    (crc32Update c b).toBitVec = Crc.run crc32Generator c.toBitVec (Crc.byteBits b) := by
  have hlow : ((c ^^^ b.toUInt32) &&& 0xFF).toUInt8 = Crc.lowByte c.toBitVec ^^^ b := by
    apply UInt8.toBitVec_inj.mp
    apply BitVec.eq_of_getLsbD_eq
    intro i hi
    have hones : (255#8)[i] = true := BitVec.getElem_allOnes i hi
    simp [Crc.lowByte, hi, hones]
  rw [crc32Update, UInt32.toBitVec_xor, hlow, toBitVec_kCrc32Table,
    Crc.run_byteBits crc32Generator c.toBitVec]
  rfl

theorem toBitVec_foldl_crc32Update (c : UInt32) (data : List UInt8) :
    (data.foldl crc32Update c).toBitVec =
      Crc.run crc32Generator c.toBitVec (Crc.dataBits data) := by
  induction data generalizing c with
  | nil => rfl
  | cons b data ih =>
    rw [List.foldl_cons, ih, toBitVec_crc32Update, Crc.dataBits, Crc.dataBits, List.flatMap_cons,
      Crc.run, Crc.run, Crc.run, List.foldl_append]

theorem computeCrc32_eq (data : List UInt8) :
    computeCrc32 data =
      ⟨Crc.run crc32Generator (BitVec.allOnes 32) (Crc.dataBits data)⟩ ^^^ 0xFFFFFFFF := by
  rw [computeCrc32]
  split_ifs with hnil
  · rw [hnil]
    decide
  · congr 1
    exact UInt32.toBitVec_inj.mp (toBitVec_foldl_crc32Update _ data)

/-- The two generators differ in two neighbouring terms. -/
theorem isCoprime_generators :
    IsCoprime (Crc.generator crc32Generator) (Crc.generator ieeeGenerator) := by
  have hdiff : Crc.generator crc32Generator + Crc.generator ieeeGenerator = X ^ 10 * (X + 1) := by
    have hxor : crc32Generator ^^^ ieeeGenerator = 0x300000#32 := by decide
    rw [Crc.generator_add_generator, hxor, Crc.poly]
    simp [Finset.sum_range_succ, Crc.bit]
    ring
  have hcop : IsCoprime (Crc.generator crc32Generator) (X ^ 10 * (X + 1)) :=
    ((Crc.isCoprime_generator_X (by decide) (by decide)).pow_right).mul_right
      (Crc.isCoprime_generator_X_add_one (by decide))
  rw [← hdiff, add_comm] at hcop
  exact (IsCoprime.add_mul_left_right_iff (z := 1)).mp (by rwa [mul_one])

/-- The checksum is the CRC-32 of IEEE 802.3 for just the data whose polynomial, divided
by the product of the generators of both, leaves a remainder of at most 32 bits. -/
theorem computeCrc32_eq_ieeeCrc32_iff (data : List UInt8) :
    computeCrc32 data = ieeeCrc32 data ↔
      (Crc.dividend (BitVec.allOnes 32) (Crc.dataBits data) %ₘ
        (Crc.generator crc32Generator * Crc.generator ieeeGenerator)).degree < 32 := by
  rw [computeCrc32_eq, ieeeCrc32, UInt32.xor_left_inj, UInt32.ofBitVec.injEq]
  exact Crc.run_eq_run_iff (by decide) isCoprime_generators _ _

/-- The check value of the standard is the checksum of the nine digits. -/
theorem computeCrc32_digits :
    ieeeCrc32 [0x31, 0x32, 0x33, 0x34, 0x35, 0x36, 0x37, 0x38, 0x39] = 0xCBF43926 ∧
      computeCrc32 [0x31, 0x32, 0x33, 0x34, 0x35, 0x36, 0x37, 0x38, 0x39] = 0x11866F1A := by
  decide +kernel

/-- Four bytes are as wide as the register, so that the checksum tells apart any two
strings that differ inside such a window. -/
theorem computeCrc32_ne_of_burst {data data' : List UInt8} {k : Nat}
    (hlen : data.length = data'.length) (hne : data ≠ data')
    (h : AgreeOutside k 4 data data') : computeCrc32 data ≠ computeCrc32 data' := by
  have hsplit (bs : List UInt8) : bs = bs.take k ++ slice bs k 4 ++ bs.drop (k + 4) := by
    rw [List.append_assoc, slice, ← List.drop_drop, List.take_append_drop, List.take_append_drop]
  have hbefore : data'.take k = data.take k := by
    have hz : slice data 0 k = slice data' 0 k := h.slice_eq (.inl (by omega))
    exact hz.symm
  have hafter : data'.drop (k + 4) = data.drop (k + 4) := by
    apply List.ext_getElem?
    intro i
    rw [List.getElem?_drop, List.getElem?_drop, h _ (.inr (by omega))]
  have hmid : slice data k 4 ≠ slice data' k 4 := AgreeOutside.slice_ne (k := 0) h (by omega) hne
  have hlenmid : (slice data k 4).length = (slice data' k 4).length := by
    rw [length_slice, length_slice, hlen]
  have hwidth : (slice data k 4).length ≤ 4 := by
    rw [length_slice]
    exact min_le_left 4 _
  rw [computeCrc32_eq, computeCrc32_eq, ne_eq, UInt32.xor_left_inj, UInt32.ofBitVec.injEq,
    hsplit data, hsplit data', hbefore, hafter, Crc.dataBits_append, Crc.dataBits_append,
    Crc.dataBits_append, Crc.dataBits_append]
  refine Crc.run_ne_of_burst (by decide) (by decide) _ _ _ ?_ ?_ ?_
  · rw [Crc.length_dataBits, Crc.length_dataBits, hlenmid]
  · rw [Crc.length_dataBits]
    omega
  · exact fun he => hmid (Crc.dataBits_injective he)

/-- Changes inside a window of four bytes change the checksum, and the reader hands out no
record whose event bytes were changed so behind an unchanged header. -/
theorem burst_detected :
    (∀ (data data' : List UInt8) (k : Nat), data.length = data'.length → data ≠ data' →
      AgreeOutside k 4 data data' → computeCrc32 data ≠ computeCrc32 data') ∧
    ∀ (dir : Directory) (r : JournalReader) (data : List UInt8) (k : Nat),
      computeCrc32 (slice (data.drop r.currentOffset) 32 128) =
        (JournalRecordHeader.ofBytes (data.drop r.currentOffset)).payloadCrc32 →
      data.length = r.data.length → data ≠ r.data → k + 4 ≤ 128 →
      AgreeOutside (r.currentOffset + 32 + k) 4 data r.data →
      ∀ e r', JournalReader.readNextStep dir r ≠ .inr ⟨.kOk, some e, r'⟩ := by
  refine ⟨fun data data' k hlen hne h => computeCrc32_ne_of_burst hlen hne h, ?_⟩
  intro dir r data k hcrc hlen hne hk h e r' hstep
  have hcrc' := (JournalReader.readNextStep_eq_ok hstep).1
  have hheader : (JournalRecordHeader.ofBytes (data.drop r.currentOffset)).payloadCrc32 =
      (JournalRecordHeader.ofBytes (r.data.drop r.currentOffset)).payloadCrc32 := by
    simp only [JournalRecordHeader.ofBytes, readU32, slice_drop]
    rw [h.slice_eq (.inl (by omega))]
  rw [slice_drop] at hcrc hcrc'
  have hparts : (slice data (r.currentOffset + 32) 128).length =
      (slice r.data (r.currentOffset + 32) 128).length := by
    rw [length_slice, length_slice, hlen]
  exact computeCrc32_ne_of_burst hparts (h.slice_ne hk hne) (h.slice 128)
    (hcrc.trans (hheader.trans hcrc'.symm))

/-- A segment with one record, and the same with one byte of its event changed. -/
def oneRecord : List UInt8 := List.replicate 64 0 ++ recordBytes 1 {}

theorem burst_detected_oneRecord :
    computeCrc32 [0, 0] ≠ computeCrc32 [0, 1] ∧
      ∀ e r', JournalReader.readNextStep ∅
        { currentMmap := some (oneRecord.set 100 7), currentOffset := 64 } ≠
          .inr ⟨.kOk, some e, r'⟩ := by
  have hset (bs : List UInt8) (j : Nat) (b : UInt8) : AgreeOutside j 4 bs (bs.set j b) := by
    intro i hi
    rw [List.getElem?_set_ne (by omega)]
  exact ⟨burst_detected.1 [0, 0] [0, 1] 1 rfl (by decide) (hset [0, 0] 1 1),
    burst_detected.2 ∅ _ oneRecord 4 (by decide +kernel) (by decide +kernel) (by decide +kernel)
      (by omega) (hset oneRecord 100 7)⟩

end Ume
