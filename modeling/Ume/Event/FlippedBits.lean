import Ume.Event.Corruption
import Ume.Event.Crc32
import Ume.Event.ReaderSafety
import Ume.Lib.CrcDistance

/-! Bits that flip in a journal at rest. Up to three of them in the checked part of a segment
header, or in a record, are found out by the checksums, wherever they are: what the reader
hands out at a record's place is the event that was written there. -/

namespace Ume

open ByteString

def bitDistance (data data' : List UInt8) : Nat :=
  Crc.distance (Crc.dataBits data) (Crc.dataBits data')

theorem bitDistance_append {as as' : List UInt8} (bs bs' : List UInt8)
    (h : as.length = as'.length) :
    bitDistance (as ++ bs) (as' ++ bs') = bitDistance as as' + bitDistance bs bs' := by
  rw [bitDistance, Crc.dataBits_append, Crc.dataBits_append]
  apply Crc.distance_append
  rw [Crc.length_dataBits, Crc.length_dataBits, h]

@[simp] theorem bitDistance_self (data : List UInt8) : bitDistance data data = 0 :=
  Crc.distance_self _

/-! ### Words as bits -/

theorem testBit_ofLE_cons (b : UInt8) (bs : List UInt8) (i : Nat) :
    (ofLE (b :: bs)).testBit i =
      if i < 8 then b.toNat.testBit i else (ofLE bs).testBit (i - 8) := by
  have hb : b.toNat < 2 ^ 8 := b.toNat_lt
  have hsum : ofLE (b :: bs) = 2 ^ 8 * ofLE bs + b.toNat := by
    rw [ofLE]
    omega
  rw [hsum, Nat.testBit_two_pow_mul_add _ hb]

theorem dataBits_eq_testBit (bs : List UInt8) :
    Crc.dataBits bs = (List.range (8 * bs.length)).map (ofLE bs).testBit := by
  induction bs with
  | nil => rfl
  | cons b bs ih =>
    have hlow : Crc.byteBits b = (List.range 8).map (ofLE (b :: bs)).testBit := by
      rw [Crc.byteBits, List.map_inj_left]
      intro i hi
      rw [testBit_ofLE_cons, if_pos (List.mem_range.mp hi)]
      rfl
    have hhigh : Crc.dataBits bs =
        ((List.range (8 * bs.length)).map (8 + ·)).map (ofLE (b :: bs)).testBit := by
      rw [ih, List.map_map, List.map_inj_left]
      intro i _
      simp [testBit_ofLE_cons]
    rw [List.length_cons, Nat.mul_add, Nat.mul_one, Nat.add_comm, List.range_add, List.map_append,
      ← hlow, ← hhigh]
    rfl

theorem dataBits_slice_readU32 {bs : List UInt8} {off : Nat} (h : off + 4 ≤ bs.length) :
    Crc.dataBits (slice bs off 4) = Crc.registerBits (readU32 bs off).toBitVec := by
  have hlen : (slice bs off 4).length = 4 := by
    rw [length_slice]
    omega
  rw [dataBits_eq_testBit, hlen, Crc.registerBits, List.map_inj_left]
  intro i hi
  have hi : i < 32 := List.mem_range.mp hi
  have hword : (readU32 bs off).toBitVec = BitVec.ofNat 32 (ofLE (slice bs off 4)) := rfl
  rw [hword, BitVec.getLsbD_ofNat]
  simp [hi]

/-! ### The checksum -/

/-- No pattern of three bits in 132 bytes is a multiple of the generator. -/
theorem separated_crc32Generator : Crc.separated crc32Generator 70742 1055 = true := by
  decide +kernel

theorem four_le_distance_computeCrc32 {data data' : List UInt8} (hlen : data.length = data'.length)
    (hshort : data.length ≤ 128) (hne : data ≠ data') :
    4 ≤ bitDistance data data' + Crc.distance (Crc.registerBits (computeCrc32 data).toBitVec)
      (Crc.registerBits (computeCrc32 data').toBitVec) := by
  have hbits : (Crc.dataBits data).length = (Crc.dataBits data').length := by
    rw [Crc.length_dataBits, Crc.length_dataBits, hlen]
  have hroom : (Crc.dataBits data).length + 32 ≤ 1055 + 1 := by
    rw [Crc.length_dataBits]
    omega
  have h := Crc.four_le_distance (by decide) (by decide) separated_crc32Generator
    (BitVec.allOnes 32) hbits hroom (Crc.dataBits_injective.ne hne)
  have hcancel (r r' o : BitVec 32) :
      Crc.distance (Crc.registerBits (r ^^^ o)) (Crc.registerBits (r' ^^^ o)) =
        Crc.distance (Crc.registerBits r) (Crc.registerBits r') := by
    have hxor : (r ^^^ o) ^^^ (r' ^^^ o) = r ^^^ r' := by
      rw [BitVec.xor_comm r' o, BitVec.xor_assoc, ← BitVec.xor_assoc o, BitVec.xor_self,
        BitVec.zero_xor]
    rw [Crc.distance, ← Crc.registerBits_xor, hxor, Crc.registerBits_xor, Crc.distance]
  rw [computeCrc32_eq, computeCrc32_eq, UInt32.toBitVec_xor, UInt32.toBitVec_xor, hcancel]
  exact h

/-- A string and its checksum at `crc`, of which up to three bits have flipped. -/
theorem eq_of_flips {data data' crc crc' : List UInt8} (hlen : data.length = data'.length)
    (hshort : data.length ≤ 128)
    (hcrc : Crc.dataBits crc = Crc.registerBits (computeCrc32 data).toBitVec)
    (hcrc' : Crc.dataBits crc' = Crc.registerBits (computeCrc32 data').toBitVec)
    (hflips : bitDistance (data ++ crc) (data' ++ crc') ≤ 3) : data = data' := by
  by_contra hne
  have h := four_le_distance_computeCrc32 hlen hshort hne
  have hcrcs : bitDistance crc crc' = Crc.distance (Crc.registerBits (computeCrc32 data).toBitVec)
      (Crc.registerBits (computeCrc32 data').toBitVec) := by
    rw [bitDistance, hcrc, hcrc']
  have hsum := bitDistance_append crc crc' hlen
  omega

/-! ### Records and segment headers -/

theorem take_eq_parts (bs : List UInt8) : bs.take totalRecordSize =
    (bs.take 20 ++ slice bs 20 4) ++ (slice bs 24 8 ++ slice bs 32 128) := by
  have hheader := slice_append_slice bs 0 20 4
  have hrest := slice_append_slice bs 24 8 128
  have hall := slice_append_slice bs 0 24 136
  rw [hrest, show bs.take 20 = slice bs 0 20 from rfl, hheader]
  exact hall.symm

/-- The flips of a record are those of its checked header and those of what is behind. -/
theorem bitDistance_take {bs bs' : List UInt8} (h : totalRecordSize ≤ bs.length)
    (h' : totalRecordSize ≤ bs'.length) :
    bitDistance (bs.take totalRecordSize) (bs'.take totalRecordSize) =
      bitDistance (bs.take 20 ++ slice bs 20 4) (bs'.take 20 ++ slice bs' 20 4) +
        (bitDistance (slice bs 24 8) (slice bs' 24 8) +
          bitDistance (slice bs 32 128) (slice bs' 32 128)) := by
  unfold totalRecordSize at h h'
  have hfront : (bs.take 20 ++ slice bs 20 4).length = (bs'.take 20 ++ slice bs' 20 4).length := by
    simp only [List.length_append, List.length_take, length_slice]
    omega
  have hreserved : (slice bs 24 8).length = (slice bs' 24 8).length := by
    simp only [length_slice]
    omega
  rw [take_eq_parts, take_eq_parts, bitDistance_append _ _ hfront,
    bitDistance_append _ _ hreserved]

theorem ofBytes_recordBytes (seq : UInt64) (e : Event) :
    JournalRecordHeader.ofBytes (recordBytes seq e) = JournalWriter.recordHeader seq e :=
  JournalRecordHeader.ofBytes_toBytes_append _ _

theorem take_recordBytes (seq : UInt64) (e : Event) :
    (recordBytes seq e).take 20 = (JournalWriter.recordHeader seq e).toBytes.take 20 := by
  rw [recordBytes, List.take_append_of_le_length (by simp)]

/-- A slot whose header checks and that is near a record has the header of that record. -/
theorem take_eq_of_flips {bs : List UInt8} {seq : UInt64} {e : Event}
    (hlen : totalRecordSize ≤ bs.length)
    (hcrc : computeCrc32 (bs.take 20) = (JournalRecordHeader.ofBytes bs).headerCrc32)
    (hflips : bitDistance (recordBytes seq e) (bs.take totalRecordSize) ≤ 3) :
    (recordBytes seq e).take 20 = bs.take 20 := by
  have hwritten : totalRecordSize ≤ (recordBytes seq e).length := by simp
  have hparts := bitDistance_take hwritten hlen
  rw [List.take_of_length_le (by simp)] at hparts
  unfold totalRecordSize at hlen
  have hstored : computeCrc32 ((recordBytes seq e).take 20) = readU32 (recordBytes seq e) 20 := by
    have hfield := congrArg JournalRecordHeader.headerCrc32 (ofBytes_recordBytes seq e)
    rw [take_recordBytes, recordHeader_crc]
    exact hfield.symm
  have hchecked : bitDistance ((recordBytes seq e).take 20 ++ slice (recordBytes seq e) 20 4)
      (bs.take 20 ++ slice bs 20 4) ≤ 3 := by omega
  refine eq_of_flips ?_ ?_ ?_ ?_ hchecked
  · simp [totalRecordSize]
    omega
  · simp [totalRecordSize]
  · rw [dataBits_slice_readU32 (by simp [totalRecordSize]), hstored]
  · rw [dataBits_slice_readU32 (by omega), hcrc]
    rfl

theorem readU32_eq_of_take {bs : List UInt8} {seq : UInt64} {e : Event}
    (h : (recordBytes seq e).take 20 = bs.take 20) {off : Nat} (hoff : off + 4 ≤ 20) :
    readU32 bs off = readU32 (recordBytes seq e) off := by
  rw [← readU32_take hoff, ← h, readU32_take hoff]

/-- And if its payload checks too, it has the event of that record. -/
theorem payload_eq_of_flips {bs : List UInt8} {seq : UInt64} {e : Event}
    (hlen : totalRecordSize ≤ bs.length) (hheader : (recordBytes seq e).take 20 = bs.take 20)
    (hcrc : computeCrc32 (slice bs 32 128) = (JournalRecordHeader.ofBytes bs).payloadCrc32)
    (hflips : bitDistance (recordBytes seq e) (bs.take totalRecordSize) ≤ 3) :
    slice bs 32 128 = e.toBytes := by
  have hwritten : slice (recordBytes seq e) 32 128 = e.toBytes := by
    rw [recordBytes, slice_append_right (by simp), JournalRecordHeader.length_toBytes,
      Nat.sub_self, slice_zero_self (by simp)]
  have hfield : (JournalRecordHeader.ofBytes bs).payloadCrc32 = computeCrc32 e.toBytes :=
    (readU32_eq_of_take hheader (by decide)).trans
      (congrArg JournalRecordHeader.payloadCrc32 (ofBytes_recordBytes seq e))
  have hfull : totalRecordSize ≤ (recordBytes seq e).length := by simp
  have hparts := bitDistance_take hfull hlen
  rw [List.take_of_length_le (by simp), hwritten] at hparts
  unfold totalRecordSize at hlen
  have hlength : e.toBytes.length = (slice bs 32 128).length := by
    rw [length_slice, Event.length_toBytes]
    omega
  by_contra hne
  have hfour := four_le_distance_computeCrc32 hlength (by simp) (Ne.symm hne)
  rw [hcrc, hfield, Crc.distance_self] at hfour
  omega

theorem verdict_of_flips {data : List UInt8} {off : Nat} {seq : UInt64} {e e' : Event}
    {size : UInt32} (hflips : bitDistance (recordBytes seq e) (slice data off totalRecordSize) ≤ 3)
    (hv : verdict data off = .deliver e' size) : e' = e ∧ size = 160 := by
  obtain ⟨⟨hfits, hmagic, hcrc⟩, hpayload, hvalid⟩ := deliverable_iff.mpr ⟨e', size, hv⟩
  have hlen : totalRecordSize ≤ (data.drop off).length := by
    rw [List.length_drop]
    omega
  have hheader := take_eq_of_flips hlen hcrc hflips
  have hevent := payload_eq_of_flips hlen hheader hpayload hflips
  have hsize : (JournalRecordHeader.ofBytes (data.drop off)).recordSize = 160 :=
    (readU32_eq_of_take hheader (by decide)).trans
      (congrArg JournalRecordHeader.recordSize (ofBytes_recordBytes seq e))
  rw [verdict_of_validHeader ⟨hfits, hmagic, hcrc⟩, if_neg (not_not.mpr hpayload),
    EventSerializer.deserialize_of_validate hvalid, hevent, Event.ofBytes_toBytes] at hv
  obtain ⟨he, hs⟩ := Verdict.deliver.inj hv
  exact ⟨he.symm, hs.symm.trans hsize⟩

/-- A segment header that loads and is near a valid one has the fields of that one. -/
theorem header_eq_of_flips {data : List UInt8} {header : JournalSegmentHeader}
    (hvalid : header.Valid) (hload : validSegment data = true)
    (hflips : bitDistance (header.toBytes.take 36) (data.take 36) ≤ 3) :
    data.take 32 = header.toBytes.take 32 := by
  simp only [validSegment, Bool.and_eq_true, decide_eq_true_eq, beq_iff_eq] at hload
  obtain ⟨⟨hlen, -⟩, hcrc⟩ := hload
  unfold segmentHeaderSize at hlen
  have hsplit (bs : List UInt8) : bs.take 36 = bs.take 32 ++ slice bs 32 4 :=
    (slice_append_slice bs 0 32 4).symm
  have hstored : computeCrc32 (header.toBytes.take 32) = readU32 header.toBytes 32 := by
    have hfield := congrArg JournalSegmentHeader.headerCrc32
      (JournalSegmentHeader.ofBytes_toBytes_append header [])
    rw [List.append_nil] at hfield
    rw [hvalid.crc]
    exact hfield.symm
  rw [hsplit, hsplit] at hflips
  refine (eq_of_flips ?_ ?_ ?_ ?_ hflips).symm
  · simp
    omega
  · simp
  · rw [dataBits_slice_readU32 (by simp), hstored]
  · rw [dataBits_slice_readU32 (by omega), hcrc]
    rfl

/-! ### Whole readings -/

namespace JournalReader

theorem loadCurrentSegment_eq_ok {dir : Directory} {r r₁ : JournalReader}
    (h : loadCurrentSegment dir r = (.kOk, r₁)) :
    ∃ path data, r.segmentPaths[r.currentSegmentIndex]? = some path ∧
      loadSegment dir path = some data ∧ r₁ = r.loaded data := by
  cases hp : r.segmentPaths[r.currentSegmentIndex]? with
  | none =>
    rw [loadCurrentSegment_of_none dir hp] at h
    cases h
  | some path =>
    cases hl : loadSegment dir path with
    | none =>
      obtain ⟨status, m, hne, hbad⟩ := loadCurrentSegment_of_bad hp hl
      rw [hbad] at h
      exact absurd (congrArg Prod.fst h) hne
    | some data =>
      rw [loadCurrentSegment_of_some hp hl] at h
      exact ⟨path, data, rfl, hl, (congrArg Prod.snd h).symm⟩

/-- What is mapped is a segment that has loaded, and it is the one the index says. -/
def InSegment (dir : Directory) (r : JournalReader) : Prop :=
  r.Bounded ∧ ∃ path, r.segmentPaths[r.currentSegmentIndex]? = some path ∧
    loadSegment dir path = some r.data

theorem inSegment_of_load {dir : Directory} {r r₁ : JournalReader}
    (h : loadCurrentSegment dir r = (.kOk, r₁)) :
    r₁.InSegment dir ∧ r₁.segmentPaths = r.segmentPaths := by
  obtain ⟨path, data, hp, hl, rfl⟩ := loadCurrentSegment_eq_ok h
  exact ⟨⟨loaded_bounded (length_lt_of_loadSegment hl), path, hp, hl⟩, rfl⟩

/-- A pass that goes on stays in its segment or is in the next one. -/
theorem InSegment.pass {dir : Directory} {r r₁ : JournalReader} (hr : r.InSegment dir)
    (h : readNextStep dir r = .inl r₁) : r₁.InSegment dir ∧ r₁.segmentPaths = r.segmentPaths := by
  cases hv : verdict r.data r.currentOffset with
  | endOfSegment =>
    rw [readNextStep_of_end dir hr.1 hv] at h
    rcases advanceSegment_cases dir r with ⟨hok, ha⟩ | ⟨-, ha⟩
    · rw [ha] at h
      obtain rfl := Sum.inl.inj h
      have hload : loadCurrentSegment dir r.nextSegment =
          (.kOk, (loadCurrentSegment dir r.nextSegment).2) := Prod.ext hok rfl
      obtain ⟨hin, hpaths⟩ := inSegment_of_load hload
      exact ⟨hin, hpaths⟩
    · rw [ha] at h
      cases h
  | skip n =>
    obtain ⟨hstep, hb⟩ := readNextStep_of_skip dir hr.1 hv
    obtain rfl := Sum.inl.inj (hstep.symm.trans h)
    exact ⟨⟨hb, hr.2⟩, rfl⟩
  | deliver e size =>
    rw [(readNextStep_of_deliver dir hr.1 hv).1] at h
    cases h

theorem InSegment.deliver {dir : Directory} {r r₁ : JournalReader} {e : Event}
    (hr : r.InSegment dir) (h : readNextStep dir r = .inr ⟨.kOk, some e, r₁⟩) :
    (∃ size, verdict r.data r.currentOffset = .deliver e size) ∧ r₁.InSegment dir ∧
      r₁.segmentPaths = r.segmentPaths := by
  cases hv : verdict r.data r.currentOffset with
  | endOfSegment =>
    rw [readNextStep_of_end dir hr.1 hv] at h
    rcases advanceSegment_cases dir r with ⟨-, ha⟩ | ⟨-, ha⟩
    · cases ha.symm.trans h
    · cases ha.symm.trans h
  | skip n =>
    rw [(readNextStep_of_skip dir hr.1 hv).1] at h
    cases h
  | deliver e' size =>
    obtain ⟨hstep, hb⟩ := readNextStep_of_deliver dir hr.1 hv
    cases hstep.symm.trans h
    exact ⟨⟨size, rfl⟩, ⟨hb, hr.2⟩, rfl⟩

end JournalReader

/-- Every event that is handed out comes from the segment its delivery names. -/
theorem Reads.verdict_of_mem {dir : Directory} {r r' : JournalReader} {es : List Delivery}
    (h : Reads dir r es r') (hr : r.InSegment dir) {d : Delivery} (hd : d ∈ es) :
    ∃ path data size, r.segmentPaths[d.segment]? = some path ∧ loadSegment dir path = some data ∧
      verdict data d.offset = .deliver d.event size := by
  induction h with
  | stop => simp at hd
  | pass hstep _ ih =>
    obtain ⟨hnext, hpaths⟩ := hr.pass hstep
    have h := ih hnext hd
    rwa [hpaths] at h
  | deliver hstep _ ih =>
    obtain ⟨⟨size, hv⟩, hnext, hpaths⟩ := hr.deliver hstep
    rcases List.mem_cons.mp hd with rfl | hd
    · obtain ⟨-, path, hp, hl⟩ := hr
      exact ⟨path, _, size, hp, hl, hv⟩
    · have h := ih hnext hd
      rwa [hpaths] at h

/-- A segment as it was written, and the bytes that are found of it: at most three bits have
flipped in the checked part of its header, and at most three in each record. -/
structure FlippedSegment where
  header : JournalSegmentHeader
  header_valid : header.Valid
  records : List (UInt64 × Event)
  data : List UInt8
  length_data : segmentHeaderSize + totalRecordSize * records.length ≤ data.length
  header_flips : bitDistance (header.toBytes.take 36) (data.take 36) ≤ 3
  record_flips : ∀ k seq e, records[k]? = some (seq, e) → bitDistance (recordBytes seq e)
    (slice data (segmentHeaderSize + totalRecordSize * k) totalRecordSize) ≤ 3

/-- However many segments are read and wherever the bits have flipped, an event that is handed
out at the place of a record is the event that was written there, and its segment has the
identity it was given. -/
theorem flipped_bits_found_out {dir : Directory} {paths : List String} {r₀ r r' : JournalReader}
    {es : List Delivery} (hopen : JournalReader.openPaths dir r₀ paths = (.kOk, r))
    (hreads : Reads dir r es r') {d : Delivery} (hd : d ∈ es) {path : String}
    (hpath : paths[d.segment]? = some path) (s : FlippedSegment)
    (hfile : MmapFile.openReadOnly dir path = .ok s.data) :
    s.data.take 32 = s.header.toBytes.take 32 ∧
      ∀ k seq e, s.records[k]? = some (seq, e) →
        d.offset = segmentHeaderSize + totalRecordSize * k → d.event = e := by
  obtain ⟨hin, hpaths⟩ := JournalReader.inSegment_of_load hopen
  obtain ⟨path', data, size, hp, hl, hv⟩ := hreads.verdict_of_mem hin hd
  have hsame : path' = path := by
    rw [hpaths] at hp
    exact Option.some.inj (hp.symm.trans hpath)
  subst hsame
  have hvalid : validSegment s.data = true ∧ data = s.data := by
    simp only [loadSegment, hfile, Option.ite_none_right_eq_some, Option.some.injEq] at hl
    exact ⟨hl.1, hl.2.symm⟩
  obtain ⟨hload, rfl⟩ := hvalid
  refine ⟨header_eq_of_flips s.header_valid hload s.header_flips, fun k seq e hrec hoff => ?_⟩
  rw [hoff] at hv
  exact (verdict_of_flips (s.record_flips k seq e hrec) hv).1

section Reserved

/-- The header of a blank record with a bit set in the bytes that nothing checks. -/
def strayHeader : JournalRecordHeader :=
  { JournalWriter.recordHeader 1 {} with reserved := Block.ofList 8 [1] }

def straySlot : List UInt8 := strayHeader.toBytes ++ ({} : Event).toBytes

theorem length_straySlot : straySlot.length = totalRecordSize := by
  simp [straySlot, totalRecordSize]

theorem JournalRecordHeader.toBytes_setReserved (h : JournalRecordHeader) (b : Block 8) :
    ∃ front, h.toBytes = front ++ h.reserved.bytes ∧
      ({ h with reserved := b } : JournalRecordHeader).toBytes = front ++ b.bytes :=
  ⟨_, rfl, rfl⟩

theorem bitDistance_straySlot : bitDistance (recordBytes 1 {}) straySlot = 1 := by
  have hlen : (JournalWriter.recordHeader 1 {}).toBytes.length = strayHeader.toBytes.length := by
    simp
  have hheader : bitDistance (JournalWriter.recordHeader 1 {}).toBytes strayHeader.toBytes =
      bitDistance (Block.zero 8).bytes (Block.ofList 8 [1]).bytes := by
    obtain ⟨front, hwritten, hstray⟩ :=
      (JournalWriter.recordHeader 1 {}).toBytes_setReserved (Block.ofList 8 [1])
    rw [hwritten, strayHeader, hstray, bitDistance_append _ _ rfl, bitDistance_self, Nat.zero_add]
    rfl
  rw [recordBytes, straySlot, bitDistance_append _ _ hlen, bitDistance_self, hheader]
  decide

def strayData : List UInt8 :=
  (JournalWriter.segmentHeader ⟨fun _ => 0, fun _ => none⟩ 0 1048576).toBytes ++ straySlot

theorem drop_strayData : strayData.drop segmentHeaderSize = straySlot :=
  List.drop_left' (JournalSegmentHeader.length_toBytes _)

theorem length_strayData : strayData.length = segmentHeaderSize + totalRecordSize := by
  rw [strayData, List.length_append, length_straySlot, JournalSegmentHeader.length_toBytes]
  rfl

theorem slice_strayData : slice strayData segmentHeaderSize totalRecordSize = straySlot := by
  rw [slice, drop_strayData, List.take_of_length_le length_straySlot.le]

theorem header_flips_strayData : bitDistance
    ((JournalWriter.segmentHeader ⟨fun _ => 0, fun _ => none⟩ 0 1048576).toBytes.take 36)
    (strayData.take 36) ≤ 3 := by
  rw [strayData, List.take_append_of_le_length (by simp), bitDistance_self]
  exact Nat.zero_le 3

theorem record_flips_strayData : ∀ k seq e, [((1 : UInt64), ({} : Event))][k]? = some (seq, e) →
    bitDistance (recordBytes seq e)
      (slice strayData (segmentHeaderSize + totalRecordSize * k) totalRecordSize) ≤ 3 := by
  intro k seq e h
  cases k with
  | zero =>
    obtain ⟨rfl, rfl⟩ := Prod.mk.inj (Option.some.inj h)
    rw [Nat.mul_zero, Nat.add_zero, slice_strayData, bitDistance_straySlot]
    decide
  | succ k => simp at h

theorem header_valid_strayData :
    (JournalWriter.segmentHeader ⟨fun _ => 0, fun _ => none⟩ 0 1048576).Valid :=
  segmentHeader_valid _ _ _

theorem le_length_strayData : segmentHeaderSize +
    totalRecordSize * [((1 : UInt64), ({} : Event))].length ≤ strayData.length :=
  length_strayData.ge

def FlippedSegment.stray : FlippedSegment where
  header := JournalWriter.segmentHeader ⟨fun _ => 0, fun _ => none⟩ 0 1048576
  header_valid := header_valid_strayData
  records := [(1, {})]
  data := strayData
  length_data := le_length_strayData
  header_flips := header_flips_strayData
  record_flips := record_flips_strayData

theorem scans_strayData : Scans strayData segmentHeaderSize [(64, {})] := by
  have hfirst : verdict strayData segmentHeaderSize = .deliver {} 160 := by
    have hdrop : strayData.drop segmentHeaderSize =
        strayHeader.toBytes ++ (({} : Event).toBytes ++ []) := by
      rw [drop_strayData, List.append_nil, straySlot]
    have hcrc : computeCrc32 (strayHeader.toBytes.take 20) = strayHeader.headerCrc32 := by
      have htake : strayHeader.toBytes.take 20 =
          (JournalWriter.recordHeader 1 {}).toBytes.take 20 := by
        simp [strayHeader, JournalRecordHeader.toBytes, List.take_append]
      rw [htake]
      exact recordHeader_crc 1 {}
    have hv := verdict_header hdrop rfl hcrc rfl
    rwa [if_pos EventSerializer.accepts_blank] at hv
  have hend : verdict strayData (segmentHeaderSize + 160) = .endOfSegment := by
    apply verdict_endOfSegment_of_size
    rw [length_strayData]
    decide
  exact (scans_deliver_iff hfirst).mpr ((scans_end_iff hend).mpr rfl)

/-- A bit that nothing checks has flipped, and the record is read as it was written. -/
theorem flipped_bits_found_out_stray : ∃ (s : FlippedSegment) (dir : Directory)
    (r r' : JournalReader) (d : Delivery),
    MmapFile.openReadOnly dir (JournalWriter.buildSegmentPath 0) = .ok s.data ∧
      JournalReader.openSegment dir {} (JournalWriter.buildSegmentPath 0) = (.kOk, r) ∧
      Reads dir r [d] r' ∧ s.records = [(1, {})] ∧
      bitDistance (recordBytes 1 {}) (slice s.data segmentHeaderSize totalRecordSize) = 1 ∧
      d.event = {} := by
  have hvalid : validSegment strayData = true := validSegment_append header_valid_strayData _
  obtain ⟨dir, hl⟩ := exists_loadSegment (by rw [length_strayData]; decide) hvalid
  have hfile : MmapFile.openReadOnly dir (JournalWriter.buildSegmentPath 0) = .ok strayData := by
    unfold loadSegment at hl
    split at hl
    · rename_i ho
      rw [ho, Option.some.inj (Option.ite_none_right_eq_some.mp hl).2]
    · cases hl
  obtain ⟨r', hreads⟩ := (reads_opened_iff hl).mpr scans_strayData
  have hopen := openPaths_of_loadSegment [] hl
  refine ⟨.stray, dir, _, r', ⟨0, 64, {}⟩, hfile, hopen, hreads, rfl, ?_, ?_⟩
  · rw [← bitDistance_straySlot, ← slice_strayData]
    rfl
  · exact (flipped_bits_found_out hopen hreads List.mem_cons_self rfl .stray hfile).2 0 1 {} rfl rfl

end Reserved

end Ume
