import Ume.Event.JournalEnd
import Ume.Lib.Runs

/-! The reader on arbitrary files. Its loop is written once more with every read of the
mapping checked, and the two agree on every reader that calls can lead to: no pass reads
outside the mapping, and what a pass hands out is a record. -/

namespace Ume

open ByteString

/-- A read of mapped memory, undefined when it leaves the mapping. -/
def readMapped (data : List UInt8) (off len : Nat) : Option (List UInt8) :=
  if off + len ≤ data.length then some (slice data off len) else none

theorem readMapped_of_le {data : List UInt8} {off len : Nat} (h : off + len ≤ data.length) :
    readMapped data off len = some (slice data off len) := if_pos h

theorem readU16_take {bs : List UInt8} {off n : Nat} (h : off + 2 ≤ n) :
    readU16 (bs.take n) off = readU16 bs off := by
  rw [readU16, readU16, slice, slice, List.drop_take, List.take_take, Nat.min_eq_left (by omega)]

theorem readU32_take {bs : List UInt8} {off n : Nat} (h : off + 4 ≤ n) :
    readU32 (bs.take n) off = readU32 bs off := by
  rw [readU32, readU32, slice, slice, List.drop_take, List.take_take, Nat.min_eq_left (by omega)]

theorem readU64_take {bs : List UInt8} {off n : Nat} (h : off + 8 ≤ n) :
    readU64 (bs.take n) off = readU64 bs off := by
  rw [readU64, readU64, slice, slice, List.drop_take, List.take_take, Nat.min_eq_left (by omega)]

theorem readBlock_take {bs : List UInt8} {off k n : Nat} (h : off + k ≤ n) :
    readBlock k (bs.take n) off = readBlock k bs off := by
  rw [readBlock, readBlock, slice, slice, List.drop_take, List.take_take,
    Nat.min_eq_left (by omega)]

/-- The copy of a header holds all that is read of it. -/
theorem JournalSegmentHeader.ofBytes_take (bs : List UInt8) :
    ofBytes (bs.take segmentHeaderSize) = ofBytes bs := by
  simp only [ofBytes, segmentHeaderSize]
  rw [readU32_take (by decide), readU16_take (by decide), readU16_take (by decide),
    readU64_take (by decide), readU64_take (by decide), readU64_take (by decide),
    readU32_take (by decide), readBlock_take (by decide)]

theorem JournalRecordHeader.ofBytes_take (bs : List UInt8) : ofBytes (bs.take 32) = ofBytes bs := by
  simp only [ofBytes]
  rw [readU32_take (by decide), readU32_take (by decide), readU64_take (by decide),
    readU32_take (by decide), readU32_take (by decide), readBlock_take (by decide)]

namespace JournalReader

/-- `load_current_segment` with its read of the mapping checked. -/
def loadCurrentSegmentChecked (dir : Directory) (r : JournalReader) :
    Option (Status × JournalReader) :=
  match r.segmentPaths[r.currentSegmentIndex]? with
  | none => some (.kNotFound, r)
  | some path =>
    match MmapFile.openReadOnly dir path with
    | .error status => some (status, { r with currentMmap := none })
    | .ok bytes =>
      let r := { r with currentMmap := some bytes }
      if bytes.length < segmentHeaderSize then some (.kJournalCorrupted, r)
      else do
        let copied ← readMapped bytes 0 segmentHeaderSize
        let header := JournalSegmentHeader.ofBytes copied
        if header.magic ≠ 0x554D454A then return (.kJournalCorrupted, r)
        else if computeCrc32 (copied.take 32) ≠ header.headerCrc32 then
          return (.kJournalCorrupted, r)
        else
          return (.kOk, { r with
            currentOffset := segmentHeaderSize
            stats := { r.stats with segmentsRead := r.stats.segmentsRead + 1 }
            isOpen := true })

def advanceSegmentChecked (dir : Directory) (r : JournalReader) :
    Option (JournalReader ⊕ ReadResult) := do
  match ← loadCurrentSegmentChecked dir r.nextSegment with
  | (.kOk, r) => return .inl r
  | (_, r) => return .inr ⟨.kNotFound, none, r⟩

/-- One pass of `read_next` with every read of the mapping checked. -/
def readNextStepChecked (dir : Directory) (r : JournalReader) :
    Option (JournalReader ⊕ ReadResult) :=
  if u64 (r.currentOffset + totalRecordSize) > r.data.length then advanceSegmentChecked dir r
  else do
    let header := JournalRecordHeader.ofBytes (← readMapped r.data r.currentOffset 32)
    if header.magic = 0 ∧ header.recordSize = 0 then advanceSegmentChecked dir r
    else if header.magic ≠ 0x52454344 then return .inl (r.skip 1)
    else
      let covered ← readMapped r.data r.currentOffset 20
      if computeCrc32 covered ≠ header.headerCrc32 then return .inl (r.skip 8)
      else
        let payload ← readMapped r.data (r.currentOffset + 32) 128
        if computeCrc32 payload ≠ header.payloadCrc32 then
          return .inl (r.skip header.recordSize.toNat)
        else
          match EventSerializer.deserialize (some payload) with
          | .error _ => return .inl (r.skip header.recordSize.toNat)
          | .ok event => return .inr ⟨.kOk, some event, r.deliver header.recordSize⟩

theorem loadCurrentSegmentChecked_eq (dir : Directory) (r : JournalReader) :
    loadCurrentSegmentChecked dir r = some (loadCurrentSegment dir r) := by
  unfold loadCurrentSegmentChecked loadCurrentSegment
  cases r.segmentPaths[r.currentSegmentIndex]? with
  | none => rfl
  | some path =>
    dsimp only
    cases MmapFile.openReadOnly dir path with
    | error status => rfl
    | ok bytes =>
      dsimp only
      by_cases hlen : bytes.length < segmentHeaderSize
      · rw [if_pos hlen, if_pos hlen]
      · have hread : readMapped bytes 0 segmentHeaderSize = some (bytes.take segmentHeaderSize) :=
          readMapped_of_le (by omega)
        have htake : (bytes.take segmentHeaderSize).take 32 = bytes.take 32 := by
          rw [List.take_take, Nat.min_eq_left (by decide)]
        rw [if_neg hlen, if_neg hlen, hread, Option.bind_eq_bind, Option.bind_some,
          JournalSegmentHeader.ofBytes_take, htake]
        split_ifs <;> rfl

theorem advanceSegmentChecked_eq (dir : Directory) (r : JournalReader) :
    advanceSegmentChecked dir r = some (advanceSegment dir r) := by
  rw [advanceSegmentChecked, loadCurrentSegmentChecked_eq, Option.bind_eq_bind, Option.bind_some,
    advanceSegment]
  obtain ⟨status, r'⟩ := loadCurrentSegment dir r.nextSegment
  cases status <;> rfl

/-- The test of the loop keeps all reads of the pass inside the mapping. -/
theorem readNextStepChecked_eq (dir : Directory) {r : JournalReader} (hr : r.Bounded) :
    readNextStepChecked dir r = some (readNextStep dir r) := by
  have hoff := hr.2
  have hu : u64 (r.currentOffset + totalRecordSize) = r.currentOffset + totalRecordSize := by
    apply u64_of_lt
    unfold totalRecordSize
    omega
  unfold readNextStepChecked readNextStep
  by_cases hend : u64 (r.currentOffset + totalRecordSize) > r.data.length
  · rw [if_pos hend, if_pos hend, advanceSegmentChecked_eq]
  · rw [if_neg hend, if_neg hend]
    rw [hu] at hend
    unfold totalRecordSize at hend
    have hheader : readMapped r.data r.currentOffset 32 =
        some ((r.data.drop r.currentOffset).take 32) := readMapped_of_le (by omega)
    have hcovered : readMapped r.data r.currentOffset 20 =
        some ((r.data.drop r.currentOffset).take 20) := readMapped_of_le (by omega)
    have hpayload : readMapped r.data (r.currentOffset + 32) 128 =
        some (slice (r.data.drop r.currentOffset) 32 128) := by
      rw [readMapped_of_le (by omega), slice_drop]
    simp only [hheader, hcovered, hpayload, Option.bind_eq_bind, Option.bind_some,
      JournalRecordHeader.ofBytes_take, advanceSegmentChecked_eq]
    split_ifs
    · rfl
    · rfl
    · rfl
    · rfl
    · cases EventSerializer.deserialize (some (slice (r.data.drop r.currentOffset) 32 128)) <;> rfl

/-- A call on a reader, or a pass of the loop of `read_next`; the directory may be another
one each time. -/
inductive Action where
  | openSegment (dir : Directory) (path : String)
  | openDirectory (dir : Directory)
  | pass (dir : Directory)
  | close

def step (r : JournalReader) : Action → Option JournalReader
  | .openSegment dir path => some (openSegment dir r path).2
  | .openDirectory dir => some (openDirectory dir r).2
  | .pass dir => if r.isOpen then some (pass dir r) else none
  | .close => some r.close

theorem Bounded.close (r : JournalReader) : r.close.Bounded :=
  ⟨by simp [JournalReader.close, data], by simp [JournalReader.close, segmentHeaderSize]⟩

theorem Bounded.loadCurrentSegment {r : JournalReader} (hr : r.Bounded) (dir : Directory) :
    (loadCurrentSegment dir r).2.Bounded := by
  cases hp : r.segmentPaths[r.currentSegmentIndex]? with
  | none =>
    rw [loadCurrentSegment_of_none dir hp]
    exact hr
  | some path =>
    cases ho : MmapFile.openReadOnly dir path with
    | error status =>
      rw [loadCurrentSegment_of_error hp ho]
      exact ⟨by simp [data], hr.2⟩
    | ok bytes =>
      have hlen := length_lt_of_openReadOnly ho
      cases hv : validSegment bytes with
      | true =>
        have hl : loadSegment dir path = some bytes := by simp [loadSegment, ho, hv]
        rw [loadCurrentSegment_of_some hp hl]
        exact loaded_bounded hlen
      | false =>
        rw [loadCurrentSegment_of_invalid hp ho hv]
        exact ⟨hlen, hr.2⟩

theorem Bounded.openPaths (dir : Directory) (r : JournalReader) (paths : List String) :
    (openPaths dir r paths).2.Bounded := by
  apply Bounded.loadCurrentSegment
  exact Bounded.close r

theorem Bounded.step {r r' : JournalReader} {a : Action} (hr : r.Bounded)
    (hs : r.step a = some r') : r'.Bounded := by
  cases a with
  | openSegment dir path =>
    obtain rfl := Option.some.inj hs
    exact Bounded.openPaths dir r [path]
  | openDirectory dir =>
    obtain rfl := Option.some.inj hs
    unfold openDirectory
    split_ifs
    · exact Bounded.close r
    · exact Bounded.openPaths dir r _
  | pass dir =>
    obtain ⟨-, hs⟩ := Option.ite_none_right_eq_some.mp hs
    obtain rfl := Option.some.inj hs
    exact (place_pass dir hr).2
  | close =>
    obtain rfl := Option.some.inj hs
    exact Bounded.close r

/-- A pass that hands out an event has read it from a record. -/
theorem deliverable_of_readNextStep (dir : Directory) {r r' : JournalReader} (hr : r.Bounded)
    {e : Event} (h : readNextStep dir r = .inr ⟨.kOk, some e, r'⟩) :
    Deliverable r.data r.currentOffset ∧
      e = Event.ofBytes (slice r.data (r.currentOffset + 32) 128) := by
  rw [readNextStep_eq dir hr] at h
  cases hv : verdict r.data r.currentOffset with
  | endOfSegment =>
    rw [hv] at h
    rcases advanceSegment_cases dir r with ⟨-, ha⟩ | ⟨-, ha⟩
    · cases ha.symm.trans h
    · cases ha.symm.trans h
  | skip n =>
    rw [hv] at h
    cases h
  | deliver event size =>
    rw [hv] at h
    cases h
    have hd := deliverable_iff.mpr ⟨e, size, hv⟩
    refine ⟨hd, ?_⟩
    rw [verdict_of_validHeader hd.1, if_neg (not_not.mpr hd.2.1),
      EventSerializer.deserialize_of_validate hd.2.2, slice_drop] at hv
    exact (Verdict.deliver.inj hv).1.symm

/-- Whatever the files hold and whatever calls came before, a pass of `read_next` reads
only inside the mapping, and an event that it hands out is that of a record whose magic,
two checksums and event all pass their checks. -/
theorem reader_stays_in_mapping {as : List Action} {r : JournalReader}
    (h : Runs.run step {} as = some r) (dir : Directory) :
    readNextStepChecked dir r = some (readNextStep dir r) ∧
      ∀ e r', readNextStep dir r = .inr ⟨.kOk, some e, r'⟩ →
        Deliverable r.data r.currentOffset ∧
          e = Event.ofBytes (slice r.data (r.currentOffset + 32) 128) := by
  have hb : r.Bounded := Runs.invariant (fun _ _ _ hr hs => Bounded.step hr hs)
    (show Bounded {} from Bounded.close {}) h
  exact ⟨readNextStepChecked_eq dir hb, fun e r' hs => deliverable_of_readNextStep dir hb hs⟩

/-- A segment with one record. -/
theorem reader_stays_in_mapping_blank : ∃ dir r r',
    Runs.run step {} [.openSegment dir (JournalWriter.buildSegmentPath 0)] = some r ∧
      readNextStepChecked dir r = some (.inr ⟨.kOk, some {}, r'⟩) ∧
      Deliverable r.data r.currentOffset := by
  obtain ⟨dir, hr, -⟩ := exists_represents_pair (length_blank_lt 0) (b := [0]) (by decide)
  have hholds := holdsRecords_blank 0
  have hl := hr.loadSegment (j := 0) rfl hholds.validSegment
  generalize writtenSegment _ _ _ _ _ = data at hl hholds
  have hrun : Runs.run step {} [.openSegment dir (JournalWriter.buildSegmentPath 0)] =
      some (opened (JournalWriter.buildSegmentPath 0) [] data) := by
    rw [Runs.run_cons (show step {} _ = some (openPaths dir {} _).2 from rfl),
      openPaths_of_loadSegment [] hl]
    rfl
  have hrecord : verdict data segmentHeaderSize = .deliver {} 160 := by
    obtain ⟨header, tail, -, -, rfl⟩ := hholds
    have hdrop : (header.toBytes ++ (recordsBytes [(1, {})] ++ tail)).drop segmentHeaderSize =
        recordBytes 1 {} ++ tail := by
      rw [recordsBytes_cons, recordsBytes_nil, List.append_nil]
      exact List.drop_left' (JournalSegmentHeader.length_toBytes header)
    rw [verdict_record hdrop, if_pos EventSerializer.accepts_blank]
  obtain ⟨hchecked, hdelivered⟩ := reader_stays_in_mapping hrun dir
  have hread := (readNextStep_of_deliver dir (opened_bounded [] hl) hrecord).1
  rw [hread] at hchecked
  exact ⟨dir, _, _, hrun, hchecked, (hdelivered _ _ hread).1⟩

end JournalReader

end Ume
