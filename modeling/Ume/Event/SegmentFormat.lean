import Ume.Event.JournalScan

/-! The bytes that the writer produces and what the reader makes of them. A
segment is a header, records in consecutive slots, and a tail that the reader
takes for the end. -/

namespace Ume

open ByteString

@[simp] theorem JournalSegmentHeader.length_toBytes (h : JournalSegmentHeader) :
    h.toBytes.length = 64 := by
  simp [toBytes]

theorem JournalSegmentHeader.ofBytes_toBytes_append (h : JournalSegmentHeader)
    (rest : List UInt8) : ofBytes (h.toBytes ++ rest) = h := by
  cases h
  simp only [ofBytes, JournalSegmentHeader.mk.injEq]
  refine ⟨readU32_of_slice ?_, readU16_of_slice ?_, readU16_of_slice ?_, readU64_of_slice ?_,
    readU64_of_slice ?_, readU64_of_slice ?_, readU32_of_slice ?_, readBlock_of_slice ?_⟩
  all_goals
    simp (disch := simp) only [toBytes, List.append_assoc, slice_append_right, slice_append_left,
      slice_zero_self, length_toLE, Nat.reduceSub]

@[simp] theorem JournalRecordHeader.length_toBytes (h : JournalRecordHeader) :
    h.toBytes.length = 32 := by
  simp [toBytes]

theorem JournalRecordHeader.ofBytes_toBytes_append (h : JournalRecordHeader)
    (rest : List UInt8) : ofBytes (h.toBytes ++ rest) = h := by
  cases h
  simp only [ofBytes, JournalRecordHeader.mk.injEq]
  refine ⟨readU32_of_slice ?_, readU32_of_slice ?_, readU64_of_slice ?_, readU32_of_slice ?_,
    readU32_of_slice ?_, readBlock_of_slice ?_⟩
  all_goals
    simp (disch := simp) only [toBytes, List.append_assoc, slice_append_right, slice_append_left,
      slice_zero_self, length_toLE, Nat.reduceSub]

/-- The checksum of a header covers none of the bytes it is stored in. -/
theorem JournalRecordHeader.take_toBytes_setCrc (h : JournalRecordHeader) (crc : UInt32) :
    ({ h with headerCrc32 := crc } : JournalRecordHeader).toBytes.take 20 = h.toBytes.take 20 := by
  simp [toBytes, List.take_append]

theorem JournalSegmentHeader.take_toBytes_setCrc (h : JournalSegmentHeader) (crc : UInt32) :
    ({ h with headerCrc32 := crc } : JournalSegmentHeader).toBytes.take 32 = h.toBytes.take 32 := by
  simp [toBytes, List.take_append]

def recordBytes (seq : UInt64) (e : Event) : List UInt8 :=
  (JournalWriter.recordHeader seq e).toBytes ++ e.toBytes

@[simp] theorem length_recordBytes (seq : UInt64) (e : Event) :
    (recordBytes seq e).length = totalRecordSize := by
  simp [recordBytes, totalRecordSize]

theorem recordHeader_crc (seq : UInt64) (e : Event) :
    computeCrc32 ((JournalWriter.recordHeader seq e).toBytes.take 20) =
      (JournalWriter.recordHeader seq e).headerCrc32 := by
  exact congrArg computeCrc32 (JournalRecordHeader.take_toBytes_setCrc _ _)

/-- The reader at a header that passes its checks, before the event it belongs to. -/
theorem verdict_header {data rest : List UInt8} {off : Nat} {header : JournalRecordHeader}
    {e : Event} (h : data.drop off = header.toBytes ++ (e.toBytes ++ rest))
    (hm : header.magic = 0x52454344)
    (hc : computeCrc32 (header.toBytes.take 20) = header.headerCrc32)
    (hp : header.payloadCrc32 = computeCrc32 e.toBytes) :
    verdict data off =
      if EventSerializer.accepts e then .deliver e header.recordSize
      else .skip header.recordSize.toNat := by
  have hlen : totalRecordSize ≤ data.length - off := by
    rw [← List.length_drop, h]
    simp [totalRecordSize, ← Nat.add_assoc]
  have hsize : ¬ off + totalRecordSize > data.length := by
    have hpos : 0 < totalRecordSize := by decide
    omega
  have hh : JournalRecordHeader.ofBytes (data.drop off) = header := by
    rw [h, JournalRecordHeader.ofBytes_toBytes_append]
  have hcrc : (data.drop off).take 20 = header.toBytes.take 20 := by
    rw [h, List.take_append_of_le_length (by simp)]
  have hpay : slice (data.drop off) 32 128 = e.toBytes := by
    rw [h, slice_append_right (by simp), JournalRecordHeader.length_toBytes, Nat.sub_self,
      slice_append_left (by simp), slice_zero_self (by simp)]
  simp only [verdict, if_neg hsize, hh, hcrc, hpay, hm, hc, hp, ne_eq, not_true_eq_false, if_false]
  rw [if_neg (fun h0 => absurd h0.1 (by decide))]
  cases ha : EventSerializer.accepts e with
  | true => simp [EventSerializer.deserialize_toBytes_of_accepts ha]
  | false =>
    obtain ⟨status, hd⟩ := EventSerializer.deserialize_toBytes_of_rejects ha
    simp [hd]

theorem verdict_record {data rest : List UInt8} {off : Nat} {seq : UInt64} {e : Event}
    (h : data.drop off = recordBytes seq e ++ rest) :
    verdict data off = if EventSerializer.accepts e then .deliver e 160 else .skip 160 := by
  rw [recordBytes, List.append_assoc] at h
  have hm : (JournalWriter.recordHeader seq e).magic = 0x52454344 := rfl
  have hp : (JournalWriter.recordHeader seq e).payloadCrc32 = computeCrc32 e.toBytes := rfl
  have hs : (JournalWriter.recordHeader seq e).recordSize = 160 := rfl
  have hv := verdict_header h hm (recordHeader_crc seq e) hp
  rw [hs] at hv
  exact hv

/-- What stands behind the last record: too little for a record, or zeros. -/
def EndMark (tail : List UInt8) : Prop :=
  tail.length < totalRecordSize ∨ tail.take 8 = List.replicate 8 0

theorem verdict_endMark {data tail : List UInt8} {off : Nat} (h : data.drop off = tail)
    (ht : EndMark tail) : verdict data off = .endOfSegment := by
  by_cases hlen : data.length < off + totalRecordSize
  · exact verdict_endOfSegment_of_size hlen
  · rcases ht with ht | ht
    · rw [← h, List.length_drop] at ht
      omega
    · have hz (i : Nat) (hi : i + 4 ≤ 8) : readU32 tail i = 0 := by
        apply readU32_of_slice
        have hs : slice tail i 4 = slice (slice tail 0 8) i 4 := by
          rw [slice_slice hi, Nat.zero_add]
        rw [hs, show slice tail 0 8 = List.replicate 8 0 from ht]
        simp only [slice, List.drop_replicate, List.take_replicate]
        rw [show min 4 (8 - i) = 4 by omega]
        rfl
      rw [verdict, if_neg (by omega), h]
      simp only [JournalRecordHeader.ofBytes, hz 0 (by omega), hz 4 (by omega), and_self, if_true]

/-- Consecutive records, each with its sequence number. -/
def recordsBytes (recs : List (UInt64 × Event)) : List UInt8 :=
  recs.flatMap fun r => recordBytes r.1 r.2

@[simp] theorem recordsBytes_nil : recordsBytes [] = [] := rfl

theorem recordsBytes_cons (r : UInt64 × Event) (recs : List (UInt64 × Event)) :
    recordsBytes (r :: recs) = recordBytes r.1 r.2 ++ recordsBytes recs := rfl

theorem recordsBytes_append (recs more : List (UInt64 × Event)) :
    recordsBytes (recs ++ more) = recordsBytes recs ++ recordsBytes more :=
  List.flatMap_append

@[simp] theorem length_recordsBytes (recs : List (UInt64 × Event)) :
    (recordsBytes recs).length = totalRecordSize * recs.length := by
  induction recs with
  | nil => rfl
  | cons r recs ih =>
    rw [recordsBytes_cons, List.length_append, length_recordBytes, ih, List.length_cons]
    ring

theorem drop_recordsBytes (recs : List (UInt64 × Event)) (n : Nat) :
    (recordsBytes recs).drop (totalRecordSize * n) = recordsBytes (recs.drop n) := by
  induction n generalizing recs with
  | zero => simp
  | succ n ih =>
    cases recs with
    | nil => simp
    | cons r recs =>
      rw [recordsBytes_cons, List.drop_succ_cons, ← ih, Nat.mul_succ, Nat.add_comm,
        ← List.drop_drop, List.drop_left' (length_recordBytes r.1 r.2)]

/-- The deliveries of consecutive records: the events that validation accepts. -/
def deliveries : Nat → List (UInt64 × Event) → List (Nat × Event)
  | _, [] => []
  | off, r :: recs =>
    if EventSerializer.accepts r.2 then (off, r.2) :: deliveries (off + totalRecordSize) recs
    else deliveries (off + totalRecordSize) recs

def recordsTally : List (UInt64 × Event) → Tally
  | [] => {}
  | r :: recs =>
    (if EventSerializer.accepts r.2 then { records := 1, bytes := totalRecordSize }
      else { corrupted := 1 }) + recordsTally recs

theorem scan_records {data rest : List UInt8} {off stop : Nat} {recs : List (UInt64 × Event)}
    {ds : List (Nat × Event)} {t : Tally} (h : data.drop off = recordsBytes recs ++ rest)
    (hs : Scan data (off + totalRecordSize * recs.length) ds t stop) :
    Scan data off (deliveries off recs ++ ds) (recordsTally recs + t) stop := by
  induction recs generalizing off with
  | nil =>
    rw [recordsTally, Tally.empty_add]
    exact hs
  | cons r recs ih =>
    rw [recordsBytes_cons, List.append_assoc] at h
    have hd : data.drop (off + totalRecordSize) = recordsBytes recs ++ rest := by
      rw [← List.drop_drop, h, List.drop_left' (length_recordBytes r.1 r.2)]
    have hv := verdict_record h
    have hoff : off + totalRecordSize * (r :: recs).length =
        off + totalRecordSize + totalRecordSize * recs.length := by
      rw [List.length_cons]
      ring
    rw [hoff] at hs
    have hh := ih hd hs
    rw [recordsTally, Tally.add_assoc]
    cases ha : EventSerializer.accepts r.2 with
    | true =>
      simp only [ha, if_true] at hv
      simp only [deliveries, ha, if_true, List.cons_append]
      exact Scan.deliver hv hh
    | false =>
      simp only [ha, Bool.false_eq_true, if_false] at hv
      simp only [deliveries, ha, Bool.false_eq_true, if_false]
      exact Scan.skip hv hh

theorem scan_records_endMark {data tail : List UInt8} {off : Nat} {recs : List (UInt64 × Event)}
    (h : data.drop off = recordsBytes recs ++ tail) (ht : EndMark tail) :
    Scan data off (deliveries off recs) (recordsTally recs)
      (off + totalRecordSize * recs.length) := by
  have hd : data.drop (off + totalRecordSize * recs.length) = tail := by
    rw [← List.drop_drop, h, List.drop_left' (length_recordsBytes recs)]
  have hs := scan_records h (.stop (verdict_endMark hd ht))
  rwa [List.append_nil, Tally.add_empty] at hs

/-- A header that `load_current_segment` accepts. -/
structure JournalSegmentHeader.Valid (h : JournalSegmentHeader) : Prop where
  magic : h.magic = 0x554D454A
  crc : computeCrc32 (h.toBytes.take 32) = h.headerCrc32

theorem segmentHeader_valid (env : SessionEnv) (segmentId segmentSizeBytes : Nat) :
    (JournalWriter.segmentHeader env segmentId segmentSizeBytes).Valid where
  magic := rfl
  crc := congrArg computeCrc32 (JournalSegmentHeader.take_toBytes_setCrc _ _)

theorem validSegment_append {h : JournalSegmentHeader} (hv : h.Valid) (rest : List UInt8) :
    validSegment (h.toBytes ++ rest) = true := by
  have ht : (h.toBytes ++ rest).take 32 = h.toBytes.take 32 := by
    rw [List.take_append_of_le_length (by simp)]
  simp [validSegment, JournalSegmentHeader.ofBytes_toBytes_append, hv.magic, hv.crc, ht,
    segmentHeaderSize]

end Ume
