import Ume.Event.ReaderTermination
import Ume.Event.RoundTrip

/-! A segment in which the bytes of one record slot have been replaced. The
reader looks for the next record byte by byte; whether it gets back in step
depends on what it meets in the slot. -/

namespace Ume

open ByteString

/-- The scan from an offset delivers these records and comes to the end. -/
def Scans (data : List UInt8) (off : Nat) (ds : List (Nat × Event)) : Prop :=
  ∃ t stop, Scan data off ds t stop

section Scans

variable {data : List UInt8} {off : Nat} {ds : List (Nat × Event)}

theorem scans_end_iff (hv : verdict data off = .endOfSegment) : Scans data off ds ↔ ds = [] := by
  constructor
  · rintro ⟨t, stop, h⟩
    cases h with
    | stop => rfl
    | skip h => rw [hv] at h; cases h
    | deliver h => rw [hv] at h; cases h
  · rintro rfl
    exact ⟨_, _, .stop hv⟩

theorem scans_skip_iff {n : Nat} (hv : verdict data off = .skip n) :
    Scans data off ds ↔ Scans data (off + n) ds := by
  constructor
  · rintro ⟨t, stop, h⟩
    cases h with
    | stop h => rw [hv] at h; cases h
    | skip h hs => rw [hv] at h; cases h; exact ⟨_, _, hs⟩
    | deliver h => rw [hv] at h; cases h
  · rintro ⟨t, stop, h⟩
    exact ⟨_, _, .skip hv h⟩

theorem scans_deliver_iff {e : Event} {size : UInt32} (hv : verdict data off = .deliver e size) :
    Scans data off ((off, e) :: ds) ↔ Scans data (off + size.toNat) ds := by
  constructor
  · rintro ⟨t, stop, h⟩
    cases h with
    | skip h => rw [hv] at h; cases h
    | deliver h hs => rw [hv] at h; cases h; exact ⟨_, _, hs⟩
  · rintro ⟨t, stop, h⟩
    exact ⟨_, _, .deliver hv h⟩

theorem not_scans_of_skip_zero (hv : verdict data off = .skip 0) (ds : List (Nat × Event)) :
    ¬ Scans data off ds := by
  rintro ⟨t, stop, h⟩
  induction h with
  | stop h => rw [hv] at h; cases h
  | skip h _ ih => rw [hv] at h; cases h; exact ih hv
  | deliver h => rw [hv] at h; cases h

theorem Scans.le_offset (h : Scans data off ds) : ∀ d ∈ ds, off ≤ d.1 := by
  obtain ⟨t, stop, h⟩ := h
  induction h with
  | stop => simp
  | skip _ _ ih => exact fun d hd => (Nat.le_add_right ..).trans (ih d hd)
  | deliver _ _ ih =>
    intro d hd
    rcases List.mem_cons.mp hd with rfl | hd
    · exact Nat.le_refl _
    · exact (Nat.le_add_right ..).trans (ih d hd)

theorem scans_records_iff {rest : List UInt8} {recs : List (UInt64 × Event)}
    (h : data.drop off = recordsBytes recs ++ rest)
    (ha : ∀ r ∈ recs, EventSerializer.accepts r.2 = true) :
    Scans data off (deliveries off recs ++ ds) ↔
      Scans data (off + totalRecordSize * recs.length) ds := by
  induction recs generalizing off with
  | nil => rfl
  | cons r recs ih =>
    rw [recordsBytes_cons, List.append_assoc] at h
    have hr : EventSerializer.accepts r.2 = true := ha r List.mem_cons_self
    have hd : data.drop (off + totalRecordSize) = recordsBytes recs ++ rest := by
      rw [← List.drop_drop, h, List.drop_left' (length_recordBytes r.1 r.2)]
    have hv := verdict_record h
    rw [if_pos hr] at hv
    have hh := ih hd fun x hx => ha x (List.mem_cons_of_mem _ hx)
    rw [deliveries, if_pos hr, List.cons_append, scans_deliver_iff hv, List.length_cons,
      Nat.mul_add, Nat.mul_one, Nat.add_comm (totalRecordSize * recs.length), ← Nat.add_assoc]
    exact hh

end Scans

theorem Reads.scans {dir : Directory} {r r' : JournalReader} {es : List Delivery}
    (h : Reads dir r es r') (hb : r.Bounded)
    (hlast : r.segmentPaths.length ≤ r.currentSegmentIndex + 1) :
    ∃ ds, Scans r.data r.currentOffset ds ∧
      es = ds.map (Delivery.inSegment r.currentSegmentIndex) := by
  have hload : ∀ {s : JournalReader}, s.segmentPaths.length ≤ s.currentSegmentIndex + 1 →
      JournalReader.advanceSegment dir s = .inr ⟨.kNotFound, none, s.nextSegment⟩ := by
    intro s hs
    rw [JournalReader.advanceSegment,
      JournalReader.loadCurrentSegment_of_none dir (List.getElem?_eq_none hs)]
  induction h with
  | @stop r r' h =>
    cases hv : verdict r.data r.currentOffset with
    | endOfSegment => exact ⟨[], (scans_end_iff hv).mpr rfl, rfl⟩
    | skip n =>
      rw [(JournalReader.readNextStep_of_skip dir hb hv).1] at h
      cases h
    | deliver e size =>
      rw [(JournalReader.readNextStep_of_deliver dir hb hv).1] at h
      cases h
  | @pass r r₁ r' ds h _ ih =>
    cases hv : verdict r.data r.currentOffset with
    | endOfSegment =>
      rw [JournalReader.readNextStep_of_end dir hb hv, hload hlast] at h
      cases h
    | skip n =>
      obtain ⟨hstep, hb'⟩ := JournalReader.readNextStep_of_skip dir hb hv
      rw [hstep] at h
      cases h
      obtain ⟨ds, hs, he⟩ := ih hb' hlast
      exact ⟨ds, (scans_skip_iff hv).mpr hs, he⟩
    | deliver e size =>
      rw [(JournalReader.readNextStep_of_deliver dir hb hv).1] at h
      cases h
  | @deliver r r₁ r' ds e h _ ih =>
    cases hv : verdict r.data r.currentOffset with
    | endOfSegment =>
      rw [JournalReader.readNextStep_of_end dir hb hv, hload hlast] at h
      cases h
    | skip n =>
      rw [(JournalReader.readNextStep_of_skip dir hb hv).1] at h
      cases h
    | deliver e' size =>
      obtain ⟨hstep, hb'⟩ := JournalReader.readNextStep_of_deliver dir hb hv
      rw [hstep] at h
      cases h
      obtain ⟨ds, hs, he⟩ := ih hb' hlast
      exact ⟨_, (scans_deliver_iff hv).mpr hs, by rw [he]; rfl⟩

theorem Delivery.inSegment_injective (i : Nat) : Function.Injective (Delivery.inSegment i) := by
  rintro ⟨off, e⟩ ⟨off', e'⟩ h
  cases h
  rfl

/-- Reading one segment with `open_segment` and `read_next` is its scan. -/
theorem reads_opened_iff {dir : Directory} {path : String} {data : List UInt8}
    {ds : List (Nat × Event)} (hl : loadSegment dir path = some data) :
    (∃ r', Reads dir (JournalReader.opened path [] data) (ds.map (Delivery.inSegment 0)) r') ↔
      Scans data segmentHeaderSize ds := by
  constructor
  · rintro ⟨r', h⟩
    obtain ⟨ds', hs, he⟩ := h.scans (JournalReader.opened_bounded [] hl) (Nat.le_refl _)
    rwa [List.map_injective_iff.mpr (Delivery.inSegment_injective 0) he]
  · rintro ⟨t, stop, hs⟩
    obtain ⟨r₁, r', hopen, -, hreads, -⟩ := (ScanJournal.good (i := 0) hl hs .nil).reads_opened
      (by rw [hl]; rfl) {}
    rw [openPaths_of_loadSegment [] hl] at hopen
    cases hopen
    rw [List.append_nil] at hreads
    exact ⟨r', hreads⟩

/-- A segment of the writer with a slot in it, whose bytes may be anything. -/
structure SlottedSegment where
  header : JournalSegmentHeader
  header_valid : header.Valid
  before : List (UInt64 × Event)
  slot : Block totalRecordSize
  after : List (UInt64 × Event)
  padding : Nat
  accepts_before : ∀ r ∈ before, EventSerializer.accepts r.2 = true
  accepts_after : ∀ r ∈ after, EventSerializer.accepts r.2 = true

namespace SlottedSegment

def bytes (s : SlottedSegment) : List UInt8 :=
  s.header.toBytes ++ (recordsBytes s.before ++
    (s.slot.bytes ++ (recordsBytes s.after ++ List.replicate s.padding 0)))

def offset (s : SlottedSegment) : Nat := segmentHeaderSize + totalRecordSize * s.before.length

/-- The records of the segment other than the one in the slot, with their offsets. -/
def others (s : SlottedSegment) : List (Nat × Event) :=
  deliveries segmentHeaderSize s.before ++ deliveries (s.offset + totalRecordSize) s.after

theorem drop_header (s : SlottedSegment) : s.bytes.drop segmentHeaderSize = recordsBytes s.before ++
    (s.slot.bytes ++ (recordsBytes s.after ++ List.replicate s.padding 0)) :=
  List.drop_left' (JournalSegmentHeader.length_toBytes _)

theorem drop_offset (s : SlottedSegment) : s.bytes.drop s.offset =
    s.slot.bytes ++ (recordsBytes s.after ++ List.replicate s.padding 0) := by
  rw [offset, ← List.drop_drop, drop_header, List.drop_left' (length_recordsBytes s.before)]

theorem drop_slot (s : SlottedSegment) : s.bytes.drop (s.offset + totalRecordSize) =
    recordsBytes s.after ++ List.replicate s.padding 0 := by
  rw [← List.drop_drop, drop_offset, List.drop_left' s.slot.length_bytes]

theorem length_bytes (s : SlottedSegment) : s.bytes.length =
    s.offset + totalRecordSize + totalRecordSize * s.after.length + s.padding := by
  simp only [bytes, List.length_append, JournalSegmentHeader.length_toBytes, length_recordsBytes,
    s.slot.length_bytes, List.length_replicate, offset, segmentHeaderSize, totalRecordSize]
  omega

theorem scans_others_iff (s : SlottedSegment) : Scans s.bytes segmentHeaderSize s.others ↔
    Scans s.bytes s.offset (deliveries (s.offset + totalRecordSize) s.after) :=
  scans_records_iff s.drop_header s.accepts_before

theorem scans_after (s : SlottedSegment) : Scans s.bytes (s.offset + totalRecordSize)
    (deliveries (s.offset + totalRecordSize) s.after) :=
  ⟨_, _, scan_records_endMark s.drop_slot (endMark_replicate _)⟩

end SlottedSegment

/-- The slot fails the magic or a checksum, and no other place in it has a valid header. -/
structure DamagedSegment extends SlottedSegment where
  damaged : ¬ (ValidHeader toSlottedSegment.bytes toSlottedSegment.offset ∧
    computeCrc32 (slice (toSlottedSegment.bytes.drop toSlottedSegment.offset) 32 128) =
      (JournalRecordHeader.ofBytes
        (toSlottedSegment.bytes.drop toSlottedSegment.offset)).payloadCrc32)
  alone : ∀ p, 0 < p → p < totalRecordSize →
    ¬ ValidHeader toSlottedSegment.bytes (toSlottedSegment.offset + p)

/-- How far the reader goes from a place without a valid header; none if it takes
eight zero bytes for the end. -/
def resyncStep (bytes : List UInt8) (p : Nat) : Option Nat :=
  let header := JournalRecordHeader.ofBytes (bytes.drop p)
  if header.magic = 0 ∧ header.recordSize = 0 then none
  else if header.magic = 0x52454344 then some 8
  else some 1

/-- How far it goes from the start of a damaged slot. -/
def resyncStart (bytes : List UInt8) : Option Nat :=
  let header := JournalRecordHeader.ofBytes bytes
  if header.magic = 0x52454344 ∧ computeCrc32 (bytes.take 20) = header.headerCrc32 then
    some header.recordSize.toNat
  else resyncStep bytes 0

/-- Whether the steps from a place in the slot lead to the start of the next slot. -/
def resyncs (bytes : List UInt8) : Nat → Nat → Bool
  | 0, p => p == totalRecordSize
  | fuel + 1, p =>
    if p < totalRecordSize then
      match resyncStep bytes p with
      | some n => resyncs bytes fuel (p + n)
      | none => false
    else p == totalRecordSize

namespace DamagedSegment

variable (s : DamagedSegment)

theorem slot_le_length : s.offset + totalRecordSize ≤ s.bytes.length := by
  rw [s.length_bytes, Nat.add_assoc]
  exact Nat.le_add_right ..

theorem verdict_offset : verdict s.bytes s.offset =
    match resyncStart (s.bytes.drop s.offset) with
    | none => .endOfSegment
    | some n => .skip n := by
  by_cases hv : ValidHeader s.bytes s.offset
  · have hp := fun h => s.damaged ⟨hv, h⟩
    rw [verdict_of_validHeader hv, resyncStart]
    dsimp only
    rw [if_pos hp, if_pos hv.2]
  · have hv' := fun h => hv ⟨s.slot_le_length, h⟩
    rw [verdict_of_not_validHeader s.slot_le_length hv, resyncStart, if_neg hv', resyncStep,
      List.drop_zero]
    split_ifs <;> rfl

theorem verdict_inside {p : Nat} (hp : 0 < p) (hlt : p < totalRecordSize)
    (hl : s.offset + p + totalRecordSize ≤ s.bytes.length) : verdict s.bytes (s.offset + p) =
      match resyncStep (s.bytes.drop s.offset) p with
      | none => .endOfSegment
      | some n => .skip n := by
  rw [verdict_of_not_validHeader hl (s.alone p hp hlt), resyncStep, List.drop_drop]
  split_ifs <;> rfl

theorem resyncStep_pos {bytes : List UInt8} {p n : Nat} (h : resyncStep bytes p = some n) :
    0 < n := by
  unfold resyncStep at h
  dsimp only at h
  split_ifs at h <;> cases h <;> decide

theorem exists_deliveries_after (hne : s.after ≠ []) (off : Nat) :
    ∃ e ds, deliveries off s.after = (off, e) :: ds := by
  cases hr : s.after with
  | nil => exact False.elim (hne hr)
  | cons r after =>
    have ha := s.accepts_after r (by rw [hr]; exact List.mem_cons_self)
    exact ⟨r.2, _, by rw [deliveries, if_pos ha]⟩

/-- Behind the slot only its end leads to the records that follow. -/
theorem scans_behind_iff (hne : s.after ≠ []) {p : Nat} (hp : totalRecordSize ≤ p) :
    Scans s.bytes (s.offset + p) (deliveries (s.offset + totalRecordSize) s.after) ↔
      p = totalRecordSize := by
  constructor
  · intro h
    obtain ⟨e, ds, hd⟩ := s.exists_deliveries_after hne (s.offset + totalRecordSize)
    rw [hd] at h
    have hle : s.offset + p ≤ s.offset + totalRecordSize := h.le_offset _ List.mem_cons_self
    omega
  · rintro rfl
    exact s.scans_after

/-- The scan gets back in step exactly if the steps through the slot do. -/
theorem scans_inside_iff (hne : s.after ≠ []) (fuel : Nat) {p : Nat} (hp : 0 < p)
    (hfuel : totalRecordSize ≤ p + fuel) :
    Scans s.bytes (s.offset + p) (deliveries (s.offset + totalRecordSize) s.after) ↔
      resyncs (s.bytes.drop s.offset) fuel p = true := by
  have hlen : s.offset + totalRecordSize + totalRecordSize ≤ s.bytes.length := by
    have := List.length_pos_iff.mpr hne
    rw [s.length_bytes]
    unfold totalRecordSize
    omega
  induction fuel generalizing p with
  | zero =>
    rw [s.scans_behind_iff hne (p := p) hfuel, resyncs]
    simp
  | succ fuel ih =>
    by_cases hlt : p < totalRecordSize
    · have hv := s.verdict_inside hp hlt (by omega)
      rw [resyncs, if_pos hlt]
      cases hstep : resyncStep (s.bytes.drop s.offset) p with
      | none =>
        rw [hstep] at hv
        obtain ⟨e, ds, hd⟩ := s.exists_deliveries_after hne (s.offset + totalRecordSize)
        rw [scans_end_iff hv, hd]
        simp
      | some n =>
        rw [hstep] at hv
        have hn := resyncStep_pos hstep
        rw [scans_skip_iff hv, Nat.add_assoc]
        exact ih (by omega) (by omega)
    · rw [s.scans_behind_iff hne (Nat.le_of_not_lt hlt), resyncs, if_neg hlt]
      simp

theorem scans_last (hlast : s.after = []) {p : Nat} (hp : 0 < p) :
    Scans s.bytes (s.offset + p) [] := by
  induction hn : s.bytes.length - p using Nat.strong_induction_on generalizing p with
  | _ n ih =>
    by_cases hl : s.offset + p + totalRecordSize ≤ s.bytes.length
    · by_cases hlt : p < totalRecordSize
      · have hv := s.verdict_inside hp hlt hl
        cases hstep : resyncStep (s.bytes.drop s.offset) p with
        | none =>
          rw [hstep] at hv
          exact (scans_end_iff hv).mpr rfl
        | some m =>
          rw [hstep] at hv
          have hm := resyncStep_pos hstep
          rw [scans_skip_iff hv, Nat.add_assoc]
          exact ih (s.bytes.length - (p + m)) (by omega) (by omega) rfl
      · have hz : s.bytes.drop (s.offset + p) =
            List.replicate (s.padding - (p - totalRecordSize)) 0 := by
          have hd := s.drop_slot
          rw [hlast, recordsBytes_nil, List.nil_append] at hd
          rw [show s.offset + p = s.offset + totalRecordSize + (p - totalRecordSize) by omega,
            ← List.drop_drop, hd, List.drop_replicate]
        exact (scans_end_iff (verdict_endMark hz (endMark_replicate _))).mpr rfl
    · exact (scans_end_iff (verdict_endOfSegment_of_size (by omega))).mpr rfl

/-- The exact condition under which only the damaged record is lost. -/
theorem scans_others_iff_resyncs : Scans s.bytes segmentHeaderSize s.others ↔
    if s.after = [] then resyncStart (s.bytes.drop s.offset) ≠ some 0
    else ∃ n, resyncStart (s.bytes.drop s.offset) = some n ∧ 0 < n ∧
      resyncs (s.bytes.drop s.offset) totalRecordSize n = true := by
  rw [s.scans_others_iff]
  have hv := s.verdict_offset
  cases hstart : resyncStart (s.bytes.drop s.offset) with
  | none =>
    rw [hstart] at hv
    rw [scans_end_iff hv]
    split_ifs with ha
    · simp [ha, deliveries]
    · obtain ⟨e, ds, hd⟩ := s.exists_deliveries_after ha (s.offset + totalRecordSize)
      simp [hd]
  | some n =>
    rw [hstart] at hv
    rcases Nat.eq_zero_or_pos n with rfl | hn
    · have hnot := not_scans_of_skip_zero hv (deliveries (s.offset + totalRecordSize) s.after)
      split_ifs <;> simp [hnot]
    · rw [scans_skip_iff hv]
      split_ifs with ha
      · have hs := s.scans_last ha hn
        simp [ha, deliveries, hs, hn.ne']
      · rw [s.scans_inside_iff ha totalRecordSize hn (Nat.le_add_left ..)]
        simp [hn]

end DamagedSegment

/-- Reading a damaged segment gives just the other records, each once, exactly if the
reader gets back in step behind the slot. -/
theorem reads_others_iff_resyncs (s : DamagedSegment) {dir : Directory} {path : String}
    (hl : loadSegment dir path = some s.bytes) :
    (∃ r r', JournalReader.openSegment dir {} path = (.kOk, r) ∧
        Reads dir r (s.others.map (Delivery.inSegment 0)) r') ↔
      if s.after = [] then resyncStart (s.bytes.drop s.offset) ≠ some 0
      else ∃ n, resyncStart (s.bytes.drop s.offset) = some n ∧ 0 < n ∧
        resyncs (s.bytes.drop s.offset) totalRecordSize n = true := by
  rw [← s.scans_others_iff_resyncs, ← reads_opened_iff hl]
  have hopen : JournalReader.openSegment dir {} path =
      (.kOk, JournalReader.opened path [] s.bytes) := openPaths_of_loadSegment [] hl
  simp only [hopen, Prod.mk.injEq, true_and, exists_and_left, exists_eq_left']

section Zeroed

variable (before after : List (UInt64 × Event))
  (hb : ∀ r ∈ before, EventSerializer.accepts r.2 = true)
  (ha : ∀ r ∈ after, EventSerializer.accepts r.2 = true)

def SlottedSegment.zeroed : SlottedSegment where
  header := JournalWriter.segmentHeader ⟨fun _ => 0, fun _ => none⟩ 0 1048576
  header_valid := segmentHeader_valid _ _ _
  before := before
  slot := Block.zero totalRecordSize
  after := after
  padding := 0
  accepts_before := hb
  accepts_after := ha

/-- The record magic begins with the byte `D`. -/
theorem eq_of_magic {b : UInt8} {bs : List UInt8}
    (h : (JournalRecordHeader.ofBytes (b :: bs)).magic = 0x52454344) : b = 0x44 := by
  have hn := congrArg UInt32.toNat h
  simp only [JournalRecordHeader.ofBytes, readU32, slice, List.drop_zero, List.take_succ_cons, ofLE,
    UInt32.toNat_ofNat'] at hn
  have hb := b.toNat_lt
  have hm : (0x52454344 : UInt32).toNat = 0x52454344 := rfl
  apply UInt8.toNat_inj.mp
  rw [show (0x44 : UInt8).toNat = 0x44 from rfl]
  omega

theorem SlottedSegment.not_validHeader_zeroed {p : Nat} (hp : p < totalRecordSize) :
    ¬ ValidHeader (zeroed before after hb ha).bytes ((zeroed before after hb ha).offset + p) := by
  rintro ⟨-, hm, -⟩
  obtain ⟨n, hn⟩ : ∃ n, totalRecordSize - p = n + 1 := ⟨totalRecordSize - p - 1, by omega⟩
  have hslot : (zeroed before after hb ha).slot.bytes = List.replicate totalRecordSize 0 := rfl
  rw [← List.drop_drop, drop_offset, hslot, List.drop_append_of_le_length (by simp; omega),
    List.drop_replicate, hn, List.replicate_succ, List.cons_append] at hm
  exact absurd (eq_of_magic hm) (by decide)

def DamagedSegment.zeroed : DamagedSegment where
  toSlottedSegment := SlottedSegment.zeroed before after hb ha
  damaged := fun h => SlottedSegment.not_validHeader_zeroed before after hb ha
    (p := 0) (by decide) h.1
  alone := fun _ _ hp => SlottedSegment.not_validHeader_zeroed before after hb ha hp

/-- Eight zero bytes are taken for the end of the segment. -/
theorem DamagedSegment.resyncStart_zeroed :
    resyncStart ((zeroed before after hb ha).bytes.drop (zeroed before after hb ha).offset) =
      none := by
  have hmark : EndMark ((zeroed before after hb ha).bytes.drop
      (zeroed before after hb ha).offset) := by
    have hslot : (zeroed before after hb ha).slot.bytes = List.replicate totalRecordSize 0 := rfl
    right
    rw [SlottedSegment.drop_offset, hslot,
      List.take_append_of_le_length (by rw [List.length_replicate]; decide), List.take_replicate]
    rfl
  have hv := verdict_endMark rfl hmark
  rw [verdict_offset] at hv
  cases hstart : resyncStart ((zeroed before after hb ha).bytes.drop
      (zeroed before after hb ha).offset) with
  | none => rfl
  | some n =>
    rw [hstart] at hv
    cases hv

end Zeroed

theorem accepts_blank_record (seq : UInt64) :
    ∀ r ∈ [(seq, ({} : Event))], EventSerializer.accepts r.2 = true := by
  simp [EventSerializer.accepts_blank]

theorem exists_loadSegment {data : List UInt8} (hlen : data.length < 2 ^ 63)
    (hv : validSegment data = true) :
    ∃ dir, loadSegment dir (JournalWriter.buildSegmentPath 0) = some data :=
  ⟨_, (represents_empty.insert 0 { file := ⟨data, hlen⟩ } rfl rfl).loadSegment
    (Function.update_self ..) hv⟩

theorem DamagedSegment.exists_loadSegment (s : DamagedSegment)
    (hlen : s.before.length + s.after.length + s.padding < 2 ^ 50) :
    ∃ dir, loadSegment dir (JournalWriter.buildSegmentPath 0) = some s.bytes := by
  apply Ume.exists_loadSegment
  · rw [s.length_bytes, SlottedSegment.offset]
    unfold segmentHeaderSize totalRecordSize
    omega
  · exact validSegment_append s.header_valid _

/-- The last of two records has been overwritten with zeros: the first is read. -/
theorem reads_others_of_zeroed_last : ∃ dir r r',
    JournalReader.openSegment dir {} (JournalWriter.buildSegmentPath 0) = (.kOk, r) ∧
      Reads dir r [⟨0, 64, {}⟩] r' := by
  let s := DamagedSegment.zeroed [(1, {})] [] (accepts_blank_record 1) (by simp)
  obtain ⟨dir, hl⟩ := s.exists_loadSegment (by decide)
  have hstart : resyncStart (s.bytes.drop s.offset) = none :=
    DamagedSegment.resyncStart_zeroed ..
  have hlast : s.after = [] := rfl
  obtain ⟨r, r', hopen, hreads⟩ := (reads_others_iff_resyncs s hl).mpr (by
    rw [if_pos hlast, hstart]
    exact Option.some_ne_none 0 |>.symm)
  have ho : s.others = [(64, {})] := by
    rw [show s.others = deliveries 64 [(1, {})] ++ [] from rfl]
    simp [deliveries, EventSerializer.accepts_blank]
  rw [ho] at hreads
  exact ⟨dir, r, r', hopen, hreads⟩

/-- The first of two records has been overwritten with zeros: the second is not read. -/
theorem zeroed_record_hides_next : ∃ (s : DamagedSegment) (dir : Directory),
    s.before = [] ∧ s.slot = Block.zero totalRecordSize ∧ s.after = [(2, {})] ∧
      loadSegment dir (JournalWriter.buildSegmentPath 0) = some s.bytes ∧
      (∃ r', Reads dir (JournalReader.opened (JournalWriter.buildSegmentPath 0) [] s.bytes) [] r') ∧
      ¬ ∃ r', Reads dir (JournalReader.opened (JournalWriter.buildSegmentPath 0) [] s.bytes)
        (s.others.map (Delivery.inSegment 0)) r' := by
  let s := DamagedSegment.zeroed [] [(2, {})] (by simp) (accepts_blank_record 2)
  obtain ⟨dir, hl⟩ := s.exists_loadSegment (by decide)
  have hstart : resyncStart (s.bytes.drop s.offset) = none :=
    DamagedSegment.resyncStart_zeroed ..
  have hv := s.verdict_offset
  rw [hstart] at hv
  refine ⟨s, dir, rfl, rfl, rfl, hl, ?_, ?_⟩
  · have hs : Scans s.bytes segmentHeaderSize [] := (scans_end_iff hv).mpr rfl
    exact (reads_opened_iff hl).mpr hs
  · have hne : s.after ≠ [] := List.cons_ne_nil _ _
    rw [reads_opened_iff hl, s.scans_others_iff_resyncs, if_neg hne, hstart]
    rintro ⟨n, hn, -⟩
    cases hn

end Ume
