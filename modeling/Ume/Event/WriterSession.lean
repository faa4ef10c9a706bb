import Ume.Event.SegmentStore
import Ume.Lib.Blocks

/-! What a writer session leaves on disk. The records fill one segment after
the other; a segment that existed keeps the bytes behind the new records. -/

namespace Ume

open ByteString JournalWriter

/-- Records spread over segments: the full ones, then the one being filled. -/
structure Layout where
  full : List (List (UInt64 × Event)) := []
  current : List (UInt64 × Event) := []

namespace Layout

def push (capacity : Nat) (l : Layout) (r : UInt64 × Event) : Layout :=
  if l.current.length < capacity then { l with current := l.current ++ [r] }
  else { full := l.full ++ [l.current], current := [r] }

def chunks (l : Layout) : List (List (UInt64 × Event)) := l.full ++ [l.current]

/-- The layout of a list of records appended to an empty journal. -/
def ofRecords (capacity : Nat) (recs : List (UInt64 × Event)) : Layout :=
  recs.foldl (push capacity) {}

theorem flatten_push (capacity : Nat) (l : Layout) (r : UInt64 × Event) :
    (l.push capacity r).chunks.flatten = l.chunks.flatten ++ [r] := by
  unfold push
  split_ifs <;> simp [chunks]

theorem flatten_foldl_push (capacity : Nat) (recs : List (UInt64 × Event)) (l : Layout) :
    (recs.foldl (push capacity) l).chunks.flatten = l.chunks.flatten ++ recs := by
  induction recs generalizing l with
  | nil => simp
  | cons r recs ih => rw [List.foldl_cons, ih, flatten_push, List.append_assoc]; rfl

theorem flatten_ofRecords (capacity : Nat) (recs : List (UInt64 × Event)) :
    (ofRecords capacity recs).chunks.flatten = recs := by
  rw [ofRecords, flatten_foldl_push]
  rfl

/-- Every segment but the last is full, and the last one is begun only for a record. -/
structure Packed (capacity : Nat) (l : Layout) : Prop where
  full : ∀ chunk ∈ l.full, chunk.length = capacity
  current : l.current.length ≤ capacity
  started : l.full ≠ [] → l.current ≠ []

theorem packed_empty (capacity : Nat) : Packed capacity {} where
  full := by simp
  current := Nat.zero_le _
  started := by simp

theorem Packed.push {capacity : Nat} {l : Layout} (hc : 0 < capacity) (h : l.Packed capacity)
    (r : UInt64 × Event) : (l.push capacity r).Packed capacity := by
  unfold Layout.push
  split_ifs with hlt
  · refine ⟨h.full, ?_, by simp⟩
    rw [List.length_append, List.length_singleton]
    exact hlt
  · refine ⟨?_, hc, by simp⟩
    intro chunk hm
    rcases List.mem_append.mp hm with hm | hm
    · exact h.full chunk hm
    · rw [List.mem_singleton.mp hm]
      exact Nat.le_antisymm h.current (Nat.le_of_not_lt hlt)

theorem Packed.foldl {capacity : Nat} {l : Layout} (hc : 0 < capacity) (h : l.Packed capacity)
    (recs : List (UInt64 × Event)) : (recs.foldl (Layout.push capacity) l).Packed capacity := by
  induction recs generalizing l with
  | nil => exact h
  | cons r recs ih => exact ih (h.push hc r)

theorem ofRecords_packed {capacity : Nat} (hc : 0 < capacity) (recs : List (UInt64 × Event)) :
    (ofRecords capacity recs).Packed capacity :=
  (packed_empty capacity).foldl hc recs

theorem Packed.length_flatten {capacity : Nat} {l : Layout} (h : l.Packed capacity) :
    l.chunks.flatten.length = l.full.length * capacity + l.current.length := by
  have hf : l.full.map List.length = List.replicate l.full.length capacity :=
    List.eq_replicate_iff.mpr ⟨List.length_map _, by simpa using h.full⟩
  rw [chunks, List.flatten_append, List.length_append, List.length_flatten, hf,
    List.sum_replicate_nat]
  simp

theorem getD_chunks_ofRecords {capacity : Nat} (hc : 0 < capacity)
    (recs : List (UInt64 × Event)) (j : Nat) :
    (ofRecords capacity recs).chunks.getD j [] = Blocks.block capacity recs j := by
  have hp := ofRecords_packed hc recs
  rw [chunks, Blocks.getD_eq_block hp.full hp.current, ← chunks, flatten_ofRecords]

theorem length_chunks_ofRecords {capacity : Nat} (hc : 0 < capacity)
    (recs : List (UInt64 × Event)) :
    (ofRecords capacity recs).chunks.length = Blocks.count capacity recs := by
  have hp := ofRecords_packed hc recs
  have hn := hp.length_flatten
  rw [flatten_ofRecords] at hn
  have hcur := hp.current
  have hpos : (ofRecords capacity recs).full ≠ [] → 0 < (ofRecords capacity recs).current.length :=
    fun h => List.length_pos_iff.mpr (hp.started h)
  rw [chunks, List.length_append, List.length_singleton, Blocks.count, hn]
  congr 1
  cases hf : (ofRecords capacity recs).full with
  | nil =>
    rw [List.length_nil, Nat.zero_mul, Nat.zero_add]
    exact (Nat.div_eq_of_lt (by omega)).symm
  | cons chunk full =>
    have := hpos (by simp [hf])
    rw [Nat.add_sub_assoc this, Nat.add_comm, Nat.add_mul_div_right _ _ hc,
      Nat.div_eq_of_lt (by omega), Nat.zero_add]

end Layout

/-- How many records a segment has room for. -/
def segmentCapacity (size : Nat) : Nat := (size - segmentHeaderSize) / totalRecordSize

theorem segmentCapacity_pos {size : Nat} (h : 1024 * 1024 ≤ size) : 0 < segmentCapacity size := by
  unfold segmentCapacity segmentHeaderSize totalRecordSize
  omega

theorem lt_segmentCapacity_iff {size k : Nat} (h : 1024 * 1024 ≤ size) :
    k < segmentCapacity size ↔
      segmentHeaderSize + totalRecordSize * k + totalRecordSize ≤ size := by
  unfold segmentCapacity segmentHeaderSize totalRecordSize
  omega

/-- What follows the header of a segment after `open_read_write`. -/
def staleBytes (segs : Segments) (size j : Nat) : List UInt8 :=
  (((segs j).getD []).takeD size 0).drop segmentHeaderSize

theorem length_staleBytes (segs : Segments) (size j : Nat) :
    (staleBytes segs size j).length = size - segmentHeaderSize := by
  rw [staleBytes, List.length_drop, List.takeD_length]

theorem staleBytes_fresh {segs : Segments} {j : Nat} (h : segs j = none) (size : Nat) :
    staleBytes segs size j = List.replicate (size - segmentHeaderSize) 0 := by
  rw [staleBytes, h, Option.getD_none, List.takeD_nil, List.drop_replicate]

/-- A segment of the session: header, new records, and the bytes that were
already there behind them. -/
def writtenSegment (env : SessionEnv) (segs : Segments) (size j : Nat)
    (recs : List (UInt64 × Event)) : List UInt8 :=
  (segmentHeader env j size).toBytes ++ recordsBytes recs ++
    (staleBytes segs size j).drop (totalRecordSize * recs.length)

/-- All segments after a session that has laid out these chunks. -/
def laid (env : SessionEnv) (segs : Segments) (size : Nat)
    (chunks : List (List (UInt64 × Event))) : Segments := fun j =>
  match chunks[j]? with
  | some recs => some (writtenSegment env segs size j recs)
  | none => segs j

section Laid

variable {env : SessionEnv} {segs : Segments} {size : Nat}

theorem laid_append_singleton (chunks : List (List (UInt64 × Event)))
    (recs : List (UInt64 × Event)) :
    laid env segs size (chunks ++ [recs]) =
      Function.update (laid env segs size chunks) chunks.length
        (some (writtenSegment env segs size chunks.length recs)) := by
  funext j
  rcases Nat.lt_trichotomy j chunks.length with hj | rfl | hj
  · rw [Function.update_of_ne (by omega)]
    simp only [laid, List.getElem?_append_left hj]
  · simp [laid]
  · rw [Function.update_of_ne (by omega)]
    simp only [laid]
    rw [List.getElem?_eq_none (by simp; omega), List.getElem?_eq_none (by omega)]

theorem laid_length (chunks : List (List (UInt64 × Event))) :
    laid env segs size chunks chunks.length = segs chunks.length := by
  simp [laid]

theorem length_writtenSegment {j : Nat} {recs : List (UInt64 × Event)}
    (h : segmentHeaderSize + totalRecordSize * recs.length ≤ size) :
    (writtenSegment env segs size j recs).length = size := by
  simp only [writtenSegment, List.length_append, JournalSegmentHeader.length_toBytes,
    length_recordsBytes, List.length_drop, length_staleBytes]
  unfold segmentHeaderSize at h ⊢
  omega

theorem length_writtenSegment_nil (hmin : 1024 * 1024 ≤ size) (j : Nat) :
    (writtenSegment env segs size j []).length = size := by
  apply length_writtenSegment
  rw [List.length_nil, Nat.mul_zero, Nat.add_zero]
  exact (show segmentHeaderSize ≤ 1024 * 1024 by decide).trans hmin

theorem splice_writtenSegment {j : Nat} {recs : List (UInt64 × Event)} (seq : UInt64) (e : Event) :
    splice (writtenSegment env segs size j recs)
        (segmentHeaderSize + totalRecordSize * recs.length) (recordBytes seq e) =
      writtenSegment env segs size j (recs ++ [(seq, e)]) := by
  have hl : ((segmentHeader env j size).toBytes ++ recordsBytes recs).length =
      segmentHeaderSize + totalRecordSize * recs.length := by
    rw [List.length_append, JournalSegmentHeader.length_toBytes, length_recordsBytes]
    rfl
  rw [writtenSegment, ← hl, splice_append, writtenSegment, recordsBytes_append, List.length_append,
    List.length_singleton, Nat.mul_add, Nat.mul_one, ← List.drop_drop, length_recordBytes]
  simp [recordsBytes_cons]

end Laid

/-- `open_read_write` succeeds on every segment file of the session. -/
def OpensAll (env : SessionEnv) (size : Nat) : Prop :=
  ∀ j dir path, (MmapFile.openReadWrite (env.openFault j) dir path size).1 = .kOk

theorem opensAll_iff {env : SessionEnv} {size : Nat} :
    OpensAll env size ↔ (∀ j, env.openFault j = none) ∧ 0 < size ∧ size < 2 ^ 63 := by
  constructor
  · intro h
    exact ⟨fun j => (MmapFile.openReadWrite_eq_ok (h j ∅ "")).1,
      (MmapFile.openReadWrite_eq_ok (h 0 ∅ "")).2⟩
  · rintro ⟨hf, hpos, hmax⟩ j dir path
    rw [hf, MmapFile.openReadWrite_ok dir path hpos hmax]

theorem opensAll_mebibyte (now : Nat → UInt64) :
    OpensAll ⟨now, fun _ => none⟩ (1024 * 1024) :=
  opensAll_iff.mpr ⟨fun _ => rfl, by decide, by decide⟩

/-- The writer stands in the last segment of the layout, behind its records. -/
structure WriterAt (env : SessionEnv) (segs : Segments) (size : Nat) (l : Layout)
    (w : JournalWriter) (dir : Directory) : Prop where
  isOpen : w.isOpen = true
  segmentSizeBytes : w.segmentSizeBytes = size
  currentSegmentId : w.currentSegmentId = l.full.length
  currentMmap : w.currentMmap = some (buildSegmentPath l.full.length)
  writeOffset : w.writeOffset = segmentHeaderSize + totalRecordSize * l.current.length
  represents : Represents dir (laid env segs size l.chunks)

section Session

variable {env : SessionEnv} {segs : Segments} {size : Nat}

/-- A roll keeps what is behind the header of the file it opens. -/
theorem rollSegmentLocked_insert (hopen : OpensAll env size) (hmin : 1024 * 1024 ≤ size)
    {w : JournalWriter} (hs : w.segmentSizeBytes = size) (dir : Directory) :
    ∃ file : FileImage,
      file.bytes = writtenSegment env (segmentsOf dir) size w.currentSegmentId [] ∧
      rollSegmentLocked env w dir = some (.kOk,
        { w with
          currentMmap := some (buildSegmentPath w.currentSegmentId)
          writeOffset := segmentHeaderSize },
        dir.insert (buildSegmentPath w.currentSegmentId)
          { (dir.lookup (buildSegmentPath w.currentSegmentId)).getD { file := FileImage.empty } with
            file := file }) := by
  obtain ⟨hf, -, hmax⟩ := opensAll_iff.mp hopen
  have ho := MmapFile.openReadWrite_ok dir (buildSegmentPath w.currentSegmentId)
    (by omega : 0 < size) hmax
  have hold : ((dir.lookup (buildSegmentPath w.currentSegmentId)).getD
      { file := FileImage.empty }).file.bytes =
        (segmentsOf dir w.currentSegmentId).getD [] := by
    rw [segmentsOf]
    cases dir.lookup (buildSegmentPath w.currentSegmentId) <;> rfl
  generalize (dir.lookup (buildSegmentPath w.currentSegmentId)).getD
    { file := FileImage.empty } = entry at ho hold ⊢
  have hlen : (entry.file.resize size hmax).bytes.length = size := List.takeD_length ..
  obtain ⟨file, hfile, hst⟩ := MmapFile.store_some
    (AList.lookup_insert (a := buildSegmentPath w.currentSegmentId)
      (b := { entry with file := entry.file.resize size hmax }) dir)
    (show 0 + (segmentHeader env w.currentSegmentId size).toBytes.length ≤ _ by
      rw [JournalSegmentHeader.length_toBytes, hlen]
      omega)
  rw [AList.insert_insert] at hst
  refine ⟨file, ?_, ?_⟩
  · have hzeros : (entry.file.resize size hmax).bytes =
        ((segmentsOf dir w.currentSegmentId).getD []).takeD size 0 := by
      rw [← hold]
      rfl
    rw [hfile, hzeros, splice, List.take_zero, List.nil_append,
      JournalSegmentHeader.length_toBytes, Nat.zero_add, writtenSegment, recordsBytes_nil,
      List.append_nil, List.length_nil, Nat.mul_zero, List.drop_zero]
    rfl
  · simp only [rollSegmentLocked, hf, hs, ho, hst]
    rfl

theorem rollSegmentLocked_represents (hopen : OpensAll env size) (hmin : 1024 * 1024 ≤ size)
    {w : JournalWriter} {dir : Directory} (hs : w.segmentSizeBytes = size)
    (hr : Represents dir segs) :
    ∃ dir', rollSegmentLocked env w dir = some (.kOk,
        { w with
          currentMmap := some (buildSegmentPath w.currentSegmentId)
          writeOffset := segmentHeaderSize }, dir') ∧
      Represents dir' (Function.update segs w.currentSegmentId
        (some (writtenSegment env segs size w.currentSegmentId []))) := by
  obtain ⟨file, hfile, hroll⟩ := rollSegmentLocked_insert hopen hmin hs dir
  refine ⟨_, hroll, ?_⟩
  rw [← hr.segmentsOf_eq, ← hfile, hr.segmentsOf_eq]
  exact hr.insert_file w.currentSegmentId file

theorem rollSegmentLocked_laid (hopen : OpensAll env size) (hmin : 1024 * 1024 ≤ size)
    {chunks : List (List (UInt64 × Event))} {w : JournalWriter}
    {dir : Directory} (hs : w.segmentSizeBytes = size) (hid : w.currentSegmentId = chunks.length)
    (hr : Represents dir (laid env segs size chunks)) :
    ∃ dir', rollSegmentLocked env w dir = some (.kOk,
        { w with
          currentMmap := some (buildSegmentPath chunks.length)
          writeOffset := segmentHeaderSize }, dir') ∧
      Represents dir' (laid env segs size (chunks ++ [[]])) := by
  obtain ⟨dir', hroll, hr'⟩ := rollSegmentLocked_represents hopen hmin hs hr
  rw [hid] at hr'
  refine ⟨dir', by rw [hroll, hid], ?_⟩
  have hstale : writtenSegment env (laid env segs size chunks) size chunks.length [] =
      writtenSegment env segs size chunks.length [] := by
    rw [writtenSegment, writtenSegment, staleBytes, staleBytes, laid_length]
  rwa [laid_append_singleton, ← hstale]

/-- The counters after a record is written. -/
def JournalWriter.counted (w : JournalWriter) : JournalWriter :=
  { w with
    sequenceCounter := w.sequenceCounter + 1
    totalEventsWritten := w.totalEventsWritten + 1
    totalBytesWritten := w.totalBytesWritten + UInt64.ofNat totalRecordSize }

namespace JournalWriter

variable (w : JournalWriter)

@[simp] theorem isOpen_reserve : w.reserve.isOpen = w.isOpen := by rw [reserve]

@[simp] theorem segmentSizeBytes_reserve : w.reserve.segmentSizeBytes = w.segmentSizeBytes := by
  rw [reserve]

@[simp] theorem currentSegmentId_reserve : w.reserve.currentSegmentId = w.currentSegmentId := by
  rw [reserve]

@[simp] theorem currentMmap_reserve : w.reserve.currentMmap = w.currentMmap := by rw [reserve]

@[simp] theorem sequenceCounter_reserve : w.reserve.sequenceCounter = w.sequenceCounter := by
  rw [reserve]

@[simp] theorem totalEventsWritten_reserve :
    w.reserve.totalEventsWritten = w.totalEventsWritten := by rw [reserve]

@[simp] theorem totalBytesWritten_reserve :
    w.reserve.totalBytesWritten = w.totalBytesWritten := by rw [reserve]

@[simp] theorem isOpen_counted : w.counted.isOpen = w.isOpen := by rw [counted]

@[simp] theorem segmentSizeBytes_counted : w.counted.segmentSizeBytes = w.segmentSizeBytes := by
  rw [counted]

@[simp] theorem currentSegmentId_counted : w.counted.currentSegmentId = w.currentSegmentId := by
  rw [counted]

@[simp] theorem currentMmap_counted : w.counted.currentMmap = w.currentMmap := by rw [counted]

@[simp] theorem writeOffset_counted : w.counted.writeOffset = w.writeOffset := by rw [counted]

@[simp] theorem sequenceCounter_counted :
    w.counted.sequenceCounter = w.sequenceCounter + 1 := by rw [counted]

@[simp] theorem totalEventsWritten_counted :
    w.counted.totalEventsWritten = w.totalEventsWritten + 1 := by rw [counted]

@[simp] theorem totalBytesWritten_counted :
    w.counted.totalBytesWritten = w.totalBytesWritten + UInt64.ofNat totalRecordSize := by
  rw [counted]

theorem next_reserve :
    ({ w.reserve with currentSegmentId := w.reserve.currentSegmentId + 1 } : JournalWriter) =
      { w with
        currentSegmentId := w.currentSegmentId + 1
        writeOffset := w.reserve.writeOffset } := by rw [reserve]

variable {w} {off : Nat}

theorem writeOffset_reserve (h : w.writeOffset + totalRecordSize < 2 ^ 64) :
    w.reserve.writeOffset = w.writeOffset + totalRecordSize := u64_of_lt h

theorem exceeds_iff (h : off + totalRecordSize < 2 ^ 64) :
    w.exceeds off = true ↔ w.segmentSizeBytes < off + totalRecordSize := by
  rw [exceeds, u64_of_lt h, decide_eq_true_iff, gt_iff_lt]

theorem exceeds_eq_false_iff (h : off + totalRecordSize < 2 ^ 64) :
    w.exceeds off = false ↔ off + totalRecordSize ≤ w.segmentSizeBytes := by
  rw [← Bool.not_eq_true, exceeds_iff h, Nat.not_lt]

end JournalWriter

/-- The two copies of a record are one store of the whole record. -/
theorem copyRecord_insert {w : JournalWriter} {dir : Directory} {path : String} {entry : DirEntry}
    {off : Nat} (hm : w.currentMmap = some path) (hl : dir.lookup path = some entry)
    (hb : off + totalRecordSize ≤ entry.file.bytes.length) (seq : UInt64) (e : Event) :
    ∃ file : FileImage, file.bytes = splice entry.file.bytes off (recordBytes seq e) ∧
      copyRecord w dir seq e off = some (dir.insert path { entry with file := file }) := by
  have hh : (recordHeader seq e).toBytes.length = 32 := JournalRecordHeader.length_toBytes _
  have he : e.toBytes.length = 128 := Event.length_toBytes e
  have hb' : off + 160 ≤ entry.file.bytes.length := hb
  obtain ⟨file₁, hfile₁, hst₁⟩ := MmapFile.store_some hl
    (show off + (recordHeader seq e).toBytes.length ≤ entry.file.bytes.length by omega)
  obtain ⟨file₂, hfile₂, hst₂⟩ := MmapFile.store_some
    (AList.lookup_insert (b := { entry with file := file₁ }) dir)
    (show off + 32 + e.toBytes.length ≤ file₁.bytes.length by
      rw [hfile₁, length_splice (by omega)]; omega)
  rw [AList.insert_insert] at hst₂
  refine ⟨file₂, ?_, ?_⟩
  · rw [hfile₂, hfile₁, ← hh, splice_splice (by omega)]
    rfl
  · rw [copyRecord, hm, hst₁]
    exact hst₂

/-- A copy is defined only where the whole record fits. -/
theorem copyRecord_eq_some {w : JournalWriter} {dir dir' : Directory} {off : Nat} {seq : UInt64}
    {e : Event} (h : copyRecord w dir seq e off = some dir') :
    ∃ path entry, w.currentMmap = some path ∧ dir.lookup path = some entry ∧
      off + totalRecordSize ≤ entry.file.bytes.length := by
  obtain ⟨dir₁, hheader, hevent⟩ := Option.bind_eq_some_iff.mp h
  obtain ⟨path, entry, hm, hl, hb⟩ := MmapFile.store_eq_some hheader
  obtain ⟨file, hfile, hstore⟩ := MmapFile.store_some hl hb
  rw [hm, hstore] at hheader
  obtain rfl := Option.some.inj hheader
  obtain ⟨path', entry', hm', hl', hb'⟩ := MmapFile.store_eq_some hevent
  obtain rfl := Option.some.inj (hm.symm.trans hm')
  rw [AList.lookup_insert] at hl'
  obtain rfl := Option.some.inj hl'
  refine ⟨path, entry, hm, hl, ?_⟩
  dsimp only at hb'
  rw [hfile, length_splice hb, Event.length_toBytes] at hb'
  exact hb'

theorem writeRecord_represents {w : JournalWriter} {dir : Directory} {j off : Nat}
    {data : List UInt8} (hr : Represents dir segs) (hj : segs j = some data)
    (hm : w.currentMmap = some (buildSegmentPath j)) (hb : off + totalRecordSize ≤ data.length)
    (e : Event) :
    ∃ dir', writeRecord w dir e off = some (.ok (w.sequenceCounter + 1), w.counted, dir') ∧
      Represents dir' (Function.update segs j
        (some (splice data off (recordBytes (w.sequenceCounter + 1) e)))) := by
  obtain ⟨entry, hl, rfl, hreg, hfault⟩ := hr.present j data hj
  obtain ⟨file, hfile, hcopy⟩ := copyRecord_insert hm hl hb (w.sequenceCounter + 1) e
  refine ⟨_, by rw [writeRecord, hcopy]; rfl, ?_⟩
  rw [← hfile]
  exact hr.insert j _ hreg hfault

theorem writeRecord_laid (hmin : 1024 * 1024 ≤ size) {full : List (List (UInt64 × Event))}
    {current : List (UInt64 × Event)} (hc : current.length < segmentCapacity size)
    {w : JournalWriter} {dir : Directory} (hm : w.currentMmap = some (buildSegmentPath full.length))
    (hr : Represents dir (laid env segs size (full ++ [current]))) (e : Event) :
    ∃ dir', writeRecord w dir e (segmentHeaderSize + totalRecordSize * current.length) =
        some (.ok (w.sequenceCounter + 1), w.counted, dir') ∧
      Represents dir' (laid env segs size (full ++ [current ++ [(w.sequenceCounter + 1, e)]])) := by
  have hroom := (lt_segmentCapacity_iff hmin).mp hc
  have hlen : (writtenSegment env segs size full.length current).length = size :=
    length_writtenSegment (by omega)
  rw [laid_append_singleton] at hr
  obtain ⟨dir', hw, hr'⟩ := writeRecord_represents hr (Function.update_self ..) hm
    (hlen.symm ▸ hroom) e
  refine ⟨dir', hw, ?_⟩
  rw [Function.update_idem, splice_writtenSegment] at hr'
  rwa [laid_append_singleton]

theorem append_of_fits {w : JournalWriter} {dir : Directory} (ho : w.isOpen = true)
    (hx : w.reserve.exceeds w.writeOffset = false) (e : Event) :
    append env w dir e = writeRecord w.reserve dir e w.writeOffset := by
  simp [append, ho, hx]

theorem append_of_rolls {w rolled : JournalWriter} {dir dir' : Directory} (ho : w.isOpen = true)
    (hx : w.reserve.exceeds w.writeOffset = true)
    (hx' : w.reserve.exceeds w.reserve.writeOffset = true)
    (hroll : rollSegmentLocked env
      { w.reserve with currentSegmentId := w.reserve.currentSegmentId + 1 } dir =
        some (.kOk, rolled, dir')) (e : Event) :
    append env w dir e = writeRecord rolled.reserve dir' e rolled.writeOffset := by
  simp only [append, ho, hx, hx', hroll]
  rfl

theorem WriterAt.counted {l : Layout} {w : JournalWriter} {dir : Directory}
    (h : WriterAt env segs size l w dir) : WriterAt env segs size l w.counted dir := by
  unfold JournalWriter.counted
  exact ⟨h.isOpen, h.segmentSizeBytes, h.currentSegmentId, h.currentMmap, h.writeOffset,
    h.represents⟩

/-- The end of `append` when there is room: the reservation and the copy. -/
theorem WriterAt.writeRecord (hmin : 1024 * 1024 ≤ size) (hmax : size < 2 ^ 63) {l : Layout}
    {w : JournalWriter} {dir : Directory} (h : WriterAt env segs size l w dir)
    (hlt : l.current.length < segmentCapacity size) (e : Event) :
    ∃ dir', JournalWriter.writeRecord w.reserve dir e w.writeOffset =
        some (.ok (w.sequenceCounter + 1), w.reserve.counted, dir') ∧
      WriterAt env segs size
        { l with current := l.current ++ [(w.sequenceCounter + 1, e)] } w.reserve.counted dir' := by
  have hfit := (lt_segmentCapacity_iff hmin).mp hlt
  obtain ⟨dir', hw, hr⟩ := writeRecord_laid hmin hlt
    (w.currentMmap_reserve.trans h.currentMmap) h.represents e
  rw [sequenceCounter_reserve] at hw hr
  refine ⟨dir', by rw [h.writeOffset, hw], WriterAt.counted ?_⟩
  unfold reserve
  refine ⟨h.isOpen, h.segmentSizeBytes, h.currentSegmentId, h.currentMmap, ?_, hr⟩
  rw [h.writeOffset, u64_of_lt (by omega), List.length_append, List.length_singleton,
    Nat.mul_add, Nat.mul_one, Nat.add_assoc]

/-- A rollover starts the next segment of the layout. -/
theorem WriterAt.roll (hopen : OpensAll env size) (hmin : 1024 * 1024 ≤ size) {l : Layout}
    {w : JournalWriter} {dir : Directory} (h : WriterAt env segs size l w dir) :
    ∃ rolled dir', rollSegmentLocked env
        { w.reserve with currentSegmentId := w.reserve.currentSegmentId + 1 } dir =
          some (.kOk, rolled, dir') ∧
      rolled.sequenceCounter = w.sequenceCounter ∧
      WriterAt env segs size { full := l.chunks, current := [] } rolled dir' := by
  have hlen : w.reserve.currentSegmentId + 1 = l.chunks.length := by
    rw [currentSegmentId_reserve, h.currentSegmentId, Layout.chunks, List.length_append,
      List.length_singleton]
  obtain ⟨dir', hroll, hr⟩ := rollSegmentLocked_laid
    (w := { w.reserve with currentSegmentId := w.reserve.currentSegmentId + 1 }) hopen hmin
    (w.segmentSizeBytes_reserve.trans h.segmentSizeBytes) hlen h.represents
  refine ⟨_, dir', hroll, w.sequenceCounter_reserve, ?_⟩
  exact
    { isOpen := w.isOpen_reserve.trans h.isOpen
      segmentSizeBytes := w.segmentSizeBytes_reserve.trans h.segmentSizeBytes
      currentSegmentId := hlen
      currentMmap := rfl
      writeOffset := rfl
      represents := hr }

/-- One `append` pushes the record, with the next sequence number. -/
theorem append_laid (hopen : OpensAll env size) (hmin : 1024 * 1024 ≤ size)
    {l : Layout} (hl : l.Packed (segmentCapacity size)) {w : JournalWriter}
    {dir : Directory} (h : WriterAt env segs size l w dir) (e : Event) :
    ∃ w' dir', append env w dir e = some (.ok (w.sequenceCounter + 1), w', dir') ∧
      w'.sequenceCounter = w.sequenceCounter + 1 ∧
      WriterAt env segs size
        (l.push (segmentCapacity size) (w.sequenceCounter + 1, e)) w' dir' := by
  have hmax := (opensAll_iff.mp hopen).2.2
  have hle : w.writeOffset ≤ size := by
    have hcur := hl.current
    rw [h.writeOffset]
    unfold segmentCapacity at hcur
    unfold segmentHeaderSize totalRecordSize at hcur ⊢
    omega
  have hiff := (lt_segmentCapacity_iff hmin (k := l.current.length)).symm
  rw [← h.writeOffset] at hiff
  have hsmall : w.writeOffset + totalRecordSize + totalRecordSize < 2 ^ 64 := by
    unfold totalRecordSize
    omega
  have hsize := w.segmentSizeBytes_reserve.trans h.segmentSizeBytes
  by_cases hlt : l.current.length < segmentCapacity size
  · have hx : w.reserve.exceeds w.writeOffset = false := by
      rw [exceeds_eq_false_iff (by omega), hsize, hiff]
      exact hlt
    obtain ⟨dir', hw, hat⟩ := h.writeRecord hmin hmax hlt e
    rw [Layout.push, if_pos hlt]
    exact ⟨_, dir', (append_of_fits h.isOpen hx e).trans hw, rfl, hat⟩
  · have hfull : size < w.writeOffset + totalRecordSize := by
      rw [← Nat.not_le, hiff]
      exact hlt
    have hx : w.reserve.exceeds w.writeOffset = true := by
      rw [exceeds_iff (by omega), hsize]
      exact hfull
    have hx' : w.reserve.exceeds w.reserve.writeOffset = true := by
      rw [writeOffset_reserve (by omega), exceeds_iff hsmall, hsize]
      exact Nat.lt_add_right _ hfull
    obtain ⟨rolled, dir₁, hroll, hseq, hat₁⟩ := h.roll hopen hmin
    obtain ⟨dir₂, hw, hat₂⟩ := hat₁.writeRecord hmin hmax (segmentCapacity_pos hmin) e
    rw [hseq] at hw hat₂
    rw [Layout.push, if_neg hlt]
    refine ⟨_, dir₂, (append_of_rolls h.isOpen hx hx' hroll e).trans hw, ?_, hat₂⟩
    exact congrArg (· + 1) (rolled.sequenceCounter_reserve.trans hseq)

/-- The records of events appended after sequence number `seq`. -/
def numbered (seq : UInt64) : List Event → List (UInt64 × Event)
  | [] => []
  | e :: es => (seq + 1, e) :: numbered (seq + 1) es

theorem map_snd_numbered (seq : UInt64) (es : List Event) : (numbered seq es).map (·.2) = es := by
  induction es generalizing seq with
  | nil => rfl
  | cons e es ih => rw [numbered, List.map_cons, ih]

theorem map_fst_numbered {α : Type*} (f : UInt64 → α) (seq : UInt64) (es : List Event) :
    (numbered seq es).map (fun r => f r.1) =
      (List.range es.length).map fun i => f (seq + UInt64.ofNat (i + 1)) := by
  induction es generalizing seq with
  | nil => rfl
  | cons e es ih =>
    rw [numbered, List.map_cons, ih, List.length_cons, List.range_succ_eq_map, List.map_cons,
      List.map_map]
    congr 1
    apply List.map_congr_left
    intro i _
    rw [Function.comp, UInt64.add_assoc, UInt64.ofNat_add (i + 1) 1, UInt64.add_comm 1]
    rfl

theorem length_numbered (seq : UInt64) (es : List Event) :
    (numbered seq es).length = es.length := by
  rw [← List.length_map (fun r : UInt64 × Event => r.2), map_snd_numbered]

theorem appendAll_laid (hopen : OpensAll env size) (hmin : 1024 * 1024 ≤ size)
    (es : List Event) {l : Layout} (hl : l.Packed (segmentCapacity size))
    {w : JournalWriter} {dir : Directory} (h : WriterAt env segs size l w dir) :
    ∃ w' dir', appendAll env w dir es =
        some ((numbered w.sequenceCounter es).map (.ok ·.1), w', dir') ∧
      WriterAt env segs size
        ((numbered w.sequenceCounter es).foldl (Layout.push (segmentCapacity size)) l) w' dir' := by
  induction es generalizing l w dir with
  | nil => exact ⟨w, dir, rfl, h⟩
  | cons e es ih =>
    obtain ⟨w₁, dir₁, ha, hseq, h₁⟩ := append_laid hopen hmin hl h e
    obtain ⟨w₂, dir₂, hrest, h₂⟩ := ih (hl.push (segmentCapacity_pos hmin) _) h₁
    rw [hseq] at hrest h₂
    refine ⟨w₂, dir₂, ?_, h₂⟩
    simp [appendAll, ha, hrest, numbered]

/-- The segments after a session: the records are written from segment 0 on,
over what was there. -/
def afterSession (env : SessionEnv) (segs : Segments) (size : Nat)
    (recs : List (UInt64 × Event)) : Segments := fun j =>
  if j < Blocks.count (segmentCapacity size) recs then
    some (writtenSegment env segs size j (Blocks.block (segmentCapacity size) recs j))
  else segs j

theorem laid_ofRecords (hmin : 1024 * 1024 ≤ size) (recs : List (UInt64 × Event)) :
    laid env segs size (Layout.ofRecords (segmentCapacity size) recs).chunks =
      afterSession env segs size recs := by
  have hc := segmentCapacity_pos hmin
  funext j
  rw [laid, afterSession, ← Layout.length_chunks_ofRecords hc, ← Layout.getD_chunks_ofRecords hc]
  split_ifs with hj
  · simp [hj]
  · rw [List.getElem?_eq_none (Nat.le_of_not_lt hj)]

theorem open_laid (hopen : OpensAll env size) (hmin : 1024 * 1024 ≤ size)
    {w : JournalWriter} {dir : Directory} (hc : w.isOpen = false) (hr : Represents dir segs) :
    ∃ w' dir', JournalWriter.«open» env w dir size = some (.kOk, w', dir') ∧
      w'.sequenceCounter = w.sequenceCounter ∧ WriterAt env segs size {} w' dir' := by
  obtain ⟨dir', hroll, hr'⟩ := rollSegmentLocked_laid
    (w := { w with segmentSizeBytes := size, currentSegmentId := 0 }) hopen hmin rfl
    (show 0 = ([] : List (List (UInt64 × Event))).length from rfl) hr
  rw [JournalWriter.«open», if_neg (by simp [hc]), if_neg (by omega)]
  simp only [hroll]
  exact ⟨_, dir', rfl, rfl, rfl, rfl, rfl, rfl, rfl, hr'⟩

/-- A session in which every segment file can be opened accepts every event,
numbers them in turn and lays their records out. -/
theorem session_laid (hopen : OpensAll env size) (hmin : 1024 * 1024 ≤ size)
    {w : JournalWriter} {dir : Directory} (hc : w.isOpen = false)
    (hr : Represents dir segs) (es : List Event) :
    ∃ w' dir', session env w dir size es =
        some (.kOk, (numbered w.sequenceCounter es).map (.ok ·.1), w', dir') ∧
      w'.isOpen = false ∧
      Represents dir' (afterSession env segs size (numbered w.sequenceCounter es)) := by
  obtain ⟨opened, dir₁, hstart, hseq, hat⟩ := open_laid hopen hmin hc hr
  obtain ⟨w', dir', happ, hend⟩ := appendAll_laid hopen hmin es (Layout.packed_empty _) hat
  rw [hseq] at happ hend
  refine ⟨w'.close, dir', ?_, ?_, laid_ofRecords hmin _ ▸ hend.represents⟩
  · simp [session, hstart, happ]
  · simp [close, hend.isOpen]

end Session

end Ume
