import Ume.Event.TornAppend

/-! A crash at any instant of a session. Inside a copy, any part of its bytes may have
been stored; inside a rollover, the new file may be missing, empty, or without its header.
Every event whose append has returned is replayed, and at most the one in flight with
them. -/

namespace Ume

open ByteString JournalWriter

namespace MmapFile

/-- A copy into the mapping in which only the bytes of `done` have been stored yet. -/
def partialStore (dir : Directory) (mapped : Option String) (off : Nat) (data : List UInt8)
    (done : Nat → Bool) : Option Directory := do
  let path ← mapped
  let entry ← dir.lookup path
  let file ← entry.file.store off (mix done (slice entry.file.bytes off data.length) data)
  return dir.insert path { entry with file := file }

/-- The directories during `open_read_write`: before it, with the file created and not yet
resized, and after it. -/
def openInstants (fault : Option OpenFault) (dir : Directory) (path : String)
    (initialSizeBytes : Nat) : Set Directory :=
  {d | d = dir ∨
    (fault ≠ some .open ∧
      d = dir.insert path ((dir.lookup path).getD { file := FileImage.empty })) ∨
    d = (openReadWrite fault dir path initialSizeBytes).2}

theorem partialStore_some {dir : Directory} {path : String} {entry : DirEntry} {off : Nat}
    {data : List UInt8} (hl : dir.lookup path = some entry)
    (h : off + data.length ≤ entry.file.bytes.length) (done : Nat → Bool) :
    ∃ file : FileImage, file.bytes = splice entry.file.bytes off
        (mix done (slice entry.file.bytes off data.length) data) ∧
      partialStore dir (some path) off data done =
        some (dir.insert path { entry with file := file }) := by
  rw [← length_mix done (slice entry.file.bytes off data.length) data] at h
  obtain ⟨file, hfile, hs⟩ := store_some hl h
  refine ⟨file, hfile, ?_⟩
  simpa only [store, partialStore, hl, Option.bind_eq_bind, Option.bind_some] using hs

end MmapFile

namespace JournalWriter

def rollInstants (env : SessionEnv) (w : JournalWriter) (dir : Directory) : Set Directory :=
  let path := buildSegmentPath w.currentSegmentId
  let fault := env.openFault w.currentSegmentId
  {d | d ∈ MmapFile.openInstants fault dir path w.segmentSizeBytes ∨
    ∃ opened done, MmapFile.openReadWrite fault dir path w.segmentSizeBytes = (.kOk, opened) ∧
      MmapFile.partialStore opened (some path) 0
        (segmentHeader env w.currentSegmentId w.segmentSizeBytes).toBytes done = some d}

/-- The two copies of a record, in whatever order their bytes are stored. -/
def writeInstants (w : JournalWriter) (dir : Directory) (event : Event) (offset : Nat) :
    Set Directory :=
  {d | ∃ done, MmapFile.partialStore dir w.currentMmap offset
    (recordBytes (w.sequenceCounter + 1) event) done = some d}

def openingInstants (env : SessionEnv) (w : JournalWriter) (dir : Directory)
    (segmentSizeBytes : Nat) : Set Directory :=
  if w.isOpen then {dir}
  else if segmentSizeBytes < 1024 * 1024 then {dir}
  else rollInstants env { w with segmentSizeBytes := segmentSizeBytes, currentSegmentId := 0 } dir

/-- The directories during one `append`, along its branches. -/
def appendInstants (env : SessionEnv) (w : JournalWriter) (dir : Directory) (event : Event) :
    Set Directory :=
  if !w.isOpen then {dir}
  else
    let offset := w.writeOffset
    let w := w.reserve
    if w.exceeds offset then
      if w.exceeds w.writeOffset then
        let w := { w with currentSegmentId := w.currentSegmentId + 1 }
        {d | d ∈ rollInstants env w dir ∨
          ∃ rolled dir', rollSegmentLocked env w dir = some (.kOk, rolled, dir') ∧
            d ∈ writeInstants rolled.reserve dir' event rolled.writeOffset}
      else {dir} ∪ writeInstants w.reserve dir event w.writeOffset
    else {dir} ∪ writeInstants w dir event offset

/-- How many of the appends have returned, and the directory, at the instants of a
sequence of appends. -/
def appendAllInstants (env : SessionEnv) :
    JournalWriter → Directory → List Event → Set (Nat × Directory)
  | _, dir, [] => {(0, dir)}
  | w, dir, e :: es =>
    {p | (p.1 = 0 ∧ p.2 ∈ appendInstants env w dir e) ∨
      ∃ result w' dir' n, append env w dir e = some (result, w', dir') ∧
        (n, p.2) ∈ appendAllInstants env w' dir' es ∧ p.1 = n + 1}

/-- The instants of a session; `close` stores nothing. -/
def sessionInstants (env : SessionEnv) (w : JournalWriter) (dir : Directory)
    (segmentSizeBytes : Nat) (events : List Event) : Set (Nat × Directory) :=
  {p | (p.1 = 0 ∧ p.2 ∈ openingInstants env w dir segmentSizeBytes) ∨
    ∃ status w' dir', «open» env w dir segmentSizeBytes = some (status, w', dir') ∧
      p ∈ appendAllInstants env w' dir' events}

end JournalWriter

section Last

variable {env : SessionEnv} {w w' : JournalWriter} {dir dir' : Directory}

theorem appendAll_mem_appendAllInstants {es : List Event}
    {results : List (Except Status UInt64)}
    (h : appendAll env w dir es = some (results, w', dir')) :
    (es.length, dir') ∈ appendAllInstants env w dir es := by
  induction es generalizing w dir results with
  | nil =>
    obtain ⟨-, -, rfl⟩ : _ ∧ _ ∧ dir = dir' := by simpa [appendAll] using h
    rfl
  | cons e es ih =>
    obtain ⟨⟨result, w₁, dir₁⟩, happ, h⟩ := Option.bind_eq_some_iff.mp h
    obtain ⟨⟨results', w₂, dir₂⟩, hrest, h⟩ := Option.bind_eq_some_iff.mp h
    obtain ⟨-, rfl, rfl⟩ : _ ∧ w₂ = w' ∧ dir₂ = dir' := by simpa using h
    exact .inr ⟨result, w₁, dir₁, es.length, happ, ih hrest, rfl⟩

theorem session_mem_sessionInstants {size : Nat} {events : List Event} {status : Status}
    {results : List (Except Status UInt64)}
    (h : session env w dir size events = some (status, results, w', dir')) :
    (events.length, dir') ∈ sessionInstants env w dir size events := by
  obtain ⟨⟨_, opened, dir₁⟩, ho, h⟩ := Option.bind_eq_some_iff.mp h
  obtain ⟨⟨_, appended, dir₂⟩, ha, h⟩ := Option.bind_eq_some_iff.mp h
  obtain ⟨-, -, -, rfl⟩ : _ ∧ _ ∧ _ ∧ dir₂ = dir' := by simpa using h
  exact .inr ⟨_, opened, dir₁, ho, appendAll_mem_appendAllInstants ha⟩

end Last

/-- The replay delivers what the files hold up to the first that does not load. -/
theorem dispatches_of_scanJournal {dir : Directory} {paths : List String} {es : List Delivery}
    {t : Tally} (hp : JournalReader.segmentPathsOf dir = paths)
    (hj : ScanJournal dir 0 paths es t) :
    ReplayEngine.Dispatches dir ((es.map (·.event)).map Event.replayed) := by
  cases hj with
  | nil =>
    exact .of_result fun more (_ : more ≥ 0) => ReplayEngine.replayDirectory_of_nil _ hp more []
  | bad h =>
    refine ⟨0, fun more _ => ?_⟩
    obtain ⟨status, -, hr⟩ := ReplayEngine.replayOpened_of_bad (fun log e => log ++ [e]) h _ more []
    exact ⟨_, (ReplayEngine.replayDirectory_of_cons _ hp more []).trans hr⟩
  | good h hs hr => exact ReplayEngine.dispatches_of_scan hp (.good h hs hr) (by rw [h]; rfl)

theorem scanJournal_before {dir : Directory} {files : List (String × List (Nat × Event))}
    (h : ∀ f ∈ files, ∃ data, loadSegment dir f.1 = some data ∧ Scans data segmentHeaderSize f.2)
    {rest : List String} (hrest : ∀ i, ∃ t, ScanJournal dir i rest [] t) (i : Nat) :
    ∃ es t, ScanJournal dir i (files.map (·.1) ++ rest) es t ∧
      es.map (·.event) = (files.flatMap (·.2)).map (·.2) := by
  induction files generalizing i with
  | nil =>
    obtain ⟨t, ht⟩ := hrest i
    exact ⟨[], t, ht, rfl⟩
  | cons f files ih =>
    obtain ⟨data, hl, t, stop, hs⟩ := h f List.mem_cons_self
    obtain ⟨es, u, hj, he⟩ := ih (fun g hg => h g (List.mem_cons_of_mem _ hg)) (i + 1)
    refine ⟨_, _, .good hl hs hj, ?_⟩
    rw [List.map_append, Delivery.map_event_inSegment, he, List.flatMap_cons, List.map_append]

section Layouts

variable {env : SessionEnv} {size : Nat} {dir : Directory} {chunks : List (List (UInt64 × Event))}

theorem map_flatMap_deliveries (ha : ∀ r ∈ chunks.flatten, EventSerializer.accepts r.2 = true) :
    (chunks.flatMap (deliveries segmentHeaderSize)).map (·.2) = chunks.flatten.map (·.2) := by
  induction chunks with
  | nil => rfl
  | cons recs chunks ih =>
    rw [List.flatten_cons, List.forall_mem_append] at ha
    rw [List.flatMap_cons, List.map_append, map_deliveries, acceptedEvents_eq ha.1, ih ha.2,
      List.flatten_cons, List.map_append]

/-- Segments that read as the chunks, and behind them nothing that could be read. -/
theorem dispatches_of_chunks (ha : ∀ r ∈ chunks.flatten, EventSerializer.accepts r.2 = true)
    {rest : List String} (hp : JournalReader.segmentPathsOf dir =
      (List.range chunks.length).map buildSegmentPath ++ rest)
    (hs : ∀ j recs, chunks[j]? = some recs → ∃ data,
      loadSegment dir (buildSegmentPath j) = some data ∧
        Scans data segmentHeaderSize (deliveries segmentHeaderSize recs))
    (hrest : ∀ i, ∃ t, ScanJournal dir i rest [] t) :
    ReplayEngine.Dispatches dir ((chunks.flatten.map (·.2)).map Event.replayed) := by
  have hfiles : ∀ f ∈ chunks.mapIdx fun j recs =>
      (buildSegmentPath j, deliveries segmentHeaderSize recs),
      ∃ data, loadSegment dir f.1 = some data ∧ Scans data segmentHeaderSize f.2 := by
    intro f hf
    obtain ⟨j, hj, rfl⟩ := List.mem_mapIdx.mp hf
    exact hs j _ (List.getElem?_eq_getElem hj)
  obtain ⟨es, t, hj, he⟩ := scanJournal_before hfiles hrest 0
  have hpaths : (chunks.mapIdx fun j recs =>
      (buildSegmentPath j, deliveries segmentHeaderSize recs)).map (·.1) =
        (List.range chunks.length).map buildSegmentPath := by
    apply List.ext_getElem <;> simp
  have hevents : (chunks.mapIdx fun j recs =>
      (buildSegmentPath j, deliveries segmentHeaderSize recs)).map (·.2) =
        chunks.map (deliveries segmentHeaderSize) := by
    apply List.ext_getElem <;> simp
  rw [hpaths] at hj
  rw [List.flatMap_def, hevents, ← List.flatMap_def, map_flatMap_deliveries ha] at he
  rw [← he]
  exact dispatches_of_scanJournal hp hj

theorem laid_fresh {j : Nat} {recs : List (UInt64 × Event)} (hj : chunks[j]? = some recs) :
    laid env (fun _ => none) size chunks j =
      some (writtenSegment env (fun _ => none) size j recs) := by
  simp [laid, hj]

theorem laid_fresh_isSome_iff (j : Nat) :
    (laid env (fun _ => none) size chunks j).isSome ↔ j < chunks.length := by
  by_cases hj : j < chunks.length
  · simp [laid, hj]
  · simp [laid, hj]

theorem scans_laid {segs : Segments} {j : Nat} {recs : List (UInt64 × Event)}
    (hr : Represents dir segs)
    (hj : segs j = some (writtenSegment env (fun _ => none) size j recs)) :
    ∃ data, loadSegment dir (buildSegmentPath j) = some data ∧
      Scans data segmentHeaderSize (deliveries segmentHeaderSize recs) := by
  have hholds : HoldsRecords (writtenSegment env (fun _ => none) size j recs) recs := by
    apply holdsRecords_writtenSegment
    rw [staleBytes_fresh rfl, List.drop_replicate]
    exact endMark_replicate _
  exact ⟨_, hr.loadSegment hj hholds.validSegment, _, _, hholds.scan⟩

/-- The segments are complete, and the next file is not there. -/
theorem dispatches_of_laid (ha : ∀ r ∈ chunks.flatten, EventSerializer.accepts r.2 = true)
    (hr : Represents dir (laid env (fun _ => none) size chunks)) (hle : chunks.length ≤ 1000000) :
    ReplayEngine.Dispatches dir ((chunks.flatten.map (·.2)).map Event.replayed) := by
  have hpaths : JournalReader.segmentPathsOf dir =
      (List.range chunks.length).map buildSegmentPath ++ [] := by
    rw [hr.segmentPathsOf laid_fresh_isSome_iff, pathOrder_eq_range hle, List.append_nil]
  exact dispatches_of_chunks ha hpaths (fun j recs hj => scans_laid hr (laid_fresh hj))
    fun i => ⟨_, .nil⟩

theorem scans_of_zeros {data : List UInt8} {k : Nat}
    (h : data.drop segmentHeaderSize = List.replicate k 0) :
    ∃ t stop, Scan data segmentHeaderSize [] t stop := by
  have hdrop : data.drop segmentHeaderSize = recordsBytes [] ++ List.replicate k 0 := by
    rw [h, recordsBytes_nil, List.nil_append]
  exact ⟨_, _, scan_records_endMark hdrop (endMark_replicate k)⟩

/-- The next file is there and has no record yet, whatever its header is. -/
theorem dispatches_of_begun (ha : ∀ r ∈ chunks.flatten, EventSerializer.accepts r.2 = true)
    {data : List UInt8} {k : Nat} (hdata : data.drop segmentHeaderSize = List.replicate k 0)
    (hr : Represents dir (Function.update (laid env (fun _ => none) size chunks) chunks.length
      (some data))) (hlt : chunks.length < 1000000) :
    ReplayEngine.Dispatches dir ((chunks.flatten.map (·.2)).map Event.replayed) := by
  have hsome : ∀ j, (Function.update (laid env (fun _ => none) size chunks) chunks.length
      (some data) j).isSome ↔ j < chunks.length + 1 := by
    intro j
    by_cases hj : j = chunks.length
    · simp [hj]
    · rw [Function.update_of_ne hj, laid_fresh_isSome_iff]
      omega
  have hpaths : JournalReader.segmentPathsOf dir =
      (List.range chunks.length).map buildSegmentPath ++ [buildSegmentPath chunks.length] := by
    rw [hr.segmentPathsOf hsome, pathOrder_eq_range hlt, List.range_succ, List.map_append,
      List.map_singleton]
  apply dispatches_of_chunks ha hpaths
  · intro j recs hj
    have hlt : j < chunks.length := (List.getElem?_eq_some_iff.mp hj).1
    apply scans_laid hr
    rw [Function.update_of_ne hlt.ne]
    exact laid_fresh hj
  · intro i
    have hself := Function.update_self chunks.length (some data)
      (laid env (fun _ => none) size chunks)
    cases hv : validSegment data with
    | false => exact ⟨_, .bad (hr.loadSegment_of_invalid hself hv)⟩
    | true =>
      obtain ⟨t, stop, hs⟩ := scans_of_zeros hdata
      exact ⟨_, .good (hr.loadSegment hself hv) hs .nil⟩

end Layouts

section Instants

variable {env : SessionEnv} {segs : Segments} {size : Nat} {w : JournalWriter} {dir d : Directory}

/-- In a rollover the next file is missing, or it has nothing behind its header. -/
theorem rollInstants_represents (hopen : OpensAll env size) (hmin : 1024 * 1024 ≤ size)
    (hs : w.segmentSizeBytes = size) (hr : Represents dir segs)
    (hnone : segs w.currentSegmentId = none) (hd : d ∈ rollInstants env w dir) :
    Represents d segs ∨ ∃ data k, data.drop segmentHeaderSize = List.replicate k 0 ∧
      Represents d (Function.update segs w.currentSegmentId (some data)) := by
  obtain ⟨hf, -, hmax⟩ := opensAll_iff.mp hopen
  have ho := MmapFile.openReadWrite_ok dir (buildSegmentPath w.currentSegmentId)
    (by omega : 0 < size) hmax
  rw [hr.lookup_none hnone, Option.getD_none] at ho
  have hzeros : (FileImage.empty.resize size hmax).bytes = List.replicate size 0 :=
    List.takeD_nil ..
  simp only [rollInstants, MmapFile.openInstants, hf, hs, ho, hr.lookup_none hnone,
    Option.getD_none, Set.mem_ofPred_eq] at hd
  rcases hd with (rfl | ⟨-, rfl⟩ | rfl) | ⟨opened, done, hopened, hstore⟩
  · exact .inl hr
  · exact .inr ⟨[], 0, rfl, hr.insert _ _ rfl rfl⟩
  · refine .inr ⟨_, size - segmentHeaderSize, ?_, hr.insert _ _ rfl rfl⟩
    rw [hzeros, List.drop_replicate]
  · obtain rfl := (Prod.mk.inj hopened).2
    have hlen : (segmentHeader env w.currentSegmentId size).toBytes.length = 64 :=
      JournalSegmentHeader.length_toBytes _
    have hfits : 0 + (segmentHeader env w.currentSegmentId size).toBytes.length ≤
        (FileImage.empty.resize size hmax).bytes.length := by
      rw [hzeros, List.length_replicate]
      omega
    obtain ⟨file, hfile, hs'⟩ := MmapFile.partialStore_some
      (AList.lookup_insert (a := buildSegmentPath w.currentSegmentId)
        (b := { file := FileImage.empty.resize size hmax }) dir) hfits done
    rw [AList.insert_insert] at hs'
    obtain rfl := Option.some.inj (hs'.symm.trans hstore)
    refine .inr ⟨_, size - segmentHeaderSize, ?_, hr.insert _ _ rfl rfl⟩
    rw [hfile, hzeros, splice, List.take_zero, List.nil_append, length_mix, hlen, Nat.zero_add,
      List.drop_replicate]
    exact List.drop_left' (by rw [length_mix, hlen]; rfl)

theorem accepts_nil : ∀ r ∈ ([] : List (UInt64 × Event)), EventSerializer.accepts r.2 = true :=
  nofun

/-- The segment with the records before the slot, of which any bytes may be in the slot. -/
def slottedSegment (env : SessionEnv) (size j : Nat) {current : List (UInt64 × Event)}
    (ha : ∀ r ∈ current, EventSerializer.accepts r.2 = true) (slot : Block totalRecordSize) :
    SlottedSegment where
  header := segmentHeader env j size
  header_valid := segmentHeader_valid _ _ _
  before := current
  slot := slot
  after := []
  padding := size - segmentHeaderSize - totalRecordSize * current.length - totalRecordSize
  accepts_before := ha
  accepts_after := accepts_nil

theorem length_before_slot (j : Nat) (current : List (UInt64 × Event)) :
    ((segmentHeader env j size).toBytes ++ recordsBytes current).length =
      segmentHeaderSize + totalRecordSize * current.length := by
  rw [List.length_append, JournalSegmentHeader.length_toBytes, length_recordsBytes]
  rfl

theorem splice_slot {j : Nat} {current : List (UInt64 × Event)}
    (ha : ∀ r ∈ current, EventSerializer.accepts r.2 = true) (slot : Block totalRecordSize) :
    splice (writtenSegment env (fun _ => none) size j current)
        (segmentHeaderSize + totalRecordSize * current.length) slot.bytes =
      (slottedSegment env size j ha slot).bytes := by
  rw [writtenSegment, ← length_before_slot j current, splice_append, staleBytes_fresh rfl,
    List.drop_replicate, List.drop_replicate, slot.length_bytes, List.append_assoc,
    List.append_assoc, SlottedSegment.bytes]
  simp only [slottedSegment, recordsBytes_nil, List.nil_append]

theorem slice_free (hmin : 1024 * 1024 ≤ size) {j : Nat} {current : List (UInt64 × Event)}
    (hc : current.length < segmentCapacity size) :
    slice (writtenSegment env (fun _ => none) size j current)
        (segmentHeaderSize + totalRecordSize * current.length) totalRecordSize =
      List.replicate totalRecordSize 0 := by
  have hroom := (lt_segmentCapacity_iff hmin).mp hc
  rw [slice, writtenSegment, List.drop_left' (length_before_slot j current),
    staleBytes_fresh rfl, List.drop_replicate, List.take_replicate, Nat.min_eq_left (by omega)]

/-- Some bytes of a record, and zeros. -/
def partialSlot (done : Nat → Bool) (seq : UInt64) (e : Event) : Block totalRecordSize where
  bytes := mix done (List.replicate totalRecordSize 0) (recordBytes seq e)
  length_bytes := by rw [length_mix, length_recordBytes]

theorem drop_slottedSegment {j : Nat} {current : List (UInt64 × Event)}
    (ha : ∀ r ∈ current, EventSerializer.accepts r.2 = true) (slot : Block totalRecordSize) :
    (slottedSegment env size j ha slot).bytes.drop (slottedSegment env size j ha slot).offset =
      slot.bytes ++ List.replicate (slottedSegment env size j ha slot).padding 0 := by
  rw [SlottedSegment.drop_offset, show (slottedSegment env size j ha slot).after = [] from rfl,
    recordsBytes_nil, List.nil_append]
  rfl

/-- In the copy of a record the last segment is complete up to the slot of the record. -/
theorem partialStore_represents (hmin : 1024 * 1024 ≤ size)
    {full : List (List (UInt64 × Event))} {current : List (UInt64 × Event)}
    (hc : current.length < segmentCapacity size)
    (ha : ∀ r ∈ current, EventSerializer.accepts r.2 = true)
    (hr : Represents dir (laid env (fun _ => none) size (full ++ [current]))) (seq : UInt64)
    (e : Event) (done : Nat → Bool) :
    ∃ d, MmapFile.partialStore dir (some (buildSegmentPath full.length))
        (segmentHeaderSize + totalRecordSize * current.length) (recordBytes seq e) done = some d ∧
      Represents d (Function.update (laid env (fun _ => none) size full) full.length
        (some (slottedSegment env size full.length ha (partialSlot done seq e)).bytes)) := by
  have hroom := (lt_segmentCapacity_iff hmin).mp hc
  rw [laid_append_singleton] at hr
  obtain ⟨entry, hl, hbytes, hreg, hfault⟩ := hr.present _ _ (Function.update_self ..)
  have hfits : segmentHeaderSize + totalRecordSize * current.length +
      (recordBytes seq e).length ≤ entry.file.bytes.length := by
    rw [hbytes, length_recordBytes, length_writtenSegment (by omega)]
    exact hroom
  obtain ⟨file, hfile, hs⟩ := MmapFile.partialStore_some hl hfits done
  refine ⟨_, hs, ?_⟩
  have hslot : file.bytes =
      (slottedSegment env size full.length ha (partialSlot done seq e)).bytes := by
    rw [hfile, hbytes, length_recordBytes, slice_free hmin hc, ← splice_slot, partialSlot]
  have hr' := hr.insert full.length { entry with file := file } hreg hfault
  rw [Function.update_idem] at hr'
  rwa [← hslot]

theorem writeInstants_represents (hmin : 1024 * 1024 ≤ size)
    {full : List (List (UInt64 × Event))} {current : List (UInt64 × Event)}
    (hc : current.length < segmentCapacity size)
    (ha : ∀ r ∈ current, EventSerializer.accepts r.2 = true)
    (hm : w.currentMmap = some (buildSegmentPath full.length))
    (hr : Represents dir (laid env (fun _ => none) size (full ++ [current]))) {e : Event}
    (hd : d ∈ writeInstants w dir e (segmentHeaderSize + totalRecordSize * current.length)) :
    ∃ slot, Represents d (Function.update (laid env (fun _ => none) size full) full.length
      (some (slottedSegment env size full.length ha slot).bytes)) := by
  obtain ⟨done, hstore⟩ := hd
  obtain ⟨d', hstore', hr'⟩ := partialStore_represents hmin hc ha hr (w.sequenceCounter + 1) e done
  rw [hm, hstore'] at hstore
  obtain rfl := Option.some.inj hstore
  exact ⟨_, hr'⟩

end Instants

/-- The slot of a record in flight is untouched or complete, or the reader does not take
what is in it for a record by accident. -/
def SlotReadable (d : Directory) (j off : Nat) (seq : UInt64) (e : Event) : Prop :=
  ∀ data, segmentsOf d j = some data →
    slice data off totalRecordSize = List.replicate totalRecordSize 0 ∨
      slice data off totalRecordSize = recordBytes seq e ∨ NoCoincidence data off seq e

theorem SlottedSegment.slice_offset (s : SlottedSegment) :
    slice s.bytes s.offset totalRecordSize = s.slot.bytes := by
  rw [slice, s.drop_offset]
  exact List.take_left' s.slot.length_bytes

theorem scans_slot {s : SlottedSegment} {seq : UInt64} {e : Event} (hafter : s.after = [])
    (h : slice s.bytes s.offset totalRecordSize = List.replicate totalRecordSize 0 ∨
      slice s.bytes s.offset totalRecordSize = recordBytes seq e ∨
        NoCoincidence s.bytes s.offset seq e) :
    Scans s.bytes segmentHeaderSize (deliveries segmentHeaderSize s.before) ∨
      Scans s.bytes segmentHeaderSize
        (deliveries segmentHeaderSize (s.before ++ [(seq, e)])) := by
  rw [s.slice_offset] at h
  rcases h with hz | hw | hno
  · refine .inl ⟨_, _, scan_records_endMark ?_
      (endMark_replicate (totalRecordSize + s.padding))⟩
    rw [s.drop_header, hz, hafter, recordsBytes_nil, List.nil_append,
      List.replicate_append_replicate]
  · refine .inr ⟨_, _, scan_records_endMark ?_ (endMark_replicate s.padding)⟩
    rw [s.drop_header, hw, hafter, recordsBytes_append, recordsBytes_cons, recordsBytes_nil,
      List.append_nil, List.nil_append, List.append_assoc]
  · have hs := scans_torn hafter hno
    split_ifs at hs
    · exact .inr hs
    · exact .inl hs

section Steps

variable {env : SessionEnv} {size : Nat} {w : JournalWriter} {dir d : Directory} {e : Event}

/-- A crash in the copy of a record: the records before it, or these and the record. -/
theorem dispatches_of_writeInstants (hmin : 1024 * 1024 ≤ size)
    {full : List (List (UInt64 × Event))} {current : List (UInt64 × Event)}
    (hc : current.length < segmentCapacity size)
    (ha : ∀ r ∈ (full ++ [current]).flatten, EventSerializer.accepts r.2 = true)
    (he : EventSerializer.accepts e = true) (hlt : full.length < 1000000)
    (hm : w.currentMmap = some (buildSegmentPath full.length))
    (hr : Represents dir (laid env (fun _ => none) size (full ++ [current])))
    (hd : d ∈ writeInstants w dir e (segmentHeaderSize + totalRecordSize * current.length))
    (hread : SlotReadable d full.length
      (segmentHeaderSize + totalRecordSize * current.length) (w.sequenceCounter + 1) e) :
    ReplayEngine.Dispatches d (((full ++ [current]).flatten.map (·.2)).map Event.replayed) ∨
      ReplayEngine.Dispatches d
        (((full ++ [current]).flatten.map (·.2) ++ [e]).map Event.replayed) := by
  have hcur : ∀ r ∈ current, EventSerializer.accepts r.2 = true :=
    fun r hr => ha r (by simp [hr])
  obtain ⟨slot, hr'⟩ := writeInstants_represents hmin hc hcur hm hr hd
  have hself := Function.update_self full.length
    (some (slottedSegment env size full.length hcur slot).bytes)
    (laid env (fun _ => none) size full)
  have hsome : ∀ j, (Function.update (laid env (fun _ => none) size full) full.length
      (some (slottedSegment env size full.length hcur slot).bytes) j).isSome ↔
        j < full.length + 1 := by
    intro j
    by_cases hj : j = full.length
    · simp [hj]
    · rw [Function.update_of_ne hj, laid_fresh_isSome_iff]
      omega
  have hreplay : ∀ recs, (∀ r ∈ (full ++ [recs]).flatten, EventSerializer.accepts r.2 = true) →
      Scans (slottedSegment env size full.length hcur slot).bytes segmentHeaderSize
        (deliveries segmentHeaderSize recs) →
      ReplayEngine.Dispatches d (((full ++ [recs]).flatten.map (·.2)).map Event.replayed) := by
    intro recs harecs hscan
    have hpaths : JournalReader.segmentPathsOf d =
        (List.range (full ++ [recs]).length).map buildSegmentPath ++ [] := by
      rw [hr'.segmentPathsOf hsome, pathOrder_eq_range hlt, List.length_append,
        List.length_singleton, List.append_nil]
    apply dispatches_of_chunks harecs hpaths
    · intro j recs' hj
      by_cases hlast : j = full.length
      · subst hlast
        rw [List.getElem?_concat_length] at hj
        obtain rfl := Option.some.inj hj
        exact ⟨_, hr'.loadSegment hself
          (validSegment_append (segmentHeader_valid _ _ _) _), hscan⟩
      · apply scans_laid hr'
        rw [Function.update_of_ne hlast]
        have hj' : j < full.length := by
          have := (List.getElem?_eq_some_iff.mp hj).1
          rw [List.length_append, List.length_singleton] at this
          omega
        rw [List.getElem?_append_left hj'] at hj
        exact laid_fresh hj
    · exact fun i => ⟨_, .nil⟩
  have hslot := hread _ (by rw [hr'.segmentsOf_eq, hself])
  rcases scans_slot (s := slottedSegment env size full.length hcur slot) rfl hslot with hs | hs
  · exact .inl (hreplay current ha hs)
  · have hpush : (full ++ [current ++ [(w.sequenceCounter + 1, e)]]).flatten =
        (full ++ [current]).flatten ++ [(w.sequenceCounter + 1, e)] := by
      simp
    have hfull := hreplay (current ++ [(w.sequenceCounter + 1, e)]) (by
      rw [hpush, List.forall_mem_append, List.forall_mem_singleton]
      exact ⟨ha, he⟩) hs
    rw [hpush, List.map_append] at hfull
    exact .inr hfull

/-- The two tests of `append` find the current segment full exactly if it is. -/
theorem WriterAt.exceeds (hopen : OpensAll env size) (hmin : 1024 * 1024 ≤ size)
    {segs : Segments} {l : Layout} (hl : l.Packed (segmentCapacity size))
    (h : WriterAt env segs size l w dir) :
    l.current.length < segmentCapacity size ∧ w.reserve.exceeds w.writeOffset = false ∨
      l.current.length = segmentCapacity size ∧ w.reserve.exceeds w.writeOffset = true ∧
        w.reserve.exceeds w.reserve.writeOffset = true := by
  have hmax := (opensAll_iff.mp hopen).2.2
  have hcur := hl.current
  have hsize := w.segmentSizeBytes_reserve.trans h.segmentSizeBytes
  have hiff := lt_segmentCapacity_iff hmin (k := l.current.length)
  rw [← h.writeOffset] at hiff
  have hsmall : w.writeOffset + totalRecordSize + totalRecordSize < 2 ^ 64 := by
    rw [h.writeOffset]
    unfold segmentCapacity at hcur
    unfold segmentHeaderSize totalRecordSize at hcur ⊢
    omega
  by_cases hlt : l.current.length < segmentCapacity size
  · refine .inl ⟨hlt, ?_⟩
    rw [exceeds_eq_false_iff (by omega), hsize]
    exact hiff.mp hlt
  · have hfull : size < w.writeOffset + totalRecordSize :=
      Nat.lt_of_not_le fun hle => hlt (hiff.mpr hle)
    refine .inr ⟨by omega, ?_, ?_⟩
    · rw [exceeds_iff (by omega), hsize]
      exact hfull
    · rw [writeOffset_reserve (by omega), exceeds_iff hsmall, hsize]
      exact Nat.lt_add_right _ hfull

theorem Layout.Packed.length_chunks_le {cap k : Nat} {l : Layout} (h : l.Packed cap)
    (hk : 0 < k) (hle : l.chunks.flatten.length ≤ k * cap) :
    l.chunks.length ≤ k := by
  rw [h.length_flatten] at hle
  rw [Layout.chunks, List.length_append, List.length_singleton]
  by_cases hf : l.full = []
  · rw [hf, List.length_nil]
    exact hk
  · have hpos := List.length_pos_iff.mpr (h.started hf)
    exact Nat.lt_of_mul_lt_mul_right (a := cap) (by omega)

/-- A crash in one `append`. -/
theorem dispatches_of_appendInstants (hopen : OpensAll env size) (hmin : 1024 * 1024 ≤ size)
    {l : Layout} (hl : l.Packed (segmentCapacity size))
    (h : WriterAt env (fun _ => none) size l w dir)
    (ha : ∀ r ∈ l.chunks.flatten, EventSerializer.accepts r.2 = true)
    (he : EventSerializer.accepts e = true)
    (hlen : l.chunks.flatten.length < 1000000 * segmentCapacity size)
    (hd : d ∈ appendInstants env w dir e)
    (hread : SlotReadable d (l.chunks.flatten.length / segmentCapacity size)
      (segmentHeaderSize + totalRecordSize *
        (l.chunks.flatten.length % segmentCapacity size)) (w.sequenceCounter + 1) e) :
    ReplayEngine.Dispatches d ((l.chunks.flatten.map (·.2)).map Event.replayed) ∨
      ReplayEngine.Dispatches d ((l.chunks.flatten.map (·.2) ++ [e]).map Event.replayed) := by
  have hcap := segmentCapacity_pos hmin
  have hchunks := hl.length_chunks_le (by decide) hlen.le
  rw [hl.length_flatten] at hlen hread
  have hnow := dispatches_of_laid ha h.represents hchunks
  rcases h.exceeds hopen hmin hl with ⟨hlt, hx⟩ | ⟨heq, hx, hx'⟩
  · have hdiv : (l.full.length * segmentCapacity size + l.current.length) / segmentCapacity size =
        l.full.length := by
      rw [Nat.mul_comm, Nat.mul_add_div hcap, Nat.div_eq_of_lt hlt, Nat.add_zero]
    have hmod : (l.full.length * segmentCapacity size + l.current.length) % segmentCapacity size =
        l.current.length := by
      rw [Nat.mul_comm, Nat.mul_add_mod, Nat.mod_eq_of_lt hlt]
    rw [hdiv, hmod] at hread
    simp only [appendInstants, h.isOpen, hx] at hd
    rcases hd with rfl | hd
    · exact .inl hnow
    · rw [h.writeOffset] at hd
      have hfull : l.full.length < 1000000 := by
        rw [Layout.chunks, List.length_append, List.length_singleton] at hchunks
        exact hchunks
      exact dispatches_of_writeInstants hmin hlt ha he hfull
        (w.currentMmap_reserve.trans h.currentMmap) h.represents hd
        (by rwa [sequenceCounter_reserve])
  · have hid : w.reserve.currentSegmentId + 1 = l.chunks.length := by
      rw [currentSegmentId_reserve, h.currentSegmentId, Layout.chunks, List.length_append,
        List.length_singleton]
    have htotal : l.full.length * segmentCapacity size + l.current.length =
        l.chunks.length * segmentCapacity size := by
      rw [heq, ← hid, currentSegmentId_reserve, h.currentSegmentId, Nat.succ_mul]
    rw [htotal] at hlen hread
    have hlt : l.chunks.length < 1000000 := Nat.lt_of_mul_lt_mul_right hlen
    rw [Nat.mul_div_cancel _ hcap, Nat.mul_mod_left] at hread
    simp only [appendInstants, h.isOpen, hx, hx'] at hd
    rcases hd with hd | ⟨rolled, dir', hroll, hd⟩
    · have hnone : laid env (fun _ => none) size l.chunks (w.reserve.currentSegmentId + 1) =
          none := by
        rw [hid, laid_length]
      obtain hr | ⟨data, k, hdata, hr⟩ := rollInstants_represents
        (w := { w.reserve with currentSegmentId := w.reserve.currentSegmentId + 1 }) hopen hmin
        (w.segmentSizeBytes_reserve.trans h.segmentSizeBytes) h.represents hnone hd
      · exact .inl (dispatches_of_laid ha hr hchunks)
      · rw [hid] at hr
        exact .inl (dispatches_of_begun ha hdata hr hlt)
    · obtain ⟨rolled', dir₁, hroll', hseq, hat⟩ := h.roll hopen hmin
      obtain ⟨rfl, rfl⟩ : rolled' = rolled ∧ dir₁ = dir' := by
        simpa using hroll'.symm.trans hroll
      have hsame : (l.chunks ++ [[]]).flatten = l.chunks.flatten := by simp
      rw [hat.writeOffset] at hd
      have hreplay := dispatches_of_writeInstants hmin
        (show ([] : List (UInt64 × Event)).length < _ from hcap) (by rwa [hsame]) he hlt
        (rolled'.currentMmap_reserve.trans hat.currentMmap) hat.represents hd
        (by rwa [sequenceCounter_reserve, hseq])
      rwa [hsame] at hreplay

/-- A crash in a sequence of appends: those that have returned are replayed, with the one
in flight or without it. -/
theorem dispatches_of_appendAllInstants (hopen : OpensAll env size) (hmin : 1024 * 1024 ≤ size)
    (es : List Event) {l : Layout} (hl : l.Packed (segmentCapacity size))
    (h : WriterAt env (fun _ => none) size l w dir)
    (ha : ∀ r ∈ l.chunks.flatten, EventSerializer.accepts r.2 = true)
    (hes : ∀ e ∈ es, EventSerializer.accepts e = true)
    (hlen : l.chunks.flatten.length + es.length ≤ 1000000 * segmentCapacity size) {n : Nat}
    (hd : (n, d) ∈ appendAllInstants env w dir es)
    (hread : ∀ e, es[n]? = some e →
      SlotReadable d ((l.chunks.flatten.length + n) / segmentCapacity size)
        (segmentHeaderSize + totalRecordSize *
          ((l.chunks.flatten.length + n) % segmentCapacity size))
        (w.sequenceCounter + UInt64.ofNat (n + 1)) e) :
    ∃ m, (m = n ∨ m = n + 1) ∧ m ≤ es.length ∧ ReplayEngine.Dispatches d
      ((l.chunks.flatten.map (·.2) ++ es.take m).map Event.replayed) := by
  induction es generalizing l w dir n with
  | nil =>
    obtain ⟨rfl, rfl⟩ := Prod.mk.inj (Set.mem_singleton_iff.mp hd)
    refine ⟨0, .inl rfl, Nat.le_refl _, ?_⟩
    rw [List.take_nil, List.append_nil]
    exact dispatches_of_laid ha h.represents (hl.length_chunks_le (by decide) hlen)
  | cons e es ih =>
    rw [List.forall_mem_cons] at hes
    rw [List.length_cons] at hlen
    rcases hd with ⟨rfl, hd⟩ | ⟨result, w', dir', n, happ, hd, rfl⟩
    · have hstep := dispatches_of_appendInstants hopen hmin hl h ha hes.1 (by omega) hd
        (hread e rfl)
      rcases hstep with hstep | hstep
      · exact ⟨0, .inl rfl, Nat.zero_le _, by rwa [List.take_zero, List.append_nil]⟩
      · exact ⟨1, .inr rfl, by simp, hstep⟩
    · obtain ⟨w₁, dir₁, happ', hseq, hat⟩ := append_laid hopen hmin hl h e
      obtain ⟨-, rfl, rfl⟩ : _ ∧ w₁ = w' ∧ dir₁ = dir' := by
        simpa using happ'.symm.trans happ
      have hpush := l.flatten_push (segmentCapacity size) (w.sequenceCounter + 1, e)
      have hn : (l.chunks.flatten ++ [(w.sequenceCounter + 1, e)]).length =
          l.chunks.flatten.length + 1 := by
        rw [List.length_append, List.length_singleton]
      have hmap : (l.chunks.flatten ++ [(w.sequenceCounter + 1, e)]).map (·.2) =
          l.chunks.flatten.map (·.2) ++ [e] := by
        rw [List.map_append, List.map_singleton]
      have hslot : ∀ k, l.chunks.flatten.length + 1 + k = l.chunks.flatten.length + (k + 1) := by
        intro k
        omega
      have hnumber : w₁.sequenceCounter + UInt64.ofNat (n + 1) =
          w.sequenceCounter + UInt64.ofNat (n + 1 + 1) := by
        rw [hseq, UInt64.add_assoc, UInt64.add_comm 1, UInt64.ofNat_add (n + 1) 1]
        rfl
      obtain ⟨m, hm, hle, hreplay⟩ := ih (hl.push (segmentCapacity_pos hmin) _) hat
        (by
          rw [hpush, List.forall_mem_append, List.forall_mem_singleton]
          exact ⟨ha, hes.1⟩) hes.2 (by rw [hpush, hn]; omega) hd
        (by rw [hpush, hn, hslot, hnumber]; exact fun x hx => hread x hx)
      refine ⟨m + 1, by omega, by rw [List.length_cons]; omega, ?_⟩
      rw [hpush, hmap, List.append_assoc] at hreplay
      exact hreplay

end Steps

/-- The replay of a session in a fresh directory that crashed at one of its instants delivers
the events whose appends have returned, in order, and at most the one in flight with them. -/
theorem dispatches_of_sessionInstants {env : SessionEnv} {size : Nat} {events : List Event}
    (hopen : OpensAll env size) (hmin : 1024 * 1024 ≤ size)
    (haccepts : ∀ e ∈ events, EventSerializer.accepts e = true)
    (hlen : events.length ≤ 1000000 * segmentCapacity size) {n : Nat} {d : Directory}
    (hd : (n, d) ∈ sessionInstants env {} ∅ size events)
    (hread : ∀ e, events[n]? = some e → SlotReadable d (n / segmentCapacity size)
      (segmentHeaderSize + totalRecordSize * (n % segmentCapacity size))
      (UInt64.ofNat (n + 1)) e) :
    ∃ m, (m = n ∨ m = n + 1) ∧ m ≤ events.length ∧
      ReplayEngine.Dispatches d ((events.take m).map Event.replayed) := by
  rcases hd with ⟨rfl, hd⟩ | ⟨status, w, dir, hstart, hd⟩
  · refine ⟨0, .inl rfl, Nat.zero_le _, ?_⟩
    have hnot : ¬ size < 1024 * 1024 := Nat.not_lt.mpr hmin
    simp only [openingInstants, hnot] at hd
    have hempty : Represents ∅ (laid env (fun _ => none) size []) := represents_empty
    obtain hr | ⟨data, k, hdata, hr⟩ := rollInstants_represents hopen hmin rfl hempty rfl hd
    · exact dispatches_of_laid (by simp) hr (by decide)
    · exact dispatches_of_begun (by simp) hdata hr (by decide)
  · obtain ⟨w', dir', hstart', hseq, hat⟩ := open_laid hopen hmin (w := {}) rfl
      represents_empty
    obtain ⟨-, rfl, rfl⟩ : _ ∧ w' = w ∧ dir' = dir := by
      simpa using hstart'.symm.trans hstart
    have hrun := dispatches_of_appendAllInstants hopen hmin events (Layout.packed_empty _) hat
      (by simp [Layout.chunks]) haccepts (by simpa [Layout.chunks] using hlen) hd
      (by simpa [Layout.chunks, hseq] using hread)
    simpa [Layout.chunks] using hrun

/-- A crash at any instant of a session in a fresh directory keeps the events whose appends
have returned. The end of the session is the last of the instants, and keeps them all. -/
theorem crash_keeps_returned_appends {env : SessionEnv} {size : Nat} {events : List Event}
    (hopen : OpensAll env size) (hmin : 1024 * 1024 ≤ size)
    (ha : ∀ e ∈ events, EventSerializer.validate (some e.toBytes) = .kOk)
    (hlen : events.length ≤ 1000000 * segmentCapacity size) :
    (∀ n d, (n, d) ∈ sessionInstants env {} ∅ size events →
      (∀ e, events[n]? = some e → SlotReadable d (n / segmentCapacity size)
        (segmentHeaderSize + totalRecordSize * (n % segmentCapacity size))
        (UInt64.ofNat (n + 1)) e) →
      ∃ m, (m = n ∨ m = n + 1) ∧ m ≤ events.length ∧
        ReplayEngine.Dispatches d ((events.take m).map Event.replayed)) ∧
    ∀ status results w d, session env {} ∅ size events = some (status, results, w, d) →
      (events.length, d) ∈ sessionInstants env {} ∅ size events ∧
        ReplayEngine.Dispatches d (events.map Event.replayed) := by
  have haccepts : ∀ e ∈ events, EventSerializer.accepts e = true :=
    fun e he => decide_eq_true (ha e he)
  have hcrash {n d} := @dispatches_of_sessionInstants env size events hopen hmin haccepts hlen n d
  refine ⟨fun n d => hcrash, fun status results w d hsession => ?_⟩
  have hlast := session_mem_sessionInstants hsession
  obtain ⟨m, hm, hle, hreplay⟩ := hcrash hlast (by simp)
  obtain rfl : m = events.length := by omega
  rw [List.take_length] at hreplay
  exact ⟨hlast, hreplay⟩

theorem partialSlot_blank : (partialSlot (fun i => decide (i < 40)) 2 {}).bytes =
    (recordBytes 2 {}).take 40 ++ List.replicate (totalRecordSize - 40) 0 := by
  decide +kernel

/-- In the second append 40 bytes of the record have been stored. -/
theorem crash_keeps_returned_appends_blank : ∃ d,
    (1, d) ∈ sessionInstants ⟨fun _ => 0, fun _ => none⟩ {} ∅ (1024 * 1024) [{}, {}] ∧
      ∃ m, (m = 1 ∨ m = 2) ∧ ReplayEngine.Dispatches d (([{}, {}].take m).map Event.replayed) := by
  have hopen : OpensAll ⟨fun _ => 0, fun _ => none⟩ (1024 * 1024) := opensAll_mebibyte _
  have hpacked := Layout.packed_empty (segmentCapacity (1024 * 1024))
  obtain ⟨w, dir, hstart, hseq, hat⟩ := open_laid hopen (Nat.le_refl _) (w := {}) rfl
    represents_empty
  obtain ⟨w₁, dir₁, happ, hseq₁, hat₁⟩ := append_laid hopen (Nat.le_refl _) hpacked hat {}
  have hpacked₁ := hpacked.push (by decide) (w.sequenceCounter + 1, {})
  have hpush : Layout.push (segmentCapacity (1024 * 1024)) {} (w.sequenceCounter + 1, {}) =
      { current := [(1, {})] } := by
    rw [hseq, Layout.push, if_pos (by decide)]
    rfl
  rw [hpush] at hat₁ hpacked₁
  have hlt : [((1 : UInt64), ({} : Event))].length < segmentCapacity (1024 * 1024) := by decide
  have hcur : ∀ r ∈ [((1 : UInt64), ({} : Event))], EventSerializer.accepts r.2 = true := by
    simp [EventSerializer.accepts_blank]
  obtain ⟨d, hstore, hr⟩ := partialStore_represents (Nat.le_refl _) hlt hcur hat₁.represents 2 {}
    fun i => decide (i < 40)
  have hd : (1, d) ∈ sessionInstants ⟨fun _ => 0, fun _ => none⟩ {} ∅ (1024 * 1024) [{}, {}] := by
    refine .inr ⟨_, w, dir, hstart, .inr ⟨_, w₁, dir₁, 0, happ, .inl ⟨rfl, ?_⟩, rfl⟩⟩
    obtain ⟨-, hx⟩ | ⟨hfull, -⟩ := hat₁.exceeds hopen (Nat.le_refl _) hpacked₁
    · simp only [appendInstants, hat₁.isOpen, hx]
      refine .inr ⟨fun i => decide (i < 40), ?_⟩
      rw [currentMmap_reserve, hat₁.currentMmap, hat₁.writeOffset, sequenceCounter_reserve, hseq₁,
        hseq]
      exact hstore
    · exact absurd hfull hlt.ne
  have hdrop := @drop_slottedSegment ⟨fun _ => 0, fun _ => none⟩ (1024 * 1024) 0 _ hcur
    (partialSlot (fun i => decide (i < 40)) 2 {})
  rw [partialSlot_blank, List.append_assoc, List.replicate_append_replicate] at hdrop
  have hread : ∀ e, [({} : Event), {}][1]? = some e → SlotReadable d 0 224 2 e := by
    intro e he data hdata
    obtain rfl : {} = e := by simpa using he
    rw [hr.segmentsOf_eq] at hdata
    obtain rfl := Option.some.inj hdata
    exact .inr (.inr (noCoincidence_blank hdrop))
  obtain ⟨m, hm, -, hreplay⟩ := (crash_keeps_returned_appends hopen (Nat.le_refl _)
    (by simp [EventSerializer.validate_blank]) (by decide)).1 1 d hd hread
  exact ⟨d, hd, m, hm, hreplay⟩

end Ume
