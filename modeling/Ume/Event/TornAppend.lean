import Ume.Event.Corruption

/-! A crash in the last append of a session: of its slot only some first bytes have
been written. -/

namespace Ume

open ByteString JournalWriter

theorem scanJournal_of_scans {dir : Directory} {files : List (String × List (Nat × Event))}
    (h : ∀ f ∈ files, ∃ data, loadSegment dir f.1 = some data ∧ Scans data segmentHeaderSize f.2)
    (i : Nat) :
    ∃ es t, ScanJournal dir i (files.map (·.1)) es t ∧
      es.map (·.event) = (files.flatMap (·.2)).map (·.2) := by
  induction files generalizing i with
  | nil => exact ⟨[], {}, .nil, rfl⟩
  | cons f files ih =>
    obtain ⟨data, hl, t, stop, hs⟩ := h f List.mem_cons_self
    obtain ⟨es, u, hj, he⟩ := ih (fun g hg => h g (List.mem_cons_of_mem _ hg)) (i + 1)
    refine ⟨_, _, .good hl hs hj, ?_⟩
    rw [List.map_append, Delivery.map_event_inSegment, he, List.flatMap_cons, List.map_append]

theorem dispatches_of_scans {dir : Directory} {segs : Segments} {m : Nat}
    {ds : Nat → List (Nat × Event)} (hr : Represents dir segs) (hpos : 0 < m)
    (hm : ∀ j, (segs j).isSome ↔ j < m)
    (hs : ∀ j data, segs j = some data →
      validSegment data = true ∧ Scans data segmentHeaderSize (ds j)) :
    ReplayEngine.Dispatches dir ((((pathOrder m).flatMap ds).map (·.2)).map Event.replayed) := by
  obtain ⟨first, rest, hpaths, hknown, hload⟩ := exists_files hr hpos hm hs
  have hflat : (first :: rest).flatMap (·.2) = (pathOrder m).flatMap ds := by
    rw [List.flatMap_def, hknown, ← List.flatMap_def]
  obtain ⟨es, t, hj, he⟩ := scanJournal_of_scans hload 0
  rw [← hflat, ← he]
  obtain ⟨data, hd, -⟩ := hload first List.mem_cons_self
  exact ReplayEngine.dispatches_of_scan hpaths hj (by rw [hd]; rfl)

theorem numbered_concat (seq : UInt64) (es : List Event) (e : Event) :
    numbered seq (es ++ [e]) =
      numbered seq es ++ [(seq + UInt64.ofNat (es.length + 1), e)] := by
  induction es generalizing seq with
  | nil => simp [numbered]
  | cons e' es ih =>
    rw [List.cons_append, numbered, ih, numbered, List.cons_append, List.length_cons,
      UInt64.ofNat_add (es.length + 1) 1]
    congr 3
    rw [UInt64.add_assoc, UInt64.add_comm 1]
    rfl

/-- The segment of the last of `n` records and its offset there. -/
def lastSegment (size n : Nat) : Nat := (n - 1) / segmentCapacity size
def lastOffset (size n : Nat) : Nat :=
  segmentHeaderSize + totalRecordSize * ((n - 1) % segmentCapacity size)

/-- The directory of a session of `n` appends in which only the first `k` bytes of the
last slot have been written. -/
def crashImage (dir : Directory) (size n k : Nat) : Option Directory :=
  MmapFile.store dir (some (buildSegmentPath (lastSegment size n))) (lastOffset size n + k)
    (List.replicate (totalRecordSize - k) 0)

/-- No checksum is right by accident: there is no valid header in the slot but the
written one, and behind it no other event than the written one. -/
structure NoCoincidence (data : List UInt8) (off : Nat) (seq : UInt64) (e : Event) : Prop where
  header : ∀ p < totalRecordSize, ValidHeader data (off + p) →
    p = 0 ∧ slice data off 32 = (recordHeader seq e).toBytes
  payload : computeCrc32 (slice data (off + 32) 128) = (recordHeader seq e).payloadCrc32 →
    slice data (off + 32) 128 = e.toBytes

/-- The first `k` bytes of a record, and zeros. -/
def tornSlot (seq : UInt64) (e : Event) {k : Nat} (hk : k ≤ totalRecordSize) :
    Block totalRecordSize where
  bytes := (recordBytes seq e).take k ++ List.replicate (totalRecordSize - k) 0
  length_bytes := by
    rw [List.length_append, List.length_take, length_recordBytes, List.length_replicate]
    omega

theorem splice_zeros {env : SessionEnv} {size j : Nat} {before : List (UInt64 × Event)}
    (seq : UInt64) (e : Event) {k : Nat} (hk : k ≤ totalRecordSize) :
    splice (writtenSegment env (fun _ => none) size j (before ++ [(seq, e)]))
        (segmentHeaderSize + totalRecordSize * before.length + k)
        (List.replicate (totalRecordSize - k) 0) =
      (segmentHeader env j size).toBytes ++ (recordsBytes before ++ ((tornSlot seq e hk).bytes ++
        (recordsBytes [] ++ List.replicate
          (size - segmentHeaderSize - totalRecordSize * (before.length + 1)) 0))) := by
  have hwritten : writtenSegment env (fun _ => none) size j (before ++ [(seq, e)]) =
      ((segmentHeader env j size).toBytes ++ recordsBytes before ++ (recordBytes seq e).take k) ++
        ((recordBytes seq e).drop k ++ List.replicate
          (size - segmentHeaderSize - totalRecordSize * (before.length + 1)) 0) := by
    rw [writtenSegment, staleBytes_fresh rfl, List.drop_replicate, recordsBytes_append,
      List.length_append, List.length_singleton, recordsBytes_cons, recordsBytes_nil,
      List.append_nil, List.append_assoc, List.append_assoc, List.append_assoc, List.append_assoc,
      ← List.append_assoc (List.take k _), List.take_append_drop]
  have hlen : ((segmentHeader env j size).toBytes ++ recordsBytes before ++
      (recordBytes seq e).take k).length =
        segmentHeaderSize + totalRecordSize * before.length + k := by
    rw [List.length_append, List.length_append, JournalSegmentHeader.length_toBytes,
      length_recordsBytes, List.length_take, length_recordBytes, Nat.min_eq_left hk]
    rfl
  rw [hwritten, ← hlen, splice_append, List.length_replicate, List.drop_append_of_le_length,
    List.drop_drop, List.drop_of_length_le (by rw [length_recordBytes]; omega)]
  · simp only [tornSlot, recordsBytes_nil, List.nil_append, List.append_assoc]
  · rw [List.length_drop, length_recordBytes]

section Torn

variable {s : SlottedSegment} {seq : UInt64} {e : Event}

theorem NoCoincidence.drop_offset (h : NoCoincidence s.bytes s.offset seq e)
    (hv : ValidHeader s.bytes s.offset) : s.bytes.drop s.offset =
      (recordHeader seq e).toBytes ++ s.bytes.drop (s.offset + 32) := by
  rw [← (h.header 0 (by decide) hv).2, slice, ← List.drop_drop, List.take_append_drop]

/-- Behind a header that is complete, a payload with the right checksum makes the
record complete. -/
theorem NoCoincidence.complete (h : NoCoincidence s.bytes s.offset seq e)
    (hv : ValidHeader s.bytes s.offset)
    (hp : computeCrc32 (slice (s.bytes.drop s.offset) 32 128) =
      (JournalRecordHeader.ofBytes (s.bytes.drop s.offset)).payloadCrc32) :
    s.slot.bytes = recordBytes seq e := by
  have hslice : slice (s.bytes.drop s.offset) 32 128 = slice s.bytes (s.offset + 32) 128 := by
    rw [slice, slice, List.drop_drop]
  rw [hslice, h.drop_offset hv, JournalRecordHeader.ofBytes_toBytes_append] at hp
  have hevent := h.payload hp
  have hslot : slice s.bytes s.offset 160 = s.slot.bytes := by
    rw [slice, s.drop_offset]
    exact List.take_left' s.slot.length_bytes
  rw [← hslot, recordBytes, ← (h.header 0 (by decide) hv).2, ← hevent, slice_append_slice]

def SlottedSegment.damagedOf (s : SlottedSegment) (h : NoCoincidence s.bytes s.offset seq e)
    (hne : s.slot.bytes ≠ recordBytes seq e) : DamagedSegment where
  toSlottedSegment := s
  damaged := fun hd => hne (h.complete hd.1 hd.2)
  alone := fun p hp hlt hv => absurd (h.header p hlt hv).1 hp.ne'

theorem resyncStart_ne_zero (h : NoCoincidence s.bytes s.offset seq e) :
    resyncStart (s.bytes.drop s.offset) ≠ some 0 := by
  have hle : s.offset + totalRecordSize ≤ s.bytes.length := by
    rw [s.length_bytes, Nat.add_assoc]
    exact Nat.le_add_right ..
  unfold resyncStart
  dsimp only
  split_ifs with hv
  · have hsize : (recordHeader seq e).recordSize.toNat = 160 := rfl
    rw [h.drop_offset ⟨hle, hv⟩, JournalRecordHeader.ofBytes_toBytes_append, hsize]
    decide
  · intro h0
    exact absurd (DamagedSegment.resyncStep_pos h0) (Nat.lt_irrefl 0)

/-- The segment with the torn slot: the records before it, and the last one exactly if
it is complete. -/
theorem scans_torn (hafter : s.after = []) (h : NoCoincidence s.bytes s.offset seq e) :
    Scans s.bytes segmentHeaderSize (deliveries segmentHeaderSize
      (if s.slot.bytes = recordBytes seq e then s.before ++ [(seq, e)] else s.before)) := by
  split_ifs with heq
  · refine ⟨_, _, scan_records_endMark ?_ (endMark_replicate s.padding)⟩
    rw [s.drop_header, heq, hafter, recordsBytes_append, recordsBytes_cons, recordsBytes_nil,
      List.append_nil, List.nil_append, List.append_assoc]
  · have hs := (s.damagedOf h heq).scans_others_iff_resyncs
    rw [if_pos (show (s.damagedOf h heq).after = [] from hafter)] at hs
    have hothers : (s.damagedOf h heq).others = deliveries segmentHeaderSize s.before := by
      rw [SlottedSegment.others]
      simp [SlottedSegment.damagedOf, hafter, deliveries]
    rw [hothers] at hs
    exact hs.mpr (resyncStart_ne_zero h)

end Torn

/-- The replay of a directory whose segments read as the blocks of a list of records. -/
theorem dispatches_of_blocks {dir : Directory} {segs : Segments} {m cap : Nat}
    {recs : List (UInt64 × Event)} (hr : Represents dir segs) (hcap : 0 < cap) (hpos : 0 < m)
    (hm : ∀ j, (segs j).isSome ↔ j < m) (hcount : Blocks.count cap recs ≤ m)
    (ha : ∀ r ∈ recs, EventSerializer.accepts r.2 = true)
    (hs : ∀ j data, segs j = some data → validSegment data = true ∧
      Scans data segmentHeaderSize (deliveries segmentHeaderSize (Blocks.block cap recs j))) :
    ∃ delivered, ReplayEngine.Dispatches dir (delivered.map Event.replayed) ∧
      delivered.Perm (recs.map (·.2)) ∧ (m ≤ 1000000 → delivered = recs.map (·.2)) := by
  have hevents : ∀ js : List Nat, ((js.flatMap fun j =>
      deliveries segmentHeaderSize (Blocks.block cap recs j)).map (·.2)) =
        (js.flatMap (Blocks.block cap recs)).map (·.2) := by
    intro js
    rw [List.map_flatMap, List.map_flatMap]
    congr 1
    funext j
    rw [map_deliveries, acceptedEvents_eq fun r hr => ha r (Blocks.mem_of_mem_block hr)]
  have hrange : (List.range m).flatMap (Blocks.block cap recs) = recs :=
    Blocks.flatMap_range_block_of_count_le hcap hcount
  refine ⟨_, dispatches_of_scans hr hpos hm hs, ?_, fun hle => ?_⟩
  · rw [hevents]
    refine List.Perm.map _ (((pathOrder_perm m).flatMap_right _).trans ?_)
    rw [hrange]
  · rw [hevents, pathOrder_eq_range hle, hrange]

section Crash

variable {env : SessionEnv} {size k : Nat} {l : List (UInt64 × Event)} {seq : UInt64} {e : Event}

/-- The records in the last segment of a session, before the last one. -/
def lastBlock (size : Nat) (l : List (UInt64 × Event)) : List (UInt64 × Event) :=
  Blocks.block (segmentCapacity size) l (l.length / segmentCapacity size)

theorem length_lastBlock (hmin : 1024 * 1024 ≤ size) (l : List (UInt64 × Event)) :
    (lastBlock size l).length = l.length % segmentCapacity size := by
  have hlt := Nat.mod_lt l.length (segmentCapacity_pos hmin)
  rw [lastBlock, Blocks.block, List.length_take, List.length_drop, Nat.mul_comm,
    ← Nat.mod_eq_sub_mul_div, Nat.min_eq_right hlt.le]

theorem afterSession_last (hmin : 1024 * 1024 ≤ size) :
    afterSession env (fun _ => none) size (l ++ [(seq, e)]) (l.length / segmentCapacity size) =
      some (writtenSegment env (fun _ => none) size (l.length / segmentCapacity size)
        (lastBlock size l ++ [(seq, e)])) := by
  rw [afterSession, Blocks.count_concat, if_pos (Nat.lt_succ_self _),
    Blocks.block_concat (segmentCapacity_pos hmin)]
  rfl

/-- The last segment of a session with its last slot torn. -/
def tornSegment (env : SessionEnv) (size : Nat) {l : List (UInt64 × Event)} (seq : UInt64)
    (e : Event) (hk : k ≤ totalRecordSize)
    (ha : ∀ r ∈ l, EventSerializer.accepts r.2 = true) : SlottedSegment where
  header := segmentHeader env (l.length / segmentCapacity size) size
  header_valid := segmentHeader_valid _ _ _
  before := lastBlock size l
  slot := tornSlot seq e hk
  after := []
  padding := size - segmentHeaderSize - totalRecordSize * ((lastBlock size l).length + 1)
  accepts_before := fun r hr => ha r (Blocks.mem_of_mem_block hr)
  accepts_after := by simp

theorem drop_tornSegment (hk : k ≤ totalRecordSize)
    (ha : ∀ r ∈ l, EventSerializer.accepts r.2 = true) :
    (tornSegment env size seq e hk ha).bytes.drop (tornSegment env size seq e hk ha).offset =
      (tornSlot seq e hk).bytes ++
        List.replicate (tornSegment env size seq e hk ha).padding 0 := by
  rw [SlottedSegment.drop_offset, show (tornSegment env size seq e hk ha).after = [] from rfl,
    recordsBytes_nil, List.nil_append]
  rfl

theorem slice_tornSegment (hk : k ≤ totalRecordSize)
    (ha : ∀ r ∈ l, EventSerializer.accepts r.2 = true) :
    slice (tornSegment env size seq e hk ha).bytes (tornSegment env size seq e hk ha).offset
      totalRecordSize = (tornSlot seq e hk).bytes := by
  rw [slice, drop_tornSegment]
  exact List.take_left' (tornSlot seq e hk).length_bytes

theorem crashImage_represents {dir : Directory} (hmin : 1024 * 1024 ≤ size)
    (hr : Represents dir (afterSession env (fun _ => none) size (l ++ [(seq, e)])))
    (hk : k ≤ totalRecordSize) (ha : ∀ r ∈ l, EventSerializer.accepts r.2 = true) :
    ∃ dir', crashImage dir size (l.length + 1) k = some dir' ∧
      Represents dir' (Function.update
        (afterSession env (fun _ => none) size (l ++ [(seq, e)]))
        (l.length / segmentCapacity size) (some (tornSegment env size seq e hk ha).bytes)) := by
  have hlen := length_lastBlock hmin l
  have hfits := (lt_segmentCapacity_iff hmin).mp
    (Nat.mod_lt l.length (segmentCapacity_pos hmin))
  rw [← hlen] at hfits
  obtain ⟨entry, hlookup, hbytes, hregular, hfault⟩ := hr.present _ _ (afterSession_last hmin)
  have hsize : entry.file.bytes.length = size := by
    rw [hbytes, length_writtenSegment]
    rw [List.length_append, List.length_singleton, Nat.mul_add, Nat.mul_one]
    omega
  have hstore : lastOffset size (l.length + 1) + k +
      (List.replicate (totalRecordSize - k) (0 : UInt8)).length ≤ entry.file.bytes.length := by
    rw [lastOffset, Nat.add_sub_cancel, List.length_replicate, hsize, ← hlen]
    omega
  obtain ⟨file, hfile, hs⟩ := MmapFile.store_some hlookup hstore
  have hcrash : crashImage dir size (l.length + 1) k =
      MmapFile.store dir (some (buildSegmentPath (l.length / segmentCapacity size)))
        (lastOffset size (l.length + 1) + k) (List.replicate (totalRecordSize - k) 0) := by
    rw [crashImage, lastSegment, Nat.add_sub_cancel]
  have htorn : file.bytes = (tornSegment env size seq e hk ha).bytes := by
    rw [hfile, hbytes, lastOffset, Nat.add_sub_cancel, ← hlen, splice_zeros seq e hk]
    rfl
  rw [← htorn]
  exact ⟨_, hcrash.trans hs, hr.insert _ _ hregular hfault⟩

/-- The records that can be read after the crash. -/
def keptRecords (seq : UInt64) (e : Event) (hk : k ≤ totalRecordSize) (l : List (UInt64 × Event)) :
    List (UInt64 × Event) :=
  if (tornSlot seq e hk).bytes = recordBytes seq e then l ++ [(seq, e)] else l

theorem count_keptRecords_le (hk : k ≤ totalRecordSize) :
    Blocks.count (segmentCapacity size) (keptRecords seq e hk l) ≤
      l.length / segmentCapacity size + 1 := by
  unfold keptRecords
  split_ifs
  · exact (Blocks.count_concat _).le
  · exact Nat.succ_le_succ (Nat.div_le_div_right (Nat.sub_le _ _))

theorem accepts_keptRecords (hk : k ≤ totalRecordSize)
    (ha : ∀ r ∈ l, EventSerializer.accepts r.2 = true) (he : EventSerializer.accepts e = true) :
    ∀ r ∈ keptRecords seq e hk l, EventSerializer.accepts r.2 = true := by
  unfold keptRecords
  split_ifs
  · rw [List.forall_mem_append, List.forall_mem_singleton]
    exact ⟨ha, he⟩
  · exact ha

theorem map_snd_keptRecords (hk : k ≤ totalRecordSize) : (keptRecords seq e hk l).map (·.2) =
    if (tornSlot seq e hk).bytes = recordBytes seq e then l.map (·.2) ++ [e] else l.map (·.2) := by
  unfold keptRecords
  split_ifs
  · rw [List.map_append, List.map_singleton]
  · rfl

theorem crashImage_scans (hmin : 1024 * 1024 ≤ size) (hk : k ≤ totalRecordSize)
    (ha : ∀ r ∈ l, EventSerializer.accepts r.2 = true)
    (hno : NoCoincidence (tornSegment env size seq e hk ha).bytes
      (tornSegment env size seq e hk ha).offset seq e) {j : Nat} {data : List UInt8}
    (hj : Function.update (afterSession env (fun _ => none) size (l ++ [(seq, e)]))
      (l.length / segmentCapacity size) (some (tornSegment env size seq e hk ha).bytes) j =
        some data) :
    validSegment data = true ∧ Scans data segmentHeaderSize (deliveries segmentHeaderSize
      (Blocks.block (segmentCapacity size) (keptRecords seq e hk l) j)) := by
  unfold keptRecords
  by_cases hlast : j = l.length / segmentCapacity size
  · subst hlast
    rw [Function.update_self] at hj
    obtain rfl := Option.some.inj hj
    refine ⟨validSegment_append (segmentHeader_valid _ _ _) _, ?_⟩
    have hs := scans_torn rfl hno
    rw [show (tornSegment env size seq e hk ha).slot = tornSlot seq e hk from rfl,
      show (tornSegment env size seq e hk ha).before = lastBlock size l from rfl] at hs
    split_ifs at hs ⊢ with hcomplete
    · rwa [Blocks.block_concat (segmentCapacity_pos hmin)]
    · exact hs
  · rw [Function.update_of_ne hlast] at hj
    have hblock : Blocks.block (segmentCapacity size) (l ++ [(seq, e)]) j =
        Blocks.block (segmentCapacity size) l j := by
      apply Blocks.block_concat_of_lt
      have hlt := (afterSession_isSome_iff j).mp (by rw [hj]; rfl)
      rw [Blocks.count_concat] at hlt
      obtain hlt | hnone := hlt
      · omega
      · cases hnone
    have hholds := afterSession_fresh_holdsRecords hj
    refine ⟨hholds.validSegment, ?_⟩
    split_ifs
    · exact ⟨_, _, hholds.scan⟩
    · rw [← hblock]
      exact ⟨_, _, hholds.scan⟩

theorem crashImage_isSome_iff {data : List UInt8} (j : Nat) :
    (Function.update (afterSession env (fun _ => none) size (l ++ [(seq, e)]))
      (l.length / segmentCapacity size) (some data) j).isSome ↔
        j < l.length / segmentCapacity size + 1 := by
  by_cases hj : j = l.length / segmentCapacity size
  · rw [hj, Function.update_self]
    exact ⟨fun _ => Nat.lt_succ_self _, fun _ => rfl⟩
  · rw [Function.update_of_ne hj, afterSession_isSome_iff, Blocks.count_concat]
    simp

end Crash

/-- The events that can be read when the slot of the last one is at this offset. -/
def keptEvents (data : List UInt8) (off : Nat) (events : List Event) (e : Event) : List Event :=
  if slice data off totalRecordSize = recordBytes (UInt64.ofNat (events.length + 1)) e then
    events ++ [e]
  else events

/-- A crash in the last append: the replay comes to its end, and has delivered the events
before it, with the last one exactly if its record is complete. They come in the order of
the file names. -/
theorem replay_of_torn_append {env : SessionEnv} {size k : Nat} {events : List Event} {e : Event}
    (hopen : OpensAll env size) (hmin : 1024 * 1024 ≤ size)
    (ha : ∀ x ∈ events ++ [e], EventSerializer.validate (some x.toBytes) = .kOk)
    (hk : k ≤ totalRecordSize) :
    ∃ w dir dir' data,
      session env {} ∅ size (events ++ [e]) = some (.kOk,
        (List.range (events.length + 1)).map (fun i => .ok (UInt64.ofNat (i + 1))), w, dir) ∧
      crashImage dir size (events.length + 1) k = some dir' ∧
      segmentsOf dir' (lastSegment size (events.length + 1)) = some data ∧
      (∃ padding, data.drop (lastOffset size (events.length + 1)) =
        (recordBytes (UInt64.ofNat (events.length + 1)) e).take k ++
          List.replicate (totalRecordSize - k + padding) 0) ∧
      (NoCoincidence data (lastOffset size (events.length + 1))
          (UInt64.ofNat (events.length + 1)) e →
        ∃ delivered, ReplayEngine.Dispatches dir' (delivered.map Event.replayed) ∧
          delivered.Perm (keptEvents data (lastOffset size (events.length + 1)) events e) ∧
          (events.length + 1 ≤ 1000000 * segmentCapacity size →
            delivered = keptEvents data (lastOffset size (events.length + 1)) events e)) := by
  have hcap := segmentCapacity_pos hmin
  have haccepts : ∀ x ∈ events ++ [e], EventSerializer.accepts x = true :=
    fun x hx => decide_eq_true (ha x hx)
  rw [List.forall_mem_append, List.forall_mem_singleton] at haccepts
  obtain ⟨w, dir, hs, -, hr⟩ := session_laid hopen hmin (w := {}) rfl represents_empty
    (events ++ [e])
  rw [map_fst_numbered, List.length_append, List.length_singleton] at hs
  rw [show ({} : JournalWriter).sequenceCounter = 0 from rfl, numbered_concat,
    UInt64.zero_add] at hr
  unfold keptEvents
  generalize UInt64.ofNat (events.length + 1) = seq at hr ⊢
  have hal : ∀ r ∈ numbered 0 events, EventSerializer.accepts r.2 = true :=
    accepts_of_mem_numbered haccepts.1
  have hlen := length_numbered 0 events
  have hmap := map_snd_numbered 0 events
  generalize numbered 0 events = l at hr hal hlen hmap
  obtain ⟨dir', hcrash, hr'⟩ := crashImage_represents hmin hr hk hal
  have hseg : lastSegment size (events.length + 1) = l.length / segmentCapacity size := by
    rw [lastSegment, Nat.add_sub_cancel, hlen]
  have hoff : lastOffset size (events.length + 1) = (tornSegment env size seq e hk hal).offset := by
    rw [lastOffset, Nat.add_sub_cancel, ← hlen, ← length_lastBlock hmin]
    rfl
  refine ⟨w, dir, dir', (tornSegment env size seq e hk hal).bytes, ?_, ?_, ?_, ?_, fun hno => ?_⟩
  · rw [hs]
    simp
  · rw [← hlen]
    exact hcrash
  · rw [hr'.segmentsOf_eq, hseg, Function.update_self]
  · refine ⟨(tornSegment env size seq e hk hal).padding, ?_⟩
    rw [hoff, drop_tornSegment, List.replicate_add, ← List.append_assoc]
    rfl
  · rw [hoff] at hno ⊢
    rw [slice_tornSegment, ← hmap, ← map_snd_keptRecords]
    obtain ⟨delivered, hdispatch, hperm, heq⟩ := dispatches_of_blocks hr' hcap (Nat.succ_pos _)
      crashImage_isSome_iff (count_keptRecords_le hk) (accepts_keptRecords hk hal haccepts.2)
      fun j data hj => crashImage_scans hmin hk hal hno hj
    refine ⟨delivered, hdispatch, hperm, fun hmax => heq ?_⟩
    rw [List.length_map] at hmax
    exact (Nat.div_lt_iff_lt_mul hcap).mpr hmax

/-- A blank event of which 40 bytes have been written: a complete header and eight
bytes of the event. -/
theorem noCoincidence_blank {data : List UInt8} {off padding : Nat}
    (h : data.drop off = (recordBytes 2 {}).take 40 ++
      List.replicate (totalRecordSize - 40 + padding) 0) : NoCoincidence data off 2 {} := by
  have hfirst : ((recordBytes 2 {}).take 40).length = 40 := by
    rw [List.length_take, length_recordBytes]
    rfl
  have hbyte : ∀ p < 40, p ≠ 0 → ((recordBytes 2 {}).take 40)[p]? ≠ some 0x44 := by
    decide +kernel
  have hcrc : computeCrc32 (((recordBytes 2 {}).take 40).drop 32 ++ List.replicate 120 0) ≠
      (recordHeader 2 {}).payloadCrc32 := by decide +kernel
  constructor
  · intro p hp hv
    by_cases hzero : p = 0
    · refine ⟨hzero, ?_⟩
      rw [slice, h, List.take_append_of_le_length (by simp [totalRecordSize]), List.take_take,
        recordBytes]
      exact List.take_left' (JournalRecordHeader.length_toBytes _)
    · obtain ⟨-, hmagic, -⟩ := hv
      have hlen : p < ((recordBytes 2 {}).take 40 ++
          List.replicate (totalRecordSize - 40 + padding) (0 : UInt8)).length := by
        rw [List.length_append, hfirst, List.length_replicate]
        omega
      rw [← List.drop_drop, h, List.drop_eq_getElem_cons hlen] at hmagic
      have hget := (List.getElem?_eq_getElem hlen).trans (congrArg some (eq_of_magic hmagic))
      rw [List.getElem?_append, hfirst] at hget
      split_ifs at hget with hp40
      · exact absurd hget (hbyte p hp40 hzero)
      · exact absurd (List.mem_replicate.mp (List.mem_of_getElem? hget)).2 (by decide)
  · intro hcrc'
    have hslice : slice data (off + 32) 128 =
        ((recordBytes 2 {}).take 40).drop 32 ++ List.replicate 120 0 := by
      rw [slice, ← List.drop_drop, h, List.drop_append_of_le_length (by rw [hfirst]; decide),
        List.take_append, List.take_of_length_le (by rw [List.length_drop, hfirst]; decide),
        List.length_drop, hfirst, List.take_replicate, Nat.min_eq_left]
      unfold totalRecordSize
      omega
    rw [hslice] at hcrc'
    exact absurd hcrc' hcrc

theorem replay_of_torn_append_blank : ∃ w dir dir',
    session ⟨fun _ => 0, fun _ => none⟩ {} ∅ (1024 * 1024) [{}, {}] =
        some (.kOk, [.ok 1, .ok 2], w, dir) ∧
      crashImage dir (1024 * 1024) 2 40 = some dir' ∧
      ReplayEngine.Dispatches dir' [Event.replayed {}] := by
  have hopen : OpensAll ⟨fun _ => 0, fun _ => none⟩ (1024 * 1024) :=
    opensAll_mebibyte _
  have hevents : ∀ x ∈ [({} : Event)] ++ [({} : Event)],
      EventSerializer.validate (some x.toBytes) = .kOk := by
    simp [EventSerializer.validate_blank]
  obtain ⟨w, dir, dir', data, hs, hcrash, -, ⟨padding, hdrop⟩, hreplay⟩ :=
    replay_of_torn_append hopen (Nat.le_refl _) hevents (show 40 ≤ totalRecordSize by decide)
  obtain ⟨delivered, hdispatch, -, heq⟩ := hreplay (noCoincidence_blank hdrop)
  have hne : (recordBytes 2 {}).take 40 ++ List.replicate 120 0 ≠ recordBytes 2 {} := by
    decide +kernel
  have hslot : slice data (lastOffset (1024 * 1024) 2) totalRecordSize =
      (recordBytes 2 {}).take 40 ++ List.replicate 120 0 := by
    rw [slice, show data.drop (lastOffset (1024 * 1024) 2) = _ from hdrop, List.replicate_add,
      ← List.append_assoc]
    apply List.take_left'
    rw [List.length_append, List.length_take, length_recordBytes, List.length_replicate]
    rfl
  have hkept : delivered = [{}] := by
    rw [heq (by decide), keptEvents]
    exact if_neg fun heq => hne (hslot.symm.trans heq)
  rw [hkept] at hdispatch
  exact ⟨w, dir, dir', hs, hcrash, hdispatch⟩

end Ume
