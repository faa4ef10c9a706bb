import Ume.Event.WriterSession

/-! What a replay delivers from segments that hold written records. -/

namespace Ume

open ByteString JournalWriter

/-- A segment as the writer leaves it: a valid header, records, an end. -/
def HoldsRecords (data : List UInt8) (recs : List (UInt64 × Event)) : Prop :=
  ∃ (header : JournalSegmentHeader) (tail : List UInt8), header.Valid ∧ EndMark tail ∧
    data = header.toBytes ++ (recordsBytes recs ++ tail)

namespace HoldsRecords

variable {data : List UInt8} {recs : List (UInt64 × Event)}

theorem validSegment (h : HoldsRecords data recs) : validSegment data = true := by
  obtain ⟨header, tail, hv, -, rfl⟩ := h
  exact validSegment_append hv _

theorem scan (h : HoldsRecords data recs) :
    Scan data segmentHeaderSize (deliveries segmentHeaderSize recs) (recordsTally recs)
      (segmentHeaderSize + totalRecordSize * recs.length) := by
  obtain ⟨header, tail, -, ht, rfl⟩ := h
  exact scan_records_endMark (List.drop_left' (JournalSegmentHeader.length_toBytes header)) ht

end HoldsRecords

/-- The events of a list of records that `validate` accepts. -/
def acceptedEvents (recs : List (UInt64 × Event)) : List Event :=
  (recs.map (·.2)).filter EventSerializer.accepts

theorem acceptedEvents_append (recs more : List (UInt64 × Event)) :
    acceptedEvents (recs ++ more) = acceptedEvents recs ++ acceptedEvents more := by
  rw [acceptedEvents, List.map_append, List.filter_append]
  rfl

theorem acceptedEvents_eq {recs : List (UInt64 × Event)}
    (h : ∀ r ∈ recs, EventSerializer.accepts r.2 = true) :
    acceptedEvents recs = recs.map (·.2) := by
  apply List.filter_eq_self.mpr
  intro e he
  obtain ⟨r, hr, rfl⟩ := List.mem_map.mp he
  exact h r hr

theorem map_deliveries (off : Nat) (recs : List (UInt64 × Event)) :
    (deliveries off recs).map (·.2) = acceptedEvents recs := by
  induction recs generalizing off with
  | nil => rfl
  | cons r recs ih =>
    rw [deliveries, acceptedEvents, List.map_cons]
    split_ifs with ha
    · rw [List.map_cons, ih, List.filter_cons_of_pos ha]
      rfl
    · rw [ih, List.filter_cons_of_neg ha]
      rfl

theorem recordsTally_append (recs more : List (UInt64 × Event)) :
    recordsTally (recs ++ more) = recordsTally recs + recordsTally more := by
  induction recs with
  | nil => rw [List.nil_append, recordsTally, Tally.empty_add]
  | cons r recs ih => rw [List.cons_append, recordsTally, recordsTally, ih, Tally.add_assoc]

theorem recordsTally_of_accepted {recs : List (UInt64 × Event)}
    (h : ∀ r ∈ recs, EventSerializer.accepts r.2 = true) :
    recordsTally recs = { records := recs.length, bytes := totalRecordSize * recs.length } := by
  induction recs with
  | nil => rfl
  | cons r recs ih =>
    have hh := ih fun x hx => h x (List.mem_cons_of_mem _ hx)
    rw [recordsTally, if_pos (h r List.mem_cons_self), hh, Tally.add_def, List.length_cons]
    ext <;> simp only [Nat.zero_add]
    · exact Nat.add_comm 1 _
    · ring

theorem Delivery.map_event_inSegment (i : Nat) (ds : List (Nat × Event)) :
    (ds.map (Delivery.inSegment i)).map (·.event) = ds.map (·.2) := by
  rw [List.map_map]
  rfl

theorem scanJournal_append {dir : Directory} {files : List (String × List (UInt64 × Event))}
    (h : ∀ f ∈ files, ∃ data, loadSegment dir f.1 = some data ∧ HoldsRecords data f.2)
    {i : Nat} {rest : List String} {ds : List Delivery} {t : Tally}
    (hr : ScanJournal dir (i + files.length) rest ds t) :
    ∃ es, ScanJournal dir i (files.map (·.1) ++ rest) (es ++ ds)
        ({ segments := files.length } + recordsTally (files.flatMap (·.2)) + t) ∧
      es.map (·.event) = acceptedEvents (files.flatMap (·.2)) := by
  induction files generalizing i with
  | nil => exact ⟨[], by simpa [recordsTally] using hr, rfl⟩
  | cons f files ih =>
    obtain ⟨data, hl, hw⟩ := h f List.mem_cons_self
    rw [List.length_cons, Nat.add_comm files.length, ← Nat.add_assoc] at hr
    obtain ⟨es, hj, he⟩ := ih (fun g hg => h g (List.mem_cons_of_mem _ hg)) hr
    refine ⟨(deliveries segmentHeaderSize f.2).map (Delivery.inSegment i) ++ es, ?_, ?_⟩
    · have hg := ScanJournal.good hl hw.scan hj
      have ht : ({ segments := 1 } + recordsTally f.2 +
          ({ segments := files.length } + recordsTally (files.flatMap (·.2)) + t) : Tally) =
          { segments := (f :: files).length } + recordsTally ((f :: files).flatMap (·.2)) + t := by
        rw [List.flatMap_cons, recordsTally_append, List.length_cons]
        ext <;> simp only [Tally.add_def] <;> ring
      rw [ht, ← List.append_assoc] at hg
      exact hg
    · rw [List.map_append, Delivery.map_event_inSegment, map_deliveries, he, List.flatMap_cons,
        acceptedEvents_append]

theorem exists_files {β : Type*} {P : List UInt8 → β → Prop} {f : Nat → β}
    {dir : Directory} {segs : Segments} {m : Nat} (hr : Represents dir segs) (hpos : 0 < m)
    (hm : ∀ j, (segs j).isSome ↔ j < m)
    (hw : ∀ j data, segs j = some data → validSegment data = true ∧ P data (f j)) :
    ∃ (first : String × β) (rest : List (String × β)),
      JournalReader.segmentPathsOf dir = (first :: rest).map (·.1) ∧
      (first :: rest).map (·.2) = (pathOrder m).map f ∧
      ∀ x ∈ first :: rest, ∃ data, loadSegment dir x.1 = some data ∧ P data x.2 := by
  have hpaths : JournalReader.segmentPathsOf dir =
      ((pathOrder m).map fun j => (buildSegmentPath j, f j)).map (·.1) := by
    rw [hr.segmentPathsOf hm, List.map_map]
    rfl
  have hknown : ((pathOrder m).map fun j => (buildSegmentPath j, f j)).map (·.2) =
      (pathOrder m).map f := by
    rw [List.map_map]
    rfl
  have hload : ∀ x ∈ (pathOrder m).map fun j => (buildSegmentPath j, f j),
      ∃ data, loadSegment dir x.1 = some data ∧ P data x.2 := by
    intro x hx
    obtain ⟨j, hj, rfl⟩ := List.mem_map.mp hx
    have hlt := List.mem_range.mp ((pathOrder_perm m).mem_iff.mp hj)
    obtain ⟨data, hd⟩ := Option.isSome_iff_exists.mp ((hm j).mpr hlt)
    exact ⟨data, hr.loadSegment hd (hw j data hd).1, (hw j data hd).2⟩
  have hne : (pathOrder m).map (fun j => (buildSegmentPath j, f j)) ≠ [] := by
    rw [← List.length_pos_iff, List.length_map, (pathOrder_perm m).length_eq, List.length_range]
    exact hpos
  obtain ⟨first, rest, hfiles⟩ := List.exists_cons_of_ne_nil hne
  rw [hfiles] at hpaths hknown hload
  exact ⟨first, rest, hpaths, hknown, hload⟩

namespace ReplayEngine

variable {δ : Type*} (dispatch : δ → Event → δ)

/-- The directory is read in the order of the file names, and every accepted
event is dispatched with its replay flag. -/
theorem replayDirectory_of_holdsRecords {dir : Directory} {segs : Segments} {m : Nat}
    {recs : Nat → List (UInt64 × Event)} (hr : Represents dir segs) (hpos : 0 < m)
    (hm : ∀ j, (segs j).isSome ↔ j < m)
    (hw : ∀ j data, segs j = some data → HoldsRecords data (recs j)) (d : δ) :
    ∃ fuel, ∀ more ≥ fuel, replayDirectory dispatch dir more d = some
      (.ok (ReplayStats.ofTally
          ({ segments := m } + recordsTally ((pathOrder m).flatMap recs))
          (acceptedEvents ((pathOrder m).flatMap recs)).length),
        ((acceptedEvents ((pathOrder m).flatMap recs)).map Event.replayed).foldl dispatch d) := by
  obtain ⟨first, rest, hpaths, hrecs, hload⟩ := exists_files hr hpos hm
    fun j data hj => ⟨(hw j data hj).validSegment, hw j data hj⟩
  have hflat : (first :: rest).flatMap (·.2) = (pathOrder m).flatMap recs := by
    rw [List.flatMap_def, hrecs, ← List.flatMap_def]
  have hlen : (first :: rest).length = m := by
    rw [← List.length_map (·.2), hrecs, List.length_map, (pathOrder_perm m).length_eq,
      List.length_range]
  obtain ⟨es, hj, he⟩ := scanJournal_append hload (i := 0)
    (show ScanJournal dir _ [] [] {} from .nil)
  rw [List.append_nil, List.append_nil, Tally.add_empty, hlen, hflat] at hj
  rw [hflat] at he
  obtain ⟨data, hd, -⟩ := hload first List.mem_cons_self
  obtain ⟨fuel, hf⟩ := replayOpened_of_scan dispatch hj (by rw [hd]; rfl) d
  refine ⟨fuel, fun more hmore => ?_⟩
  rw [replayDirectory_of_cons dispatch hpaths, hf more hmore, ← he]
  simp [Function.comp_def]

/-- `replay_directory` comes to its end, and has dispatched just these events. -/
def Dispatches (dir : Directory) (events : List Event) : Prop :=
  ∃ fuel, ∀ more ≥ fuel, ∃ result,
    replayDirectory (fun log e => log ++ [e]) dir more [] = some (result, events)

theorem Dispatches.of_result {dir : Directory} {fuel : Nat} {events : List Event}
    {result : Except Status ReplayStats}
    (h : ∀ more ≥ fuel,
      replayDirectory (fun log e => log ++ [e]) dir more [] = some (result, events)) :
    Dispatches dir events :=
  ⟨fuel, fun more hm => ⟨result, h more hm⟩⟩

theorem Dispatches.unique {dir : Directory} {events events' : List Event}
    (h : Dispatches dir events) (h' : Dispatches dir events') : events = events' := by
  obtain ⟨fuel, hf⟩ := h
  obtain ⟨fuel', hf'⟩ := h'
  obtain ⟨_, hr⟩ := hf (max fuel fuel') (Nat.le_max_left ..)
  obtain ⟨_, hr'⟩ := hf' (max fuel fuel') (Nat.le_max_right ..)
  rw [hr] at hr'
  cases hr'
  rfl

theorem Dispatches.iff_eq {dir : Directory} {events events' : List Event}
    (h : Dispatches dir events) : Dispatches dir events' ↔ events = events' :=
  ⟨h.unique, fun he => he ▸ h⟩

theorem foldl_log (events log : List Event) :
    events.foldl (fun log e => log ++ [e]) log = log ++ events := by
  induction events generalizing log with
  | nil => simp
  | cons e events ih => rw [List.foldl_cons, ih, List.append_assoc]; rfl

theorem dispatches_of_scan {dir : Directory} {path : String} {paths : List String}
    {es : List Delivery} {u : Tally} (hp : JournalReader.segmentPathsOf dir = path :: paths)
    (hj : ScanJournal dir 0 (path :: paths) es u) (hl : (loadSegment dir path).isSome) :
    Dispatches dir ((es.map (·.event)).map Event.replayed) := by
  obtain ⟨fuel, hf⟩ := replayOpened_of_scan (fun log e => log ++ [e]) hj hl []
  simp only [foldl_log, List.nil_append, ← replayDirectory_of_cons _ hp] at hf
  rw [List.map_map]
  exact .of_result hf

theorem dispatches_of_holdsRecords {dir : Directory} {segs : Segments} {m : Nat}
    {recs : Nat → List (UInt64 × Event)} (hr : Represents dir segs) (hpos : 0 < m)
    (hm : ∀ j, (segs j).isSome ↔ j < m)
    (hw : ∀ j data, segs j = some data → HoldsRecords data (recs j)) :
    Dispatches dir ((acceptedEvents ((pathOrder m).flatMap recs)).map Event.replayed) := by
  obtain ⟨fuel, hf⟩ := replayDirectory_of_holdsRecords (fun log e => log ++ [e]) hr hpos hm hw []
  simp only [foldl_log, List.nil_append] at hf
  exact .of_result hf

end ReplayEngine

end Ume
