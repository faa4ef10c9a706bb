import Ume.Event.BadSegments
import Ume.Event.Corruption

/-! Replaying a directory is replaying its segments one after the other. One reader
goes through all files, and what it carries from one to the next is only its
counters. -/

namespace Ume

open JournalWriter

namespace ReplayStats

instance : Add ReplayStats where
  add s t :=
    { segmentsReplayed := s.segmentsReplayed + t.segmentsReplayed
      eventsReplayed := s.eventsReplayed + t.eventsReplayed
      corruptedRecordsSkipped := s.corruptedRecordsSkipped + t.corruptedRecordsSkipped
      bytesRead := s.bytesRead + t.bytesRead }

instance : Zero ReplayStats where
  zero := {}

theorem ofTally_add (t u : Tally) (m n : Nat) :
    ofTally (t + u) (m + n) = ofTally t m + ofTally u n := by
  rw [ofTally, Tally.add_def, UInt64.ofNat_add, UInt64.ofNat_add, UInt64.ofNat_add,
    UInt64.ofNat_add]
  rfl

end ReplayStats

namespace ReplayEngine

/-- `replay_segment` comes to its end with these statistics, and has dispatched just
these events. -/
def ReplaysSegment (dir : Directory) (path : String) (stats : ReplayStats)
    (events : List Event) : Prop :=
  ∃ fuel, ∀ more ≥ fuel,
    replaySegment (fun log e => log ++ [e]) dir more path [] = some (.ok stats, events)

/-- The same for `replay_directory`. -/
def ReplaysDirectory (dir : Directory) (stats : ReplayStats) (events : List Event) : Prop :=
  ∃ fuel, ∀ more ≥ fuel,
    replayDirectory (fun log e => log ++ [e]) dir more [] = some (.ok stats, events)

section

variable {dir : Directory} {path : String}

/-- A replay that ends has scanned the segment to its end. -/
theorem exists_scan_of_replaySegment {data : List UInt8} (hl : loadSegment dir path = some data)
    {fuel : Nat} (h : (replaySegment (fun log e => log ++ [e]) dir fuel path []).isSome) :
    ∃ ds t stop, Scan data segmentHeaderSize ds t stop := by
  obtain ⟨out, hout⟩ := Option.isSome_iff_exists.mp h
  rw [replaySegment, JournalReader.openSegment, openPaths_of_loadSegment [] hl,
    replayOpened] at hout
  obtain ⟨loop, hloop, -⟩ := Option.bind_eq_some_iff.mp hout
  obtain ⟨es, r', hreads⟩ := reads_of_replayLoop rfl hloop
  obtain ⟨ds, ⟨t, stop, hs⟩, -⟩ :=
    hreads.scans (JournalReader.opened_bounded [] hl) (Nat.le_refl _)
  exact ⟨ds, t, stop, hs⟩

theorem replaysSegment_of_scan {data : List UInt8} {ds : List (Nat × Event)} {t : Tally}
    {stop : Nat} (hl : loadSegment dir path = some data)
    (hs : Scan data segmentHeaderSize ds t stop) :
    ReplaysSegment dir path (ReplayStats.ofTally ({ segments := 1 } + t) ds.length)
      (ds.map fun d => d.2.replayed) := by
  obtain ⟨fuel, hf⟩ := replayOpened_of_scan (fun log e => log ++ [e])
    (ScanJournal.good (i := 0) hl hs .nil) (by rw [hl]; rfl) []
  refine ⟨fuel, fun more hm => (hf more hm).trans ?_⟩
  rw [List.append_nil, Tally.add_empty, foldl_log, List.length_map, List.map_map]
  rfl

/-- The segments of a directory that all load, chained by what each of them holds. -/
theorem scanJournal_of_scan {ds : String → List (Nat × Event)} {t : String → Tally}
    {paths : List String}
    (h : ∀ path ∈ paths, ∃ data stop, loadSegment dir path = some data ∧
      Scan data segmentHeaderSize (ds path) (t path) stop) (i : Nat) :
    ∃ es u, ScanJournal dir i paths es u ∧
      es.map (fun e => e.event.replayed) =
        paths.flatMap (fun path => (ds path).map fun d => d.2.replayed) ∧
      ReplayStats.ofTally u es.length =
        (paths.map fun path =>
          ReplayStats.ofTally ({ segments := 1 } + t path) (ds path).length).sum := by
  induction paths generalizing i with
  | nil => exact ⟨[], {}, .nil, rfl, rfl⟩
  | cons path paths ih =>
    obtain ⟨data, stop, hl, hs⟩ := h path List.mem_cons_self
    obtain ⟨es, u, hj, hevents, hstats⟩ :=
      ih (fun p hp => h p (List.mem_cons_of_mem _ hp)) (i + 1)
    refine ⟨_, _, .good hl hs hj, ?_, ?_⟩
    · rw [List.map_append, hevents, List.flatMap_cons, List.map_map]
      rfl
    · rw [List.length_append, List.length_map, ReplayStats.ofTally_add, hstats, List.map_cons,
        List.sum_cons]

end

/-- In a directory whose files all load, on which each single replay ends,
`replay_directory` dispatches what `replay_segment` dispatches for the files in the
order of their paths, and its statistics are the sums of theirs. -/
theorem replayDirectory_concatenates {dir : Directory}
    (hne : JournalReader.segmentPathsOf dir ≠ [])
    (hvalid : ∀ path ∈ JournalReader.segmentPathsOf dir, (loadSegment dir path).isSome)
    (hterm : ∀ path ∈ JournalReader.segmentPathsOf dir, ∃ fuel,
      (replaySegment (fun log e => log ++ [e]) dir fuel path []).isSome) :
    ∃ (stats : String → ReplayStats) (events : String → List Event),
      (∀ path ∈ JournalReader.segmentPathsOf dir,
        ReplaysSegment dir path (stats path) (events path)) ∧
      ReplaysDirectory dir ((JournalReader.segmentPathsOf dir).map stats).sum
        ((JournalReader.segmentPathsOf dir).flatMap events) := by
  have hscan : ∀ path, ∃ ds t, path ∈ JournalReader.segmentPathsOf dir →
      ∃ data stop, loadSegment dir path = some data ∧
        Scan data segmentHeaderSize ds t stop := by
    intro path
    by_cases hp : path ∈ JournalReader.segmentPathsOf dir
    · obtain ⟨data, hl⟩ := Option.isSome_iff_exists.mp (hvalid path hp)
      obtain ⟨fuel, hf⟩ := hterm path hp
      obtain ⟨ds, t, stop, hs⟩ := exists_scan_of_replaySegment hl hf
      exact ⟨ds, t, fun _ => ⟨data, stop, hl, hs⟩⟩
    · exact ⟨[], {}, fun h => absurd h hp⟩
  choose ds t hscan using hscan
  refine ⟨fun path => ReplayStats.ofTally ({ segments := 1 } + t path) (ds path).length,
    fun path => (ds path).map fun d => d.2.replayed, ?_, ?_⟩
  · intro path hp
    obtain ⟨data, stop, hl, hs⟩ := hscan path hp
    exact replaysSegment_of_scan hl hs
  · obtain ⟨es, u, hj, hevents, hstats⟩ := scanJournal_of_scan hscan 0
    obtain ⟨first, rest, hpaths⟩ := List.exists_cons_of_ne_nil hne
    rw [hpaths] at hj hvalid
    obtain ⟨fuel, hf⟩ := replayOpened_of_scan (fun log e => log ++ [e]) hj
      (hvalid first List.mem_cons_self) []
    refine ⟨fuel, fun more hm => ?_⟩
    rw [replayDirectory_of_cons _ hpaths, hf more hm, foldl_log, hstats, hevents]
    rfl

/-- Two segments of one record each. -/
theorem replayDirectory_concatenates_pair :
    ∃ (dir : Directory) (stats : String → ReplayStats) (events : String → List Event),
      JournalReader.segmentPathsOf dir = [buildSegmentPath 0, buildSegmentPath 1] ∧
        ReplaysDirectory dir ([buildSegmentPath 0, buildSegmentPath 1].map stats).sum
          (events (buildSegmentPath 0) ++ events (buildSegmentPath 1)) := by
  obtain ⟨dir, hr, hp⟩ := exists_represents_pair (length_blank_lt 0) (length_blank_lt 1)
  have hends (j : Nat) (hl : loadSegment dir (buildSegmentPath j) =
      some (writtenSegment ⟨fun _ => 0, fun _ => none⟩ (fun _ => none) 1048576 j [(1, {})])) :
      (loadSegment dir (buildSegmentPath j)).isSome ∧
        ∃ fuel, (replaySegment (fun log e => log ++ [e]) dir fuel
          (buildSegmentPath j) []).isSome := by
    obtain ⟨fuel, hf⟩ := replaysSegment_of_scan hl (holdsRecords_blank j).scan
    exact ⟨by rw [hl]; rfl, fuel, by rw [hf fuel le_rfl]; rfl⟩
  have hall : ∀ path ∈ JournalReader.segmentPathsOf dir, (loadSegment dir path).isSome ∧
      ∃ fuel, (replaySegment (fun log e => log ++ [e]) dir fuel path []).isSome := by
    intro path hm
    rw [hp] at hm
    rcases List.mem_pair.mp hm with rfl | rfl
    · exact hends 0 (hr.loadSegment rfl (holdsRecords_blank 0).validSegment)
    · exact hends 1 (hr.loadSegment rfl (holdsRecords_blank 1).validSegment)
  have hne : JournalReader.segmentPathsOf dir ≠ [] := by
    rw [hp]
    exact List.cons_ne_nil _ _
  obtain ⟨stats, events, -, hdir⟩ := replayDirectory_concatenates hne
    (fun path hm => (hall path hm).1) (fun path hm => (hall path hm).2)
  rw [hp, List.flatMap_cons, List.flatMap_cons, List.flatMap_nil, List.append_nil] at hdir
  exact ⟨dir, stats, events, hp, hdir⟩

end ReplayEngine

end Ume
