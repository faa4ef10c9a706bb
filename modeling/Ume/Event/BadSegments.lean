import Mathlib.Data.List.TakeWhile
import Ume.Event.RoundTrip

/-! Directories in which some of the segment files do not load. The first of
them ends the replay, whatever follows it. -/

namespace Ume

open JournalWriter

theorem segmentPathsOf_pairwise (dir : Directory) :
    (JournalReader.segmentPathsOf dir).Pairwise (· < ·) := by
  have hsub : (JournalReader.umejFiles dir).Sublist dir.keys := List.filter_sublist.map _
  have hnodup : (JournalReader.segmentPathsOf dir).Nodup :=
    (List.mergeSort_perm _ _).nodup_iff.mpr (dir.keys_nodup.sublist hsub)
  have hsorted : (JournalReader.segmentPathsOf dir).Pairwise (fun a b => decide (a ≤ b) = true) :=
    List.pairwise_mergeSort
      (fun x y z hxy hyz => decide_eq_true ((of_decide_eq_true hxy).trans (of_decide_eq_true hyz)))
      (fun x y => by simpa using le_total x y) _
  exact (hsorted.and hnodup).imp fun h => lt_of_le_of_ne (of_decide_eq_true h.1) h.2

def loads (dir : Directory) (path : String) : Bool := (loadSegment dir path).isSome

section

variable {dir : Directory} {recs : String → List (UInt64 × Event)}

/-- The records up to the first file that does not load. -/
def reached (dir : Directory) (recs : String → List (UInt64 × Event)) : List (UInt64 × Event) :=
  ((JournalReader.segmentPathsOf dir).takeWhile (loads dir)).flatMap recs

/-- The records of all files that load, in the order of their names. -/
def wellFormed (dir : Directory) (recs : String → List (UInt64 × Event)) :
    List (UInt64 × Event) :=
  ((JournalReader.segmentPathsOf dir).filter (loads dir)).flatMap recs

theorem scanJournal_dropWhile (i : Nat) (paths : List String) :
    ScanJournal dir i (paths.dropWhile (loads dir)) [] {} := by
  induction paths with
  | nil => exact .nil
  | cons path paths ih =>
    cases hp : loads dir path with
    | true => rwa [List.dropWhile_cons_of_pos hp]
    | false =>
      rw [List.dropWhile_cons_of_neg (by simp [hp])]
      exact .bad (by simpa [loads] using hp)

theorem dispatches_reached_of_loads {path : String} {paths : List String}
    (hp : JournalReader.segmentPathsOf dir = path :: paths) (hl : loads dir path = true)
    (hw : ∀ path ∈ JournalReader.segmentPathsOf dir, ∀ data, loadSegment dir path = some data →
      HoldsRecords data (recs path)) :
    ReplayEngine.Dispatches dir ((acceptedEvents (reached dir recs)).map Event.replayed) := by
  let good := (path :: paths).takeWhile (loads dir)
  have hgood : ∀ f ∈ good.map fun p => (p, recs p),
      ∃ data, loadSegment dir f.1 = some data ∧ HoldsRecords data f.2 := by
    intro f hf
    obtain ⟨p, hm, rfl⟩ := List.mem_map.mp hf
    have hload : loads dir p = true := List.mem_takeWhile_imp hm
    obtain ⟨data, hd⟩ := Option.isSome_iff_exists.mp hload
    exact ⟨data, hd, hw p (hp ▸ (List.takeWhile_sublist _).subset hm) data hd⟩
  obtain ⟨es, hj, he⟩ := scanJournal_append hgood (i := 0)
    (scanJournal_dropWhile _ (path :: paths))
  have hpaths : (good.map fun p => (p, recs p)).map (·.1) ++ (path :: paths).dropWhile (loads dir) =
      path :: paths := by
    rw [List.map_map]
    exact (congrArg (· ++ _) (List.map_id _)).trans List.takeWhile_append_dropWhile
  rw [hpaths, List.append_nil] at hj
  have hall : (good.map fun p => (p, recs p)).flatMap (·.2) = reached dir recs := by
    rw [List.flatMap_map, reached, hp]
  rw [← hall, ← he]
  exact ReplayEngine.dispatches_of_scan hp hj hl

theorem dispatches_reached
    (hw : ∀ path ∈ JournalReader.segmentPathsOf dir, ∀ data, loadSegment dir path = some data →
      HoldsRecords data (recs path)) :
    ReplayEngine.Dispatches dir ((acceptedEvents (reached dir recs)).map Event.replayed) := by
  cases hp : JournalReader.segmentPathsOf dir with
  | nil =>
    have hnone : reached dir recs = [] := by rw [reached, hp]; rfl
    rw [hnone]
    exact .of_result fun more (_ : more ≥ 0) => ReplayEngine.replayDirectory_of_nil _ hp more []
  | cons path paths =>
    cases hl : loads dir path with
    | false =>
      have hnone : reached dir recs = [] := by
        rw [reached, hp, List.takeWhile_cons_of_neg (by simp [hl])]
        rfl
      rw [hnone]
      refine ⟨0, fun more _ => ?_⟩
      obtain ⟨status, -, hr⟩ := ReplayEngine.replayOpened_of_bad
        (fun log e => log ++ [e]) (by simpa [loads] using hl) paths more []
      exact ⟨_, (ReplayEngine.replayDirectory_of_cons _ hp more []).trans hr⟩
    | true => exact dispatches_reached_of_loads hp hl hw

/-- The records of the files that load behind one that does not. -/
def hidden (dir : Directory) (recs : String → List (UInt64 × Event)) : List (UInt64 × Event) :=
  (((JournalReader.segmentPathsOf dir).dropWhile (loads dir)).filter (loads dir)).flatMap recs

theorem wellFormed_eq : wellFormed dir recs = reached dir recs ++ hidden dir recs := by
  have hgood : ((JournalReader.segmentPathsOf dir).takeWhile (loads dir)).filter (loads dir) =
      (JournalReader.segmentPathsOf dir).takeWhile (loads dir) :=
    List.filter_eq_self.mpr fun _ h => List.mem_takeWhile_imp h
  rw [reached, hidden, ← List.flatMap_append]
  conv_rhs => rw [← hgood, ← List.filter_append, List.takeWhile_append_dropWhile]
  rfl

theorem mem_reached_or_hidden {path : String} {r : UInt64 × Event}
    (hp : path ∈ JournalReader.segmentPathsOf dir) (hl : loads dir path = true)
    (hr : r ∈ recs path) : r ∈ reached dir recs ∨ r ∈ hidden dir recs := by
  rw [← List.mem_append, ← wellFormed_eq]
  exact List.mem_flatMap.mpr ⟨path, List.mem_filter.mpr ⟨hp, hl⟩, hr⟩

/-- No record is hidden if the files with records come before those that do not load. -/
theorem hidden_eq_nil_iff :
    hidden dir recs = [] ↔
      ∀ bad ∈ JournalReader.segmentPathsOf dir, ∀ path ∈ JournalReader.segmentPathsOf dir,
        loads dir bad = false → loads dir path = true → recs path ≠ [] → path < bad := by
  have hsorted := segmentPathsOf_pairwise dir
  have hsplit := List.takeWhile_append_dropWhile (p := loads dir)
    (l := JournalReader.segmentPathsOf dir)
  constructor
  · intro hn bad hbad path hpath hb hp hne
    rw [← hsplit] at hsorted hbad hpath
    have hpath' : path ∈ (JournalReader.segmentPathsOf dir).takeWhile (loads dir) := by
      refine (List.mem_append.mp hpath).resolve_right fun hmem => hne ?_
      exact List.flatMap_eq_nil_iff.mp hn path (List.mem_filter.mpr ⟨hmem, hp⟩)
    have hbad' : bad ∈ (JournalReader.segmentPathsOf dir).dropWhile (loads dir) := by
      refine (List.mem_append.mp hbad).resolve_left fun hmem => ?_
      rw [List.mem_takeWhile_imp hmem] at hb
      cases hb
    exact (List.pairwise_append.mp hsorted).2.2 path hpath' bad hbad'
  · intro h
    apply List.flatMap_eq_nil_iff.mpr
    intro path hm
    obtain ⟨hmem, hp⟩ := List.mem_filter.mp hm
    by_contra hne
    rw [← hsplit] at hsorted
    have hrest := (List.pairwise_append.mp hsorted).2.1
    have hsub : ∀ q ∈ (JournalReader.segmentPathsOf dir).dropWhile (loads dir),
        q ∈ JournalReader.segmentPathsOf dir := fun q hq => (List.dropWhile_sublist _).subset hq
    cases hd : (JournalReader.segmentPathsOf dir).dropWhile (loads dir) with
    | nil => simp [hd] at hmem
    | cons bad rest =>
      have hb : loads dir bad = false := by
        have hh := List.head?_dropWhile_not (loads dir) (JournalReader.segmentPathsOf dir)
        simpa [hd] using hh
      have hlt := h bad (hsub bad (by simp [hd])) path (hsub path hmem) hb hp hne
      rw [hd] at hmem hrest
      rcases List.mem_cons.mp hmem with rfl | hmem
      · rw [hb] at hp
        cases hp
      · exact lt_asymm hlt ((List.pairwise_cons.mp hrest).1 path hmem)

/-- Nothing is lost exactly if every record is accepted and every file with records
comes before the files that do not load. -/
theorem reached_eq_wellFormed_iff :
    (acceptedEvents (reached dir recs)).map Event.replayed =
        ((wellFormed dir recs).map (·.2)).map Event.replayed ↔
      (∀ path ∈ JournalReader.segmentPathsOf dir, loads dir path = true →
        ∀ r ∈ recs path, EventSerializer.accepts r.2 = true) ∧
      (∀ bad ∈ JournalReader.segmentPathsOf dir, ∀ path ∈ JournalReader.segmentPathsOf dir,
        loads dir bad = false → loads dir path = true → recs path ≠ [] → path < bad) := by
  rw [← hidden_eq_nil_iff, wellFormed_eq]
  constructor
  · intro he
    have hlen := congrArg List.length he
    have hle := List.length_filter_le EventSerializer.accepts ((reached dir recs).map (·.2))
    simp only [acceptedEvents, List.length_map, List.length_append] at hlen hle
    have hh : hidden dir recs = [] := List.eq_nil_of_length_eq_zero (by omega)
    have hall := List.length_filter_eq_length_iff (l := (reached dir recs).map (·.2))
      (p := EventSerializer.accepts) |>.mp (by rw [List.length_map]; omega)
    refine ⟨fun path hp hl r hr => ?_, hh⟩
    rcases mem_reached_or_hidden hp hl hr with hm | hm
    · exact hall r.2 (List.mem_map_of_mem hm)
    · rw [hh] at hm
      cases hm
  · rintro ⟨ha, hh⟩
    rw [hh, List.append_nil, acceptedEvents_eq]
    intro r hr
    obtain ⟨path, hp, hm⟩ := List.mem_flatMap.mp hr
    exact ha path ((List.takeWhile_sublist _).subset hp) (List.mem_takeWhile_imp hp) r hm

/-- Every record of every well-formed segment is replayed exactly if all of them are
accepted and no file that does not load comes before one of these segments. -/
theorem replays_wellFormed_iff {dir : Directory} (recs : String → List (UInt64 × Event))
    (hw : ∀ path ∈ JournalReader.segmentPathsOf dir, ∀ data, loadSegment dir path = some data →
      HoldsRecords data (recs path)) :
    ReplayEngine.Dispatches dir (((wellFormed dir recs).map (·.2)).map Event.replayed) ↔
      (∀ path ∈ JournalReader.segmentPathsOf dir, loads dir path = true →
        ∀ r ∈ recs path, EventSerializer.accepts r.2 = true) ∧
      (∀ bad ∈ JournalReader.segmentPathsOf dir, ∀ path ∈ JournalReader.segmentPathsOf dir,
        loads dir bad = false → loads dir path = true → recs path ≠ [] → path < bad) := by
  rw [(dispatches_reached hw).iff_eq]
  exact reached_eq_wellFormed_iff

end

theorem exists_represents_pair {a b : List UInt8} (ha : a.length < 2 ^ 63)
    (hb : b.length < 2 ^ 63) : ∃ dir, Represents dir
      (Function.update (Function.update (fun _ => none) 0 (some a)) 1 (some b)) ∧
      JournalReader.segmentPathsOf dir = [buildSegmentPath 0, buildSegmentPath 1] := by
  have hr := (represents_empty.insert 0 { file := ⟨a, ha⟩ } rfl rfl).insert 1
    { file := ⟨b, hb⟩ } rfl rfl
  refine ⟨_, hr, ?_⟩
  rw [hr.segmentPathsOf (m := 2), pathOrder_eq_range (by decide)]
  · rfl
  · intro j
    rcases j with _ | _ | j
    · simp
    · simp
    · simp

theorem holdsRecords_blank (j : Nat) : HoldsRecords
    (writtenSegment ⟨fun _ => 0, fun _ => none⟩ (fun _ => none) 1048576 j [(1, {})]) [(1, {})] := by
  apply holdsRecords_writtenSegment
  rw [staleBytes_fresh rfl, List.drop_replicate]
  exact endMark_replicate _

theorem length_blank_lt (j : Nat) :
    (writtenSegment ⟨fun _ => 0, fun _ => none⟩ (fun _ => none) 1048576 j [(1, {})]).length <
      2 ^ 63 := by
  rw [length_writtenSegment (by decide)]
  decide

/-- A segment with one record, and a file of one byte behind it. -/
theorem replays_wellFormed_before_bad : ∃ dir,
    JournalReader.segmentPathsOf dir = [buildSegmentPath 0, buildSegmentPath 1] ∧
      loads dir (buildSegmentPath 1) = false ∧
      ReplayEngine.Dispatches dir [Event.replayed {}] := by
  obtain ⟨dir, hr, hp⟩ := exists_represents_pair (length_blank_lt 0) (b := [0]) (by decide)
  have h0 := hr.loadSegment (j := 0) rfl (holdsRecords_blank 0).validSegment
  have h1 := hr.loadSegment_of_invalid (j := 1) rfl (by decide)
  have hl0 : loads dir (buildSegmentPath 0) = true := by rw [loads, h0]; rfl
  have hl1 : loads dir (buildSegmentPath 1) = false := by rw [loads, h1]; rfl
  have hw : ∀ path ∈ JournalReader.segmentPathsOf dir, ∀ data, loadSegment dir path = some data →
      HoldsRecords data [(1, {})] := by
    intro path hm data hd
    rw [hp] at hm
    rcases List.mem_pair.mp hm with rfl | rfl
    · rw [h0] at hd
      cases hd
      exact holdsRecords_blank 0
    · rw [h1] at hd
      cases hd
  have hwell : wellFormed dir (fun _ => [(1, {})]) = [(1, {})] := by
    simp [wellFormed, hp, hl0, hl1]
  have hd := (replays_wellFormed_iff (fun _ => [(1, {})]) hw).mpr ⟨?_, ?_⟩
  · rw [hwell] at hd
    exact ⟨dir, hp, hl1, hd⟩
  · simp [EventSerializer.accepts_blank]
  · intro bad hbad path hpath hb hl _
    rw [hp] at hbad hpath
    rcases List.mem_pair.mp hbad with rfl | rfl
    · rw [hl0] at hb
      cases hb
    · rcases List.mem_pair.mp hpath with rfl | rfl
      · exact buildSegmentPath_lt (by decide) (by decide)
      · rw [hl1] at hl
        cases hl

/-- The same two files the other way round: nothing is replayed. -/
theorem bad_segment_hides_record : ∃ dir data,
    JournalReader.segmentPathsOf dir = [buildSegmentPath 0, buildSegmentPath 1] ∧
      loads dir (buildSegmentPath 0) = false ∧
      loadSegment dir (buildSegmentPath 1) = some data ∧ HoldsRecords data [(1, {})] ∧
      ReplayEngine.Dispatches dir [] ∧ ¬ ReplayEngine.Dispatches dir [Event.replayed {}] := by
  obtain ⟨dir, hr, hp⟩ := exists_represents_pair (a := [0]) (by decide) (length_blank_lt 1)
  have h0 := hr.loadSegment_of_invalid (j := 0) rfl (by decide)
  have h1 := hr.loadSegment (j := 1) rfl (holdsRecords_blank 1).validSegment
  have hl0 : loads dir (buildSegmentPath 0) = false := by rw [loads, h0]; rfl
  have hreached : reached dir (fun _ => [(1, {})]) = [] := by simp [reached, hp, hl0]
  have hd : ReplayEngine.Dispatches dir
      ((acceptedEvents (reached dir (fun _ => [(1, {})]))).map Event.replayed) := by
    apply dispatches_reached
    intro path hm data hd
    rw [hp] at hm
    rcases List.mem_pair.mp hm with rfl | rfl
    · rw [h0] at hd
      cases hd
    · rw [h1] at hd
      cases hd
      exact holdsRecords_blank 1
  rw [hreached] at hd
  refine ⟨dir, _, hp, hl0, h1, holdsRecords_blank 1, hd, ?_⟩
  rw [hd.iff_eq]
  exact List.cons_ne_nil _ _ |>.symm

end Ume
