import Ume.Event.SegmentStore

/-! The order of segment files by their paths, which is the order of their numbers as
long as all numbers have as many digits as the file names have room for. -/

namespace Ume

open JournalWriter

/-- `directory / name` for a name without a root: the separator stands between them unless
the directory is empty or ends with one. -/
def joinPath (directory name : String) : String :=
  if directory = "" ∨ directory.toList.getLast? = some '/' then directory ++ name
  else directory ++ "/" ++ name

theorem joinPath_eq_append (directory : String) :
    ∃ front, ∀ name, joinPath directory name = front ++ name := by
  by_cases h : directory = "" ∨ directory.toList.getLast? = some '/'
  · exact ⟨directory, fun name => if_pos h⟩
  · exact ⟨directory ++ "/", fun name => if_neg h⟩

theorem joinPath_buildSegmentPath_lt_iff {i j : Nat} (hij : i < j) (directory : String) :
    joinPath directory (buildSegmentPath i) < joinPath directory (buildSegmentPath j) ↔
      InPathOrder i j := by
  obtain ⟨front, hfront⟩ := joinPath_eq_append directory
  rw [hfront, hfront]
  exact append_buildSegmentPath_lt_iff hij front

theorem joinPath_injective (directory : String) : Function.Injective (joinPath directory) := by
  obtain ⟨front, hfront⟩ := joinPath_eq_append directory
  intro x y h
  rw [hfront, hfront, String.append_right_inj] at h
  exact h

/-- The paths of the files in a directory are sorted as their names are. -/
theorem mergeSort_joinPath (directory : String) (names : List String) :
    (names.map (joinPath directory)).mergeSort (fun x y => decide (x ≤ y)) =
      (names.mergeSort fun x y => decide (x ≤ y)).map (joinPath directory) := by
  obtain ⟨front, hfront⟩ := joinPath_eq_append directory
  symm
  apply List.map_mergeSort
  intro x _ y _
  rw [hfront, hfront, decide_eq_decide, ← not_lt, ← not_lt, String.lt_iff_toList_lt,
    String.lt_iff_toList_lt, String.toList_append, String.toList_append,
    Decimal.append_lt_append_iff]

theorem mergeSort_eq_self_iff {paths : List String} :
    paths.mergeSort (fun x y => decide (x ≤ y)) = paths ↔ paths.Pairwise (· ≤ ·) := by
  constructor
  · intro h
    rw [← h]
    exact pairwise_mergeSort_le paths
  · intro h
    exact List.mergeSort_of_pairwise (h.imp fun hxy => decide_eq_true hxy)

theorem pairwise_path_iff {ids : List Nat} (hids : ids.Pairwise (· < ·)) (directory : String) :
    (ids.map fun j => joinPath directory (buildSegmentPath j)).Pairwise (· < ·) ↔
      ids.Pairwise InPathOrder := by
  rw [List.pairwise_map]
  constructor
  · intro h
    exact (hids.and h).imp fun hij => (joinPath_buildSegmentPath_lt_iff hij.1 directory).mp hij.2
  · intro h
    exact (hids.and h).imp fun hij => (joinPath_buildSegmentPath_lt_iff hij.1 directory).mpr hij.2

theorem segmentPathsOf_eq_iff {dir : Directory} {segs : Segments} {ids : List Nat}
    (hr : Represents dir segs) (hids : ids.Pairwise (· < ·))
    (hsegs : ∀ j, (segs j).isSome ↔ j ∈ ids) :
    JournalReader.segmentPathsOf dir = ids.map buildSegmentPath ↔ ids.Pairwise InPathOrder := by
  have hnodup : ids.Nodup := hids.imp fun hij => hij.ne
  have hsame : (ids.map fun j => joinPath "" (buildSegmentPath j)) = ids.map buildSegmentPath :=
    List.map_congr_left fun j _ => by rw [joinPath, if_pos (.inl rfl), String.empty_append]
  rw [hr.segmentPathsOf_eq hnodup hsegs, mergeSort_eq_self_iff, ← pairwise_path_iff hids "", hsame]
  constructor
  · intro h
    exact (h.and (hnodup.map buildSegmentPath_injective)).imp fun hxy => hxy.1.lt_of_ne hxy.2
  · intro h
    exact h.imp fun hxy => hxy.le

/-- In every directory the paths of segments with increasing numbers are increasing, and the
segments are read in that order, exactly if the numbers are in the order of their names. -/
theorem paths_in_segment_order_iff {ids : List Nat} (hids : ids.Pairwise (· < ·))
    (directory : String) :
    ((ids.map fun j => joinPath directory (buildSegmentPath j)).Pairwise (· < ·) ↔
        ids.Pairwise InPathOrder) ∧
      ∀ dir segs, Represents dir segs → (∀ j, (segs j).isSome ↔ j ∈ ids) →
        (((JournalReader.umejFiles dir).map (joinPath directory)).mergeSort
              (fun x y => decide (x ≤ y)) =
            (ids.map fun j => joinPath directory (buildSegmentPath j)) ↔
          ids.Pairwise InPathOrder) := by
  refine ⟨pairwise_path_iff hids directory, fun dir segs hr hsegs => ?_⟩
  have hmap : (ids.map fun j => joinPath directory (buildSegmentPath j)) =
      (ids.map buildSegmentPath).map (joinPath directory) := by
    rw [List.map_map]
    rfl
  rw [mergeSort_joinPath, hmap, (List.map_injective_iff.mpr (joinPath_injective directory)).eq_iff]
  exact segmentPathsOf_eq_iff hr hids hsegs

theorem paths_in_segment_order_million :
    joinPath "journal" (buildSegmentPath 999998) <
      joinPath "journal" (buildSegmentPath 999999) := by
  have hids : [999998, 999999].Pairwise (· < ·) := by decide
  have horder := (paths_in_segment_order_iff hids "journal").1.mpr (by decide +kernel)
  exact List.rel_of_pairwise_cons horder List.mem_cons_self

/-- The segment after number 999999 is read before it. -/
theorem million_read_before : ∃ dir segs, Represents dir segs ∧
    (∀ j, (segs j).isSome ↔ j ∈ [999999, 1000000]) ∧
    JournalReader.segmentPathsOf dir = [buildSegmentPath 1000000, buildSegmentPath 999999] := by
  have hr := (represents_empty.insert 999999 { file := FileImage.empty } rfl rfl).insert 1000000
    { file := FileImage.empty } rfl rfl
  have hids (j : Nat) : (Function.update (Function.update (fun _ => none) 999999
      (some FileImage.empty.bytes)) 1000000 (some FileImage.empty.bytes) j).isSome ↔
        j ∈ [999999, 1000000] := by
    simp only [Function.update_apply, List.mem_cons, List.not_mem_nil, or_false]
    split_ifs with h h' <;> simp_all
  refine ⟨_, _, hr, hids, ?_⟩
  have hnodup : [1000000, 999999].Nodup := by decide
  rw [hr.segmentPathsOf_eq hnodup (fun j => by
    rw [hids, List.mem_pair, List.mem_pair, or_comm])]
  exact mergeSort_eq_self_iff.mpr (by decide +kernel)

end Ume
