import Ume.Event.SegmentFormat

/-! A journal directory seen as the contents of its segments by id. Opening and
storing through a mapping change one segment and keep the others. -/

namespace Ume

open ByteString

/-- The contents of the segments that exist. -/
abbrev Segments := Nat → Option (List UInt8)

/-- The directory holds these segments as plain readable files, and nothing else. -/
structure Represents (dir : Directory) (segs : Segments) : Prop where
  present : ∀ j data, segs j = some data →
    ∃ entry, dir.lookup (JournalWriter.buildSegmentPath j) = some entry ∧
      entry.file.bytes = data ∧ entry.isRegularFile = true ∧ entry.readFault = none
  known : ∀ path ∈ dir, ∃ j, path = JournalWriter.buildSegmentPath j ∧ (segs j).isSome

namespace JournalWriter

theorem toList_buildSegmentPath (j : Nat) :
    (buildSegmentPath j).toList = "segment_".toList ++ Decimal.padded 6 j ++ ".umej".toList := by
  simp [buildSegmentPath]

theorem buildSegmentPath_injective : Function.Injective buildSegmentPath := by
  intro i j h
  have hl := congrArg String.toList h
  rw [toList_buildSegmentPath, toList_buildSegmentPath] at hl
  exact Decimal.padded_injective 6 (List.append_cancel_left (List.append_cancel_right hl))

/-- The digits of a segment number in its file name. -/
def idWidth (j : Nat) : Nat := (Decimal.padded 6 j).length

/-- The first number is at most what the second one is up to the same number of digits. -/
def InPathOrder (i j : Nat) : Prop := i ≤ j / 10 ^ (idWidth j - idWidth i)

instance : DecidableRel InPathOrder := fun _ _ => inferInstanceAs (Decidable (_ ≤ _))

theorem append_buildSegmentPath_lt_iff {i j : Nat} (hij : i < j) (directory : String) :
    directory ++ buildSegmentPath i < directory ++ buildSegmentPath j ↔ InPathOrder i j := by
  rw [String.lt_iff_toList_lt, String.toList_append, String.toList_append,
    toList_buildSegmentPath, toList_buildSegmentPath, List.append_assoc, List.append_assoc,
    Decimal.append_lt_append_iff, Decimal.append_lt_append_iff]
  exact Decimal.padded_append_lt_iff (by decide) "umej".toList hij

theorem buildSegmentPath_lt {i j : Nat} (hij : i < j) (hj : j < 1000000) :
    buildSegmentPath i < buildSegmentPath j := by
  have horder : InPathOrder i j := by
    rw [InPathOrder, idWidth, idWidth, Decimal.length_padded (by decide) (show i < 10 ^ 6 by omega),
      Decimal.length_padded (by decide) (show j < 10 ^ 6 by omega), Nat.sub_self, Nat.pow_zero,
      Nat.div_one]
    exact hij.le
  have hlt := (append_buildSegmentPath_lt_iff hij "").mpr horder
  rwa [String.empty_append, String.empty_append] at hlt

theorem hasUmejExtension_buildSegmentPath (j : Nat) :
    JournalReader.hasUmejExtension (buildSegmentPath j) = true := by
  have hne : buildSegmentPath j ≠ ".umej" := by
    intro h
    have hl := congrArg (fun s => s.toList.length) h
    simp only [toList_buildSegmentPath, List.length_append] at hl
    have : "segment_".toList.length = 8 := rfl
    have : ".umej".toList.length = 5 := rfl
    omega
  have hs : ".umej".toList.isSuffixOf (buildSegmentPath j).toList = true := by
    rw [List.isSuffixOf_iff_suffix, toList_buildSegmentPath]
    exact List.suffix_append _ _
  simp only [JournalReader.hasUmejExtension, hs, Bool.true_and, decide_eq_true_eq]
  exact hne

end JournalWriter

open JournalWriter (buildSegmentPath buildSegmentPath_injective)

/-- The segments of a directory, whatever else it holds. -/
def segmentsOf (dir : Directory) : Segments := fun j =>
  (dir.lookup (buildSegmentPath j)).map (·.file.bytes)

theorem segmentsOf_insert (dir : Directory) (j : Nat) (entry : DirEntry) :
    segmentsOf (dir.insert (buildSegmentPath j) entry) =
      Function.update (segmentsOf dir) j (some entry.file.bytes) := by
  funext i
  by_cases hij : i = j
  · subst hij
    rw [segmentsOf, AList.lookup_insert, Option.map_some, Function.update_self]
  · rw [segmentsOf, AList.lookup_insert_ne (fun hp => hij (buildSegmentPath_injective hp)),
      Function.update_of_ne hij, segmentsOf]

theorem represents_empty : Represents ∅ (fun _ => none) where
  present := by simp
  known := by simp

theorem pairwise_mergeSort_le (paths : List String) :
    (paths.mergeSort fun x y => decide (x ≤ y)).Pairwise (· ≤ ·) := by
  refine (List.pairwise_mergeSort ?_ ?_ paths).imp fun hxy => of_decide_eq_true hxy
  · intro x y z hxy hyz
    exact decide_eq_true ((of_decide_eq_true hxy).trans (of_decide_eq_true hyz))
  · intro x y
    simpa using le_total x y

/-- Sorting names gives one list for every order they are found in. -/
theorem mergeSort_eq_of_perm {a b : List String} (h : a.Perm b) :
    a.mergeSort (fun x y => decide (x ≤ y)) = b.mergeSort (fun x y => decide (x ≤ y)) := by
  refine List.Perm.eq_of_pairwise (fun x y _ _ hxy hyx => le_antisymm hxy hyx)
    (pairwise_mergeSort_le a) (pairwise_mergeSort_le b) ?_
  exact ((List.mergeSort_perm a _).trans h).trans (List.mergeSort_perm b _).symm

namespace Represents

variable {dir : Directory} {segs : Segments}

theorem lookup_none (h : Represents dir segs) {j : Nat} (hj : segs j = none) :
    dir.lookup (buildSegmentPath j) = none := by
  rw [AList.lookup_eq_none]
  intro hm
  obtain ⟨i, hi, hs⟩ := h.known _ hm
  rw [← buildSegmentPath_injective hi, hj] at hs
  simp at hs

theorem mem_iff (h : Represents dir segs) (j : Nat) :
    buildSegmentPath j ∈ dir ↔ (segs j).isSome := by
  constructor
  · intro hm
    obtain ⟨i, hi, hs⟩ := h.known _ hm
    rwa [buildSegmentPath_injective hi]
  · intro hs
    obtain ⟨data, hd⟩ := Option.isSome_iff_exists.mp hs
    obtain ⟨entry, he, _⟩ := h.present j data hd
    exact AList.lookup_isSome.mp (by simp [he])

theorem insert (h : Represents dir segs) (j : Nat) (entry : DirEntry)
    (hr : entry.isRegularFile = true) (hf : entry.readFault = none) :
    Represents (dir.insert (buildSegmentPath j) entry)
      (Function.update segs j (some entry.file.bytes)) where
  present := by
    intro i data hi
    by_cases hij : i = j
    · subst hij
      simp only [Function.update_self, Option.some.injEq] at hi
      exact ⟨entry, AList.lookup_insert dir, hi, hr, hf⟩
    · rw [Function.update_of_ne hij] at hi
      rw [AList.lookup_insert_ne (fun hp => hij (buildSegmentPath_injective hp))]
      exact h.present i data hi
  known := by
    intro path hm
    rcases (AList.mem_insert dir).mp hm with rfl | hm
    · exact ⟨j, rfl, by simp⟩
    · obtain ⟨i, rfl, hs⟩ := h.known path hm
      refine ⟨i, rfl, ?_⟩
      by_cases hij : i = j
      · simp [hij]
      · rwa [Function.update_of_ne hij]

theorem insert_file (h : Represents dir segs) (j : Nat) (file : FileImage) :
    Represents (dir.insert (buildSegmentPath j)
        { (dir.lookup (buildSegmentPath j)).getD { file := FileImage.empty } with file := file })
      (Function.update segs j (some file.bytes)) := by
  cases hj : segs j with
  | none =>
    rw [h.lookup_none hj]
    exact h.insert j _ rfl rfl
  | some data =>
    obtain ⟨entry, hl, -, hr, hf⟩ := h.present j data hj
    rw [hl]
    exact h.insert j _ hr hf

theorem segmentsOf_eq (h : Represents dir segs) : segmentsOf dir = segs := by
  funext j
  cases hj : segs j with
  | none => rw [segmentsOf, h.lookup_none hj, Option.map_none]
  | some data =>
    obtain ⟨entry, hl, hd, -⟩ := h.present j data hj
    rw [segmentsOf, hl, Option.map_some, hd]

theorem loadSegment (h : Represents dir segs) {j : Nat} {data : List UInt8}
    (hj : segs j = some data) (hv : validSegment data = true) :
    loadSegment dir (buildSegmentPath j) = some data := by
  obtain ⟨entry, hl, rfl, hr, hf⟩ := h.present j data hj
  have hne : entry.file.bytes ≠ [] := by
    intro he
    rw [he] at hv
    exact absurd hv (by decide)
  simp [Ume.loadSegment, MmapFile.openReadOnly, hl, hf, hne, hv]

theorem loadSegment_of_invalid (h : Represents dir segs) {j : Nat} {data : List UInt8}
    (hj : segs j = some data) (hv : validSegment data = false) :
    Ume.loadSegment dir (buildSegmentPath j) = none := by
  obtain ⟨entry, hl, rfl, hr, hf⟩ := h.present j data hj
  by_cases hne : entry.file.bytes = []
  · simp [Ume.loadSegment, MmapFile.openReadOnly, hl, hf, hne]
  · simp [Ume.loadSegment, MmapFile.openReadOnly, hl, hf, hne, hv]

theorem umejFiles_eq (h : Represents dir segs) : JournalReader.umejFiles dir = dir.keys := by
  have hf : dir.entries.filter (fun entry => entry.2.isRegularFile &&
      JournalReader.hasUmejExtension entry.1) = dir.entries := by
    apply List.filter_eq_self.mpr
    rintro ⟨path, entry⟩ hm
    have hl : dir.lookup path = some entry := AList.mem_lookup_iff.mpr hm
    obtain ⟨j, rfl, hs⟩ := h.known path (AList.lookup_isSome.mp (by simp [hl]))
    obtain ⟨data, hd⟩ := Option.isSome_iff_exists.mp hs
    obtain ⟨entry', he, _, hr, _⟩ := h.present j data hd
    rw [hl] at he
    cases he
    simp [hr, JournalWriter.hasUmejExtension_buildSegmentPath]
  rw [JournalReader.umejFiles, hf]
  rfl

theorem keys_perm (h : Represents dir segs) {ids : List Nat} (hnodup : ids.Nodup)
    (hids : ∀ j, (segs j).isSome ↔ j ∈ ids) : dir.keys.Perm (ids.map buildSegmentPath) := by
  apply (List.perm_ext_iff_of_nodup dir.keys_nodup
    (hnodup.map buildSegmentPath_injective)).mpr
  intro path
  simp only [List.mem_map]
  constructor
  · intro hp
    obtain ⟨j, rfl, hs⟩ := h.known path (AList.mem_keys.mp hp)
    exact ⟨j, (hids j).mp hs, rfl⟩
  · rintro ⟨j, hj, rfl⟩
    exact AList.mem_keys.mp ((h.mem_iff j).mpr ((hids j).mpr hj))

theorem segmentPathsOf_eq (h : Represents dir segs) {ids : List Nat} (hnodup : ids.Nodup)
    (hids : ∀ j, (segs j).isSome ↔ j ∈ ids) : JournalReader.segmentPathsOf dir =
      (ids.map buildSegmentPath).mergeSort (fun x y => decide (x ≤ y)) := by
  rw [JournalReader.segmentPathsOf, h.umejFiles_eq, mergeSort_eq_of_perm (h.keys_perm hnodup hids)]

end Represents

/-- The ids below `m` in the order of their file names. -/
def pathOrder (m : Nat) : List Nat :=
  (List.range m).mergeSort fun i j => decide (buildSegmentPath i ≤ buildSegmentPath j)

theorem pathOrder_perm (m : Nat) : (pathOrder m).Perm (List.range m) :=
  List.mergeSort_perm _ _

/-- Up to the id 999999 the file names are in the order of the ids. -/
theorem pathOrder_eq_range {m : Nat} (h : m ≤ 1000000) : pathOrder m = List.range m := by
  apply List.mergeSort_of_pairwise
  apply List.pairwise_lt_range.imp_of_mem
  intro i j _ hj hij
  have hj' := List.mem_range.mp hj
  exact decide_eq_true (JournalWriter.buildSegmentPath_lt hij (by omega)).le

theorem Represents.segmentPathsOf {dir : Directory} {segs : Segments} (h : Represents dir segs)
    {m : Nat} (hm : ∀ j, (segs j).isSome ↔ j < m) :
    JournalReader.segmentPathsOf dir = (pathOrder m).map buildSegmentPath := by
  rw [h.segmentPathsOf_eq List.nodup_range (by simpa using hm), pathOrder, List.map_mergeSort]
  exact fun _ _ _ _ => rfl

end Ume
