import Ume.Event.SegmentScan

/-! A journal read from end to end: each segment is scanned by its verdicts,
and the first segment that does not load ends the journal. -/

namespace Ume

/-- Counts of what a scan has met. -/
@[ext] structure Tally where
  segments : Nat := 0
  records : Nat := 0
  bytes : Nat := 0
  corrupted : Nat := 0

namespace Tally

instance : Add Tally where
  add t u := ⟨t.segments + u.segments, t.records + u.records, t.bytes + u.bytes,
    t.corrupted + u.corrupted⟩

theorem add_def (t u : Tally) : t + u = ⟨t.segments + u.segments, t.records + u.records,
    t.bytes + u.bytes, t.corrupted + u.corrupted⟩ := rfl

theorem add_assoc (t u v : Tally) : t + u + v = t + (u + v) := by
  simp only [add_def, Nat.add_assoc]

@[simp] theorem add_empty (t : Tally) : t + {} = t := by simp [add_def]

@[simp] theorem empty_add (t : Tally) : {} + t = t := by simp [add_def]

end Tally

def JournalReaderStats.bump (s : JournalReaderStats) (t : Tally) : JournalReaderStats where
  segmentsRead := s.segmentsRead + UInt64.ofNat t.segments
  recordsRead := s.recordsRead + UInt64.ofNat t.records
  bytesRead := s.bytesRead + UInt64.ofNat t.bytes
  corruptedRecordsSkipped := s.corruptedRecordsSkipped + UInt64.ofNat t.corrupted

theorem JournalReaderStats.bump_bump (s : JournalReaderStats) (t u : Tally) :
    (s.bump t).bump u = s.bump (t + u) := by
  simp only [bump, Tally.add_def, UInt64.ofNat_add, UInt64.add_assoc]

theorem JournalReaderStats.bump_empty (s : JournalReaderStats) : s.bump {} = s := by
  simp [bump]

/-- The scan of one segment from an offset: the deliveries with their offsets,
the counts, and the offset where the end of the segment is found. -/
inductive Scan (data : List UInt8) : Nat → List (Nat × Event) → Tally → Nat → Prop where
  | stop {off : Nat} (h : verdict data off = .endOfSegment) : Scan data off [] {} off
  | skip {off n stop : Nat} {ds : List (Nat × Event)} {t : Tally}
      (h : verdict data off = .skip n) (hs : Scan data (off + n) ds t stop) :
      Scan data off ds ({ corrupted := 1 } + t) stop
  | deliver {off stop : Nat} {ds : List (Nat × Event)} {t : Tally} {e : Event} {size : UInt32}
      (h : verdict data off = .deliver e size) (hs : Scan data (off + size.toNat) ds t stop) :
      Scan data off ((off, e) :: ds) ({ records := 1, bytes := size.toNat } + t) stop

def Delivery.inSegment (segment : Nat) (d : Nat × Event) : Delivery := ⟨segment, d.1, d.2⟩

theorem Scan.stop_verdict {data : List UInt8} {off stop : Nat} {ds : List (Nat × Event)}
    {t : Tally} (h : Scan data off ds t stop) : verdict data stop = .endOfSegment := by
  induction h with
  | stop h => exact h
  | skip _ _ ih => exact ih
  | deliver _ _ ih => exact ih

/-- A scan that starts in range ends not far past the end of the file. -/
theorem Scan.stop_lt {data : List UInt8} {off stop : Nat} {ds : List (Nat × Event)} {t : Tally}
    (h : Scan data off ds t stop) (ho : off < 2 ^ 63 + 2 ^ 33) (hl : data.length < 2 ^ 63) :
    stop < 2 ^ 63 + 2 ^ 33 := by
  induction h with
  | stop => exact ho
  | skip hv _ ih =>
    have hb := verdict_skip hv
    unfold totalRecordSize at hb
    exact ih (by omega)
  | @deliver _ _ _ _ _ size hv _ ih =>
    have hb := verdict_deliver hv
    have hz := size.toNat_lt
    unfold totalRecordSize at hb
    exact ih (by omega)

namespace JournalReader

def scanned (r : JournalReader) (t : Tally) (off : Nat) : JournalReader :=
  { r with currentOffset := off, stats := r.stats.bump t }

theorem skip_eq (r : JournalReader) (n : Nat) (h : r.currentOffset + n < 2 ^ 64) :
    r.skip n = r.scanned { corrupted := 1 } (r.currentOffset + n) := by
  simp only [skip, scanned, u64_of_lt h, JournalReaderStats.bump]
  simp

theorem deliver_eq (r : JournalReader) (size : UInt32)
    (h : r.currentOffset + size.toNat < 2 ^ 64) :
    r.deliver size =
      r.scanned { records := 1, bytes := size.toNat } (r.currentOffset + size.toNat) := by
  have hs : size.toUInt64 = UInt64.ofNat size.toNat := by
    apply UInt64.toNat_inj.mp
    have := size.toNat_lt
    simp
  simp only [deliver, scanned, u64_of_lt h, JournalReaderStats.bump, hs]
  simp

theorem scanned_scanned (r : JournalReader) (t u : Tally) (o o' : Nat) :
    (r.scanned t o).scanned u o' = r.scanned (t + u) o' := by
  simp only [scanned, JournalReaderStats.bump_bump]

theorem readNextStep_of_end (dir : Directory) {r : JournalReader} (hr : r.Bounded)
    (hv : verdict r.data r.currentOffset = .endOfSegment) :
    readNextStep dir r = advanceSegment dir r := by
  rw [readNextStep_eq dir hr, hv]

theorem readNextStep_of_skip (dir : Directory) {r : JournalReader} {n : Nat} (hr : r.Bounded)
    (hv : verdict r.data r.currentOffset = .skip n) :
    readNextStep dir r = .inl (r.scanned { corrupted := 1 } (r.currentOffset + n)) ∧
      (r.scanned { corrupted := 1 } (r.currentOffset + n)).Bounded := by
  have hb := verdict_skip hv
  have hl := hr.1
  have hw : r.currentOffset + n < 2 ^ 63 + 2 ^ 33 := by unfold totalRecordSize at hb; omega
  refine ⟨?_, hl, hw⟩
  rw [readNextStep_eq dir hr, hv]
  exact congrArg Sum.inl (skip_eq r n (by omega))

theorem readNextStep_of_deliver (dir : Directory) {r : JournalReader} {e : Event} {size : UInt32}
    (hr : r.Bounded) (hv : verdict r.data r.currentOffset = .deliver e size) :
    readNextStep dir r = .inr ⟨.kOk, some e,
        r.scanned { records := 1, bytes := size.toNat } (r.currentOffset + size.toNat)⟩ ∧
      (r.scanned { records := 1, bytes := size.toNat } (r.currentOffset + size.toNat)).Bounded := by
  have hb := verdict_deliver hv
  have hl := hr.1
  have hz := size.toNat_lt
  have hw : r.currentOffset + size.toNat < 2 ^ 63 + 2 ^ 33 := by
    unfold totalRecordSize at hb
    omega
  refine ⟨?_, hl, hw⟩
  rw [readNextStep_eq dir hr, hv]
  exact congrArg (fun s => Sum.inr (ReadResult.mk .kOk (some e) s)) (deliver_eq r size (by omega))

end JournalReader

theorem Scan.reads {dir : Directory} {r r' : JournalReader} {off stop : Nat}
    {ds : List (Nat × Event)} {es : List Delivery} {t : Tally}
    (hs : Scan r.data off ds t stop) (ho : r.currentOffset = off) (hr : r.Bounded)
    (h : Reads dir (r.scanned t stop) es r') :
    Reads dir r (ds.map (Delivery.inSegment r.currentSegmentIndex) ++ es) r' := by
  generalize hd : r.data = data at hs
  induction hs generalizing r with
  | stop hv =>
    subst ho
    simpa [JournalReader.scanned, JournalReaderStats.bump_empty] using h
  | skip hv _ ih =>
    subst ho hd
    obtain ⟨hstep, hb⟩ := JournalReader.readNextStep_of_skip dir hr hv
    refine .pass hstep ?_
    exact ih rfl hb (by rwa [JournalReader.scanned_scanned]) rfl
  | deliver hv _ ih =>
    subst ho hd
    obtain ⟨hstep, hb⟩ := JournalReader.readNextStep_of_deliver dir hr hv
    refine .deliver hstep ?_
    exact ih rfl hb (by rwa [JournalReader.scanned_scanned]) rfl

/-- The checks of `load_current_segment` on the mapped bytes. -/
def validSegment (data : List UInt8) : Bool :=
  segmentHeaderSize ≤ data.length && (JournalSegmentHeader.ofBytes data).magic == 0x554D454A &&
    computeCrc32 (data.take 32) == (JournalSegmentHeader.ofBytes data).headerCrc32

/-- The bytes of a file that loads as a segment. -/
def loadSegment (dir : Directory) (path : String) : Option (List UInt8) :=
  match MmapFile.openReadOnly dir path with
  | .ok data => if validSegment data then some data else none
  | .error _ => none

theorem length_lt_of_openReadOnly {dir : Directory} {path : String} {data : List UInt8}
    (h : MmapFile.openReadOnly dir path = .ok data) : data.length < 2 ^ 63 := by
  unfold MmapFile.openReadOnly at h
  split at h
  · cases h
  · rename_i entry _
    split at h
    · cases h
    · cases h
    · cases h
    · split_ifs at h
      cases h
      exact entry.file.length_lt

theorem openReadOnly_error_ne {dir : Directory} {path : String} {status : Status}
    (h : MmapFile.openReadOnly dir path = .error status) : status ≠ .kOk := by
  rintro rfl
  unfold MmapFile.openReadOnly at h
  split at h
  · cases h
  · split at h
    · cases h
    · cases h
    · cases h
    · split_ifs at h
      cases h

theorem length_lt_of_loadSegment {dir : Directory} {path : String} {data : List UInt8}
    (h : loadSegment dir path = some data) : data.length < 2 ^ 63 := by
  unfold loadSegment at h
  split at h
  · rename_i ho
    split_ifs at h
    cases h
    exact length_lt_of_openReadOnly ho
  · cases h

namespace JournalReader

theorem loadCurrentSegment_of_none (dir : Directory) {r : JournalReader}
    (h : r.segmentPaths[r.currentSegmentIndex]? = none) :
    loadCurrentSegment dir r = (.kNotFound, r) := by
  rw [loadCurrentSegment, h]

def loaded (r : JournalReader) (data : List UInt8) : JournalReader :=
  { r with
    currentMmap := some data, currentOffset := segmentHeaderSize
    stats := r.stats.bump { segments := 1 }, isOpen := true }

theorem loaded_bounded {r : JournalReader} {data : List UInt8} (h : data.length < 2 ^ 63) :
    (r.loaded data).Bounded :=
  ⟨h, by simp [loaded, segmentHeaderSize]⟩

theorem loadCurrentSegment_of_some {dir : Directory} {r : JournalReader} {path : String}
    {data : List UInt8} (hp : r.segmentPaths[r.currentSegmentIndex]? = some path)
    (h : loadSegment dir path = some data) :
    loadCurrentSegment dir r = (.kOk, r.loaded data) := by
  unfold loadSegment at h
  split at h
  · rename_i ho
    split_ifs at h with hv
    cases h
    simp only [validSegment, Bool.and_eq_true, decide_eq_true_eq, beq_iff_eq] at hv
    simp [loadCurrentSegment, hp, ho, hv, Nat.not_lt.mpr hv.1.1, loaded, JournalReaderStats.bump]
  · cases h

theorem loadCurrentSegment_of_error {dir : Directory} {r : JournalReader} {path : String}
    {status : Status} (hp : r.segmentPaths[r.currentSegmentIndex]? = some path)
    (h : MmapFile.openReadOnly dir path = .error status) :
    loadCurrentSegment dir r = (status, { r with currentMmap := none }) := by
  simp only [loadCurrentSegment, hp, h]

/-- A file that is no segment stays mapped. -/
theorem loadCurrentSegment_of_invalid {dir : Directory} {r : JournalReader} {path : String}
    {data : List UInt8} (hp : r.segmentPaths[r.currentSegmentIndex]? = some path)
    (h : MmapFile.openReadOnly dir path = .ok data) (hv : validSegment data = false) :
    loadCurrentSegment dir r = (.kJournalCorrupted, { r with currentMmap := some data }) := by
  simp only [validSegment, Bool.and_eq_false_iff, decide_eq_false_iff_not,
    beq_eq_false_iff_ne] at hv
  simp only [loadCurrentSegment, hp, h]
  split_ifs with h1 h2 h3
  · rfl
  · rfl
  · rfl
  · rcases hv with (hv | hv) | hv
    · exact False.elim (hv (by omega))
    · exact False.elim (hv (not_not.mp h2))
    · exact False.elim (hv (not_not.mp h3))

theorem loadCurrentSegment_of_bad {dir : Directory} {r : JournalReader} {path : String}
    (hp : r.segmentPaths[r.currentSegmentIndex]? = some path)
    (h : loadSegment dir path = none) :
    ∃ status m, status ≠ .kOk ∧
      loadCurrentSegment dir r = (status, { r with currentMmap := m }) := by
  cases ho : MmapFile.openReadOnly dir path with
  | error status =>
    exact ⟨status, none, openReadOnly_error_ne ho, loadCurrentSegment_of_error hp ho⟩
  | ok data =>
    simp only [loadSegment, ho, ite_eq_right_iff, reduceCtorEq, imp_false, Bool.not_eq_true] at h
    exact ⟨_, some data, by decide, loadCurrentSegment_of_invalid hp ho h⟩

theorem openDirectory_of_cons {dir : Directory} {path : String} {paths : List String}
    (hp : segmentPathsOf dir = path :: paths) (r : JournalReader) :
    openDirectory dir r = openPaths dir r (path :: paths) := by
  have hne : umejFiles dir ≠ [] := by
    intro h0
    rw [segmentPathsOf, h0, List.mergeSort_nil] at hp
    cases hp
  rw [openDirectory, if_neg hne, hp]

end JournalReader

/-- The journal from a list of paths on, whose first has the given index. -/
inductive ScanJournal (dir : Directory) : Nat → List String → List Delivery → Tally → Prop where
  | nil {i : Nat} : ScanJournal dir i [] [] {}
  | bad {i : Nat} {path : String} {paths : List String} (h : loadSegment dir path = none) :
      ScanJournal dir i (path :: paths) [] {}
  | good {i stop : Nat} {path : String} {paths : List String} {data : List UInt8}
      {ds : List (Nat × Event)} {es : List Delivery} {t u : Tally}
      (h : loadSegment dir path = some data) (hs : Scan data segmentHeaderSize ds t stop)
      (hr : ScanJournal dir (i + 1) paths es u) :
      ScanJournal dir i (path :: paths) (ds.map (Delivery.inSegment i) ++ es)
        ({ segments := 1 } + t + u)

theorem JournalReader.nextSegment_path {r : JournalReader} {i : Nat} {paths : List String}
    (hi : r.currentSegmentIndex + 1 = i) (hp : r.segmentPaths.drop i = paths) :
    r.nextSegment.segmentPaths[r.nextSegment.currentSegmentIndex]? = paths.head? := by
  rw [← hp, List.head?_drop, ← hi]
  rfl

theorem ScanJournal.reads_rest {dir : Directory} {i : Nat} {paths : List String}
    {es : List Delivery} {u : Tally} (hj : ScanJournal dir i paths es u) {r : JournalReader}
    (hi : r.currentSegmentIndex + 1 = i) (hp : r.segmentPaths.drop i = paths)
    (hr : r.Bounded) (hv : verdict r.data r.currentOffset = .endOfSegment) :
    ∃ r', Reads dir r es r' ∧ r'.stats = r.stats.bump u := by
  induction hj generalizing r with
  | nil =>
    have hstep := JournalReader.readNextStep_of_end dir hr hv
    have hl := JournalReader.loadCurrentSegment_of_none dir
      (JournalReader.nextSegment_path hi hp)
    refine ⟨r.nextSegment, .stop (hstep.trans ?_), ?_⟩
    · rw [JournalReader.advanceSegment, hl]
    · rw [JournalReaderStats.bump_empty]
      rfl
  | bad h =>
    have hstep := JournalReader.readNextStep_of_end dir hr hv
    obtain ⟨status, m, hne, hl⟩ :=
      JournalReader.loadCurrentSegment_of_bad (JournalReader.nextSegment_path hi hp) h
    rcases JournalReader.advanceSegment_cases dir r with ⟨hk, _⟩ | ⟨_, ha⟩
    · rw [hl] at hk
      exact False.elim (hne hk)
    · refine ⟨_, .stop (hstep.trans ha), ?_⟩
      rw [hl, JournalReaderStats.bump_empty]
      rfl
  | @good i stop path paths data ds es t u h hs _ ih =>
    have hstep := JournalReader.readNextStep_of_end dir hr hv
    have hl := JournalReader.loadCurrentSegment_of_some (JournalReader.nextSegment_path hi hp) h
    have hb : (r.nextSegment.loaded data).Bounded :=
      JournalReader.loaded_bounded (length_lt_of_loadSegment h)
    have ha : JournalReader.advanceSegment dir r = .inl (r.nextSegment.loaded data) := by
      rw [JournalReader.advanceSegment, hl]
    have hd : r.segmentPaths.drop (i + 1) = paths := by
      rw [← List.drop_drop, hp]
      rfl
    have hb₁ : ((r.nextSegment.loaded data).scanned t stop).Bounded :=
      ⟨hb.1, hs.stop_lt (by simp [segmentHeaderSize]) hb.1⟩
    obtain ⟨r', hrest, hstats⟩ := ih (r := (r.nextSegment.loaded data).scanned t stop)
      (congrArg (· + 1) hi) hd hb₁ hs.stop_verdict
    have hreads := Scan.reads (r := r.nextSegment.loaded data) hs rfl hb hrest
    refine ⟨r', .pass (hstep.trans ha) ?_, ?_⟩
    · rw [← hi]
      exact hreads
    · rw [hstats]
      simp only [JournalReader.scanned, JournalReader.loaded, JournalReaderStats.bump_bump]
      rfl

theorem ScanJournal.reads_opened {dir : Directory} {path : String} {paths : List String}
    {es : List Delivery} {u : Tally} (hj : ScanJournal dir 0 (path :: paths) es u)
    (hl : (loadSegment dir path).isSome) (r : JournalReader) :
    ∃ r₁ r', JournalReader.openPaths dir r (path :: paths) = (.kOk, r₁) ∧ r₁.isOpen = true ∧
      Reads dir r₁ es r' ∧ r'.stats = r.stats.bump u := by
  cases hj with
  | bad h => simp [h] at hl
  | @good _ stop _ _ data ds es t u h hs hrest =>
    let r₀ : JournalReader := { r.close with segmentPaths := path :: paths }
    have hb : (r₀.loaded data).Bounded :=
      JournalReader.loaded_bounded (length_lt_of_loadSegment h)
    have hb₁ : ((r₀.loaded data).scanned t stop).Bounded :=
      ⟨hb.1, hs.stop_lt (by simp [segmentHeaderSize]) hb.1⟩
    obtain ⟨r', hr', hstats⟩ := hrest.reads_rest (r := (r₀.loaded data).scanned t stop)
      rfl rfl hb₁ hs.stop_verdict
    refine ⟨r₀.loaded data, r', JournalReader.loadCurrentSegment_of_some rfl h, rfl,
      Scan.reads hs rfl hb hr', ?_⟩
    rw [hstats]
    simp only [JournalReader.scanned, JournalReader.loaded, JournalReaderStats.bump_bump]
    rfl

/-- The statistics that a replay reports for the counts of its scan. -/
def ReplayStats.ofTally (t : Tally) (events : Nat) : ReplayStats where
  segmentsReplayed := UInt64.ofNat t.segments
  eventsReplayed := UInt64.ofNat events
  corruptedRecordsSkipped := UInt64.ofNat t.corrupted
  bytesRead := UInt64.ofNat t.bytes

namespace ReplayEngine

variable {δ : Type*} (dispatch : δ → Event → δ) {dir : Directory} {path : String}
  {paths : List String}

theorem replayOpened_of_scan {es : List Delivery} {u : Tally}
    (hj : ScanJournal dir 0 (path :: paths) es u) (hl : (loadSegment dir path).isSome) (d : δ) :
    ∃ fuel, ∀ more ≥ fuel,
      replayOpened dispatch dir more (JournalReader.openPaths dir {} (path :: paths)) d =
        some (.ok (ReplayStats.ofTally u es.length),
          (es.map fun x => x.event.replayed).foldl dispatch d) := by
  obtain ⟨r₁, r', hopen, ho, hreads, hstats⟩ := hj.reads_opened hl {}
  obtain ⟨fuel, hf⟩ := replayLoop_of_reads dispatch hreads ho d 0
  refine ⟨fuel, fun more hm => ?_⟩
  rw [hopen]
  simp [replayOpened, replayLoop_mono hf hm, hstats, JournalReaderStats.bump,
    ReplayStats.ofTally]

theorem replayOpened_of_bad (hl : loadSegment dir path = none) (paths : List String) (fuel : Nat)
    (d : δ) :
    ∃ status, status ≠ .kOk ∧
      replayOpened dispatch dir fuel (JournalReader.openPaths dir {} (path :: paths)) d =
        some (.error status, d) := by
  obtain ⟨status, m, hne, hload⟩ := JournalReader.loadCurrentSegment_of_bad
    (r := { JournalReader.close {} with segmentPaths := path :: paths }) rfl hl
  refine ⟨status, hne, ?_⟩
  rw [JournalReader.openPaths, hload, replayOpened]
  exact hne

theorem replayDirectory_of_cons (hp : JournalReader.segmentPathsOf dir = path :: paths)
    (fuel : Nat) (d : δ) :
    replayDirectory dispatch dir fuel d =
      replayOpened dispatch dir fuel (JournalReader.openPaths dir {} (path :: paths)) d := by
  rw [replayDirectory, JournalReader.openDirectory_of_cons hp]

theorem replayDirectory_of_nil (hp : JournalReader.segmentPathsOf dir = []) (fuel : Nat) (d : δ) :
    replayDirectory dispatch dir fuel d = some (.error .kFileNotFound, d) := by
  have h0 : JournalReader.umejFiles dir = [] := by
    have hperm := List.mergeSort_perm (JournalReader.umejFiles dir) fun a b => decide (a ≤ b)
    rw [← JournalReader.segmentPathsOf, hp] at hperm
    exact hperm.nil_eq.symm
  rw [replayDirectory, JournalReader.openDirectory, if_pos h0]
  rfl

end ReplayEngine

end Ume
