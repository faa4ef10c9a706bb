import Ume.Event.AppendVisible

/-! The appends of one thread when segments fail to open. A failed roll leaves the writer
open with nothing mapped and its offset behind the segment, so that every later append
tries to open the next segment. It changes no slot, but where the file of that segment was
longer than a segment and only its mapping fails, it has been cut. -/

namespace Ume

open ByteString JournalWriter

section Roll

variable {env : SessionEnv} {w : JournalWriter} {dir : Directory} {size : Nat}

/-- Setting the length of a file to the segment size changes none of its slots. -/
theorem slotBytes_insert_takeD {j : Nat} {entry : DirEntry}
    (h : entry.file.bytes.takeD size 0 = ((segmentsOf dir j).getD []).takeD size 0) (i k : Nat) :
    slotBytes (dir.insert (buildSegmentPath j) entry) size i k = slotBytes dir size i k := by
  by_cases hij : i = j
  · subst hij
    rw [slotBytes, slotBytes, segmentsOf_insert, Function.update_self, Option.getD_some, h]
  · exact slotBytes_insert_of_ne hij k

theorem bytes_lookup_getD (dir : Directory) (j : Nat) :
    ((dir.lookup (buildSegmentPath j)).getD { file := FileImage.empty }).file.bytes =
      (segmentsOf dir j).getD [] := by
  rw [segmentsOf]
  cases dir.lookup (buildSegmentPath j) <;> rfl

theorem slotBytes_openReadWrite (fault : Option OpenFault) (dir : Directory) (size j i k : Nat) :
    slotBytes (MmapFile.openReadWrite fault dir (buildSegmentPath j) size).2 size i k =
      slotBytes dir size i k := by
  have hresize (hmax : size < 2 ^ 63) (f : FileImage) :
      (f.resize size hmax).bytes.takeD size 0 = f.bytes.takeD size 0 := by
    have hlen : (f.resize size hmax).bytes.length = size := List.takeD_length ..
    rw [List.takeD_eq_take _ hlen.ge, List.take_of_length_le hlen.le]
    rfl
  unfold MmapFile.openReadWrite
  dsimp only
  split_ifs with hopen hsize hmap
  · rfl
  · exact slotBytes_insert_takeD (by rw [hresize, bytes_lookup_getD]) i k
  · exact slotBytes_insert_takeD (by rw [hresize, bytes_lookup_getD]) i k
  · exact slotBytes_insert_takeD (by rw [bytes_lookup_getD]) i k

/-- The file of a segment that could not be opened: untouched if `open` failed, at least
created if `ftruncate` failed, and of the size of a segment if only `mmap` did. -/
def leftBy (fault : Option OpenFault) (size : Nat) (old : Option (List UInt8)) :
    Option (List UInt8) :=
  match fault with
  | some .open => old
  | some .size => some (old.getD [])
  | some .mmap | none => some ((old.getD []).takeD size 0)

/-- No other file changes. -/
structure LeftBy (fault : Option OpenFault) (size j : Nat) (old dir : Directory) : Prop where
  next : segmentsOf dir j = leftBy fault size (segmentsOf old j)
  others : ∀ path, path ≠ buildSegmentPath j → dir.lookup path = old.lookup path

theorem LeftBy.of_insert {fault : Option OpenFault} {j : Nat} {entry : DirEntry}
    (h : some entry.file.bytes = leftBy fault size (segmentsOf dir j)) :
    LeftBy fault size j dir (dir.insert (buildSegmentPath j) entry) where
  next := by rw [segmentsOf_insert, Function.update_self, h]
  others _ hne := AList.lookup_insert_ne hne

theorem leftBy_of_sized {fault : Option OpenFault} (hopen : fault ≠ some .open)
    (hsize : fault ≠ some .size) (old : Option (List UInt8)) :
    leftBy fault size old = some ((old.getD []).takeD size 0) := by
  rcases fault with _ | _ | _ | _
  · rfl
  · exact absurd rfl hopen
  · exact absurd rfl hsize
  · rfl

theorem leftBy_openReadWrite (fault : Option OpenFault) (dir : Directory) (hmax : size < 2 ^ 63)
    (j : Nat) :
    LeftBy fault size j dir (MmapFile.openReadWrite fault dir (buildSegmentPath j) size).2 := by
  unfold MmapFile.openReadWrite
  dsimp only
  split_ifs with hopen hsize hmap
  · exact ⟨by rw [hopen, leftBy], fun _ _ => rfl⟩
  · exact .of_insert (by rw [leftBy_of_sized hopen hsize.1, ← bytes_lookup_getD]; rfl)
  · exact .of_insert (by rw [leftBy_of_sized hopen hsize.1, ← bytes_lookup_getD]; rfl)
  · have hfault : fault = some .size := by
      by_contra hne
      exact hsize ⟨hne, hmax⟩
    exact .of_insert (by rw [hfault, leftBy, bytes_lookup_getD])

theorem rollSegmentLocked_of_fault (h : env.openFault w.currentSegmentId ≠ none)
    (hmax : w.segmentSizeBytes < 2 ^ 63) (dir : Directory) :
    ∃ status dir', status ≠ .kOk ∧
      rollSegmentLocked env w dir = some (status, { w with currentMmap := none }, dir') ∧
      (∀ i k, slotBytes dir' w.segmentSizeBytes i k = slotBytes dir w.segmentSizeBytes i k) ∧
      LeftBy (env.openFault w.currentSegmentId) w.segmentSizeBytes w.currentSegmentId dir dir' := by
  have hslots := slotBytes_openReadWrite (env.openFault w.currentSegmentId) dir w.segmentSizeBytes
    w.currentSegmentId
  have hleft := leftBy_openReadWrite (env.openFault w.currentSegmentId) dir hmax w.currentSegmentId
  have hst : (MmapFile.openReadWrite (env.openFault w.currentSegmentId) dir
      (buildSegmentPath w.currentSegmentId) w.segmentSizeBytes).1 ≠ .kOk :=
    fun hok => h (MmapFile.openReadWrite_eq_ok hok).1
  rcases ho : MmapFile.openReadWrite (env.openFault w.currentSegmentId) dir
      (buildSegmentPath w.currentSegmentId) w.segmentSizeBytes with ⟨status, dir'⟩
  rw [ho] at hslots hst hleft
  refine ⟨status, dir', hst, ?_, hslots, hleft⟩
  simp only [rollSegmentLocked, ho]

theorem append_of_fails {w' : JournalWriter} {dir' : Directory} {status : Status}
    (ho : w.isOpen = true) (hx : w.reserve.exceeds w.writeOffset = true)
    (hx' : w.reserve.exceeds w.reserve.writeOffset = true)
    (hroll : rollSegmentLocked env
      { w.reserve with currentSegmentId := w.reserve.currentSegmentId + 1 } dir =
        some (status, w', dir')) (hst : status ≠ .kOk) (e : Event) :
    append env w dir e = some (.error status, w', dir') := by
  simp only [append, ho, hx, hx', hroll]
  cases status <;> first | exact absurd rfl hst | rfl

end Roll

/-- A writer that one thread calls, with the places of the records it has written. -/
structure SerialAppends where
  writer : JournalWriter
  dir : Directory
  places : List (Nat × Nat) := []

namespace SerialAppends

/-- One call of `append`; there is no next state when it copies outside of a mapping. -/
def step (env : SessionEnv) (s : SerialAppends) (e : Event) : Option SerialAppends :=
  match append env s.writer s.dir e with
  | none => none
  | some (.ok _, w, dir) =>
    some ⟨w, dir, s.places ++ [(w.currentSegmentId, w.writeOffset - totalRecordSize)]⟩
  | some (.error _, w, dir) => some { s with writer := w, dir := dir }

/-- The two reservations of an append do not wrap, and neither does the segment number. -/
def Unwrapped (s : SerialAppends) (_ : Event) : Prop :=
  s.writer.writeOffset + 2 * totalRecordSize < 2 ^ 64 ∧ s.writer.currentSegmentId + 1 < 2 ^ 64

/-- What a failing append leaves alone: the slots of all segments, and all of every file but
that of the segment it could not open. -/
structure Rejected (env : SessionEnv) (size : Nat) (s : SerialAppends) (w : JournalWriter)
    (dir : Directory) : Prop where
  segment : w.currentSegmentId = s.writer.currentSegmentId + 1
  slots : ∀ j k, slotBytes dir size j k = slotBytes s.dir size j k
  files : LeftBy (env.openFault w.currentSegmentId) size w.currentSegmentId s.dir dir
  sequenceCounter : w.sequenceCounter = s.writer.sequenceCounter
  totalEventsWritten : w.totalEventsWritten = s.writer.totalEventsWritten
  totalBytesWritten : w.totalBytesWritten = s.writer.totalBytesWritten

/-- What a successful append does: its record is in a free slot of the mapped segment, and
in no other slot has anything changed. -/
structure Recorded (first : UInt64) (size : Nat) (s : SerialAppends) (seq : UInt64) (e : Event)
    (w : JournalWriter) (dir : Directory) : Prop where
  number : seq = first + UInt64.ofNat s.places.length
  sequenceCounter : w.sequenceCounter = seq
  totalEventsWritten : w.totalEventsWritten = s.writer.totalEventsWritten + 1
  totalBytesWritten :
    w.totalBytesWritten = s.writer.totalBytesWritten + UInt64.ofNat totalRecordSize
  mapped : w.currentMmap = some (buildSegmentPath w.currentSegmentId)
  slot : ∃ i, w.writeOffset - totalRecordSize = slotOffset i ∧
    slotOffset i + totalRecordSize ≤ size ∧ (w.currentSegmentId, slotOffset i) ∉ s.places ∧
    ∀ j k, slotBytes dir size j k =
      if (j, slotOffset k) = (w.currentSegmentId, slotOffset i) then recordBytes seq e
      else slotBytes s.dir size j k

/-- A roll before the record changes no slot and no counter. -/
theorem Recorded.of_rolled {first : UInt64} {size : Nat} {s : SerialAppends}
    {rolled w : JournalWriter} {dir₁ dir : Directory} {seq : UInt64} {e : Event}
    (h : Recorded first size ⟨rolled, dir₁, s.places⟩ seq e w dir)
    (hevents : rolled.totalEventsWritten = s.writer.totalEventsWritten)
    (hbytes : rolled.totalBytesWritten = s.writer.totalBytesWritten)
    (hslots : ∀ j k, slotBytes dir₁ size j k = slotBytes s.dir size j k) :
    Recorded first size s seq e w dir := by
  obtain ⟨i, hoff, hfit, hfresh, hall⟩ := h.slot
  exact
    { number := h.number
      sequenceCounter := h.sequenceCounter
      totalEventsWritten := h.totalEventsWritten.trans (congrArg (· + 1) hevents)
      totalBytesWritten :=
        h.totalBytesWritten.trans (congrArg (· + UInt64.ofNat totalRecordSize) hbytes)
      mapped := h.mapped
      slot := ⟨i, hoff, hfit, hfresh, fun j k => by rw [hall, hslots]⟩ }

def Sound (env : SessionEnv) (first : UInt64) (size : Nat) (s : SerialAppends) (e : Event) : Prop :=
  match append env s.writer s.dir e with
  | none => False
  | some (.ok seq, w, dir) => Recorded first size s seq e w dir
  | some (.error _, w, dir) => Rejected env size s w dir

structure Inv (w₀ : JournalWriter) (size : Nat) (s : SerialAppends) : Prop where
  isOpen : s.writer.isOpen = true
  size_eq : s.writer.segmentSizeBytes = size
  aligned : ∃ k, s.writer.writeOffset = slotOffset k
  mapping : s.writer.currentMmap = none ∧ size < s.writer.writeOffset + totalRecordSize ∨
    s.writer.currentMmap = some (buildSegmentPath s.writer.currentSegmentId) ∧
      s.writer.writeOffset ≤ size ∧
      ∃ entry, s.dir.lookup (buildSegmentPath s.writer.currentSegmentId) = some entry ∧
        entry.file.bytes.length = size
  below : ∀ p ∈ s.places, p.1 ≤ s.writer.currentSegmentId ∧
    (p.1 = s.writer.currentSegmentId → p.2 < s.writer.writeOffset)
  sequenceCounter :
    s.writer.sequenceCounter = w₀.sequenceCounter + UInt64.ofNat s.places.length
  totalEventsWritten :
    s.writer.totalEventsWritten = w₀.totalEventsWritten + UInt64.ofNat s.places.length
  totalBytesWritten : s.writer.totalBytesWritten =
    w₀.totalBytesWritten + UInt64.ofNat totalRecordSize * UInt64.ofNat s.places.length

namespace Inv

variable {env : SessionEnv} {w₀ : JournalWriter} {size : Nat} {s : SerialAppends}

theorem opened {w : JournalWriter} {dir₀ dir : Directory}
    (hstart : JournalWriter.open env w₀ dir₀ size = some (.kOk, w, dir)) :
    1024 * 1024 ≤ size ∧ size < 2 ^ 63 ∧ Inv w₀ size ⟨w, dir, []⟩ := by
  obtain ⟨hopen, hstart'⟩ := ConcurrentAppend.open_faultless hstart
  obtain ⟨hmin, file, hfile, rfl, rfl⟩ := open_eq_ok hopen hstart'
  refine ⟨hmin, (opensAll_iff.mp hopen).2.2, ?_⟩
  exact
    { isOpen := rfl
      size_eq := rfl
      aligned := ⟨0, rfl⟩
      mapping := .inr ⟨rfl, by dsimp only [segmentHeaderSize]; omega, _,
        AList.lookup_insert dir₀, by
          rw [hfile]
          exact length_writtenSegment_nil hmin _⟩
      below := by simp
      sequenceCounter := by simp
      totalEventsWritten := by simp
      totalBytesWritten := by simp }

theorem recorded (h : Inv w₀ size s) {k : Nat} (hk : s.writer.writeOffset = slotOffset k)
    (hnext : s.writer.reserve.writeOffset = slotOffset (k + 1)) (hroom : slotOffset (k + 1) ≤ size)
    (hmap : s.writer.currentMmap = some (buildSegmentPath s.writer.currentSegmentId))
    {dir : Directory} {entry : DirEntry}
    (hl : dir.lookup (buildSegmentPath s.writer.currentSegmentId) = some entry)
    (hlen : entry.file.bytes.length = size) :
    Inv w₀ size ⟨s.writer.reserve.counted, dir,
      s.places ++ [(s.writer.currentSegmentId, slotOffset k)]⟩ := by
  have hlength : UInt64.ofNat (s.places ++ [(s.writer.currentSegmentId, slotOffset k)]).length =
      UInt64.ofNat s.places.length + 1 := by
    rw [List.length_append]
    exact UInt64.ofNat_add ..
  constructor
  case isOpen => simpa using h.isOpen
  case size_eq => simpa using h.size_eq
  case aligned => exact ⟨k + 1, by simpa using hnext⟩
  case mapping =>
    have hid : s.writer.reserve.counted.currentSegmentId = s.writer.currentSegmentId := by simp
    refine .inr ⟨by simpa using hmap, by simpa [hnext] using hroom, entry, ?_, hlen⟩
    dsimp only
    rw [hid]
    exact hl
  case below =>
    simp only [writeOffset_counted, currentSegmentId_counted, currentSegmentId_reserve, hnext]
    have hlt : slotOffset k < slotOffset (k + 1) :=
      ConcurrentAppend.slotOffset_lt_iff.mpr (Nat.lt_succ_self k)
    intro p hp
    rcases List.mem_append.mp hp with hp | hp
    · exact ⟨(h.below p hp).1, fun hid => (hk ▸ (h.below p hp).2 hid).trans hlt⟩
    · obtain rfl := List.mem_singleton.mp hp
      exact ⟨Nat.le_refl _, fun _ => hlt⟩
  case sequenceCounter =>
    rw [hlength, sequenceCounter_counted, sequenceCounter_reserve, h.sequenceCounter,
      UInt64.add_assoc]
  case totalEventsWritten =>
    rw [hlength, totalEventsWritten_counted, totalEventsWritten_reserve, h.totalEventsWritten,
      UInt64.add_assoc]
  case totalBytesWritten =>
    rw [hlength, totalBytesWritten_counted, totalBytesWritten_reserve, h.totalBytesWritten,
      UInt64.mul_add, UInt64.mul_one, UInt64.add_assoc]

theorem write (h : Inv w₀ size s) (hmax : size < 2 ^ 63) (hm : s.writer.currentMmap ≠ none)
    (hroom : s.writer.writeOffset + totalRecordSize ≤ size) (e : Event) :
    ∃ dir', writeRecord s.writer.reserve s.dir e s.writer.writeOffset =
        some (.ok (s.writer.sequenceCounter + 1), s.writer.reserve.counted, dir') ∧
      Recorded (w₀.sequenceCounter + 1) size s (s.writer.sequenceCounter + 1) e
        s.writer.reserve.counted dir' ∧
      Inv w₀ size ⟨s.writer.reserve.counted, dir', s.places ++
        [(s.writer.reserve.counted.currentSegmentId,
          s.writer.reserve.counted.writeOffset - totalRecordSize)]⟩ := by
  obtain ⟨k, hk⟩ := h.aligned
  obtain ⟨hmap, -, entry, hl, hlen⟩ := h.mapping.resolve_left fun hnone => hm hnone.1
  obtain ⟨file, hfile, hcopy⟩ := copyRecord_insert (w := s.writer.reserve)
    (s.writer.currentMmap_reserve.trans hmap) hl (hroom.trans_eq hlen.symm)
    (s.writer.sequenceCounter + 1) e
  rw [hk] at hfile hroom
  have hnext : s.writer.reserve.writeOffset = slotOffset (k + 1) := by
    rw [writeOffset_reserve (by rw [hk]; omega), hk, slotOffset_succ]
  have hplace : s.writer.reserve.counted.writeOffset - totalRecordSize = slotOffset k := by
    rw [writeOffset_counted, hnext, slotOffset_succ, Nat.add_sub_cancel]
  have hid : s.writer.reserve.counted.currentSegmentId = s.writer.currentSegmentId := by simp
  have hfresh : (s.writer.currentSegmentId, slotOffset k) ∉ s.places := by
    intro hp
    have hlt := (h.below _ hp).2 rfl
    rw [hk] at hlt
    exact Nat.lt_irrefl _ hlt
  have hfile' : file.bytes.length = size := by
    rw [hfile, length_splice (by rw [length_recordBytes, hlen]; exact hroom), hlen]
  refine ⟨_, by rw [writeRecord, sequenceCounter_reserve, hcopy]; rfl, ?_, ?_⟩
  · constructor
    case number =>
      rw [h.sequenceCounter, UInt64.add_assoc, UInt64.add_comm (UInt64.ofNat _) 1,
        UInt64.add_assoc]
    case sequenceCounter => simp
    case totalEventsWritten => simp
    case totalBytesWritten => simp
    case mapped => simpa using hmap
    case slot =>
      rw [hplace, hid]
      exact ⟨k, rfl, hroom, hfresh, slotBytes_insert_copied hl hlen hroom hfile⟩
  · rw [hplace, hid]
    exact h.recorded hk hnext hroom hmap (AList.lookup_insert s.dir) hfile'

theorem advanced (h : Inv w₀ size s) {off : Nat} {mmap : Option String} {dir : Directory}
    (haligned : ∃ k, off = slotOffset k)
    (hmapping : mmap = none ∧ size < off + totalRecordSize ∨
      mmap = some (buildSegmentPath (s.writer.currentSegmentId + 1)) ∧ off ≤ size ∧
        ∃ entry, dir.lookup (buildSegmentPath (s.writer.currentSegmentId + 1)) = some entry ∧
          entry.file.bytes.length = size) :
    Inv w₀ size
      ⟨{ s.writer with
          currentSegmentId := s.writer.currentSegmentId + 1
          currentMmap := mmap
          writeOffset := off }, dir, s.places⟩ where
  isOpen := h.isOpen
  size_eq := h.size_eq
  aligned := haligned
  mapping := hmapping
  below p hp :=
    have hle := (h.below p hp).1
    ⟨Nat.le_succ_of_le hle, fun hid => absurd hid (Nat.ne_of_lt (Nat.lt_succ_of_le hle))⟩
  sequenceCounter := h.sequenceCounter
  totalEventsWritten := h.totalEventsWritten
  totalBytesWritten := h.totalBytesWritten

/-- A roll that succeeds maps the next segment, whose slots are as they were. -/
theorem roll (h : Inv w₀ size s) (hmin : 1024 * 1024 ≤ size) (hmax : size < 2 ^ 63)
    (hfault : env.openFault (s.writer.currentSegmentId + 1) = none) :
    ∃ rolled dir', rollSegmentLocked env
        { s.writer.reserve with
          currentSegmentId := s.writer.reserve.currentSegmentId + 1 } s.dir =
          some (.kOk, rolled, dir') ∧
      rolled.currentMmap ≠ none ∧ rolled.writeOffset + totalRecordSize ≤ size ∧
      rolled.currentSegmentId = s.writer.currentSegmentId + 1 ∧
      (∀ j k, slotBytes dir' size j k = slotBytes s.dir size j k) ∧
      Inv w₀ size ⟨rolled, dir', s.places⟩ := by
  have hopen : OpensAll (ConcurrentAppend.faultless env) size :=
    opensAll_iff.mpr ⟨fun _ => rfl, by omega, hmax⟩
  have hfirst : segmentHeaderSize + totalRecordSize ≤ size :=
    (show segmentHeaderSize + totalRecordSize ≤ 1024 * 1024 by decide).trans hmin
  rw [next_reserve]
  obtain ⟨file, hfile, hroll⟩ := rollSegmentLocked_insert
    (w := { s.writer with
      currentSegmentId := s.writer.currentSegmentId + 1
      writeOffset := s.writer.reserve.writeOffset }) hopen hmin h.size_eq s.dir
  rw [ConcurrentAppend.rollSegmentLocked_faultless hfault] at hroll
  refine ⟨_, _, hroll, Option.some_ne_none _, hfirst, rfl, slotBytes_insert_opened hmin hfile, ?_⟩
  exact h.advanced ⟨0, rfl⟩ (.inr ⟨rfl, (Nat.le_add_right ..).trans hfirst, _,
    AList.lookup_insert s.dir, by rw [hfile]; exact length_writtenSegment_nil hmin _⟩)

/-- A roll that fails leaves nothing mapped and the offset behind the segment. -/
theorem failedRoll (h : Inv w₀ size s) (hmax : size < 2 ^ 63)
    (hfull : size < s.writer.writeOffset + totalRecordSize)
    (hlt : s.writer.writeOffset + totalRecordSize < 2 ^ 64)
    (hfault : env.openFault (s.writer.currentSegmentId + 1) ≠ none) :
    ∃ status w dir', status ≠ .kOk ∧ rollSegmentLocked env
        { s.writer.reserve with
          currentSegmentId := s.writer.reserve.currentSegmentId + 1 } s.dir =
          some (status, w, dir') ∧
      w.writeOffset = s.writer.writeOffset + totalRecordSize ∧
      w.currentSegmentId = s.writer.currentSegmentId + 1 ∧ Rejected env size s w dir' ∧
      Inv w₀ size ⟨w, dir', s.places⟩ := by
  obtain ⟨k, hk⟩ := h.aligned
  rw [next_reserve, writeOffset_reserve hlt]
  obtain ⟨status, dir', hst, hroll, hslots, hleft⟩ := rollSegmentLocked_of_fault
    (w := { s.writer with
      currentSegmentId := s.writer.currentSegmentId + 1
      writeOffset := s.writer.writeOffset + totalRecordSize }) hfault
    (h.size_eq.trans_lt hmax) s.dir
  rw [h.size_eq] at hslots hleft
  refine ⟨status, _, dir', hst, hroll, rfl, rfl, ⟨rfl, hslots, hleft, rfl, rfl, rfl⟩, ?_⟩
  exact h.advanced ⟨k + 1, by rw [hk]; rfl⟩ (.inl ⟨rfl, Nat.lt_add_right _ hfull⟩)

theorem append_cases (h : Inv w₀ size s) (hmin : 1024 * 1024 ≤ size) (hmax : size < 2 ^ 63)
    (hlt : s.writer.writeOffset + 2 * totalRecordSize < 2 ^ 64) (e : Event) :
    (∃ seq w dir', append env s.writer s.dir e = some (.ok seq, w, dir') ∧
      (env.openFault (s.writer.currentSegmentId + 1) = none ∨
        w.writeOffset = s.writer.writeOffset + totalRecordSize) ∧
      w.currentSegmentId ≤ s.writer.currentSegmentId + 1 ∧
      Recorded (w₀.sequenceCounter + 1) size s seq e w dir' ∧
      Inv w₀ size ⟨w, dir', s.places ++
        [(w.currentSegmentId, w.writeOffset - totalRecordSize)]⟩) ∨
    ∃ status w dir', append env s.writer s.dir e = some (.error status, w, dir') ∧
      w.writeOffset = s.writer.writeOffset + totalRecordSize ∧
      w.currentSegmentId = s.writer.currentSegmentId + 1 ∧ Rejected env size s w dir' ∧
      Inv w₀ size ⟨w, dir', s.places⟩ := by
  have hsize : s.writer.reserve.segmentSizeBytes = size := h.size_eq
  have hlt₁ : s.writer.writeOffset + totalRecordSize < 2 ^ 64 := by omega
  have hnext := writeOffset_reserve hlt₁
  by_cases hfit : s.writer.writeOffset + totalRecordSize ≤ size
  · have hx : s.writer.reserve.exceeds s.writer.writeOffset = false := by
      rw [exceeds_eq_false_iff hlt₁, hsize]
      exact hfit
    have hm : s.writer.currentMmap ≠ none := by
      intro hnone
      rcases h.mapping with ⟨-, hfull⟩ | ⟨hmap, -⟩
      · omega
      · rw [hnone] at hmap
        cases hmap
    obtain ⟨dir', hwrite, hrec, hinv⟩ := h.write hmax hm hfit e
    exact .inl ⟨_, _, dir', (append_of_fits h.isOpen hx e).trans hwrite, .inr hnext,
      Nat.le_succ _, hrec, hinv⟩
  · have hx : s.writer.reserve.exceeds s.writer.writeOffset = true := by
      rw [exceeds_iff hlt₁, hsize]
      omega
    have hx' : s.writer.reserve.exceeds s.writer.reserve.writeOffset = true := by
      rw [hnext, exceeds_iff (by omega), hsize]
      omega
    by_cases hfault : env.openFault (s.writer.currentSegmentId + 1) = none
    · obtain ⟨rolled, dir₁, hroll, hm, hfit', hid, hslots, hinv₁⟩ := h.roll hmin hmax hfault
      obtain ⟨dir', hwrite, hrec, hinv⟩ := hinv₁.write hmax hm hfit' e
      refine .inl ⟨_, _, dir', (append_of_rolls h.isOpen hx hx' hroll e).trans hwrite,
        .inl hfault, hid.le, ?_, hinv⟩
      exact hrec.of_rolled (hinv₁.totalEventsWritten.trans h.totalEventsWritten.symm)
        (hinv₁.totalBytesWritten.trans h.totalBytesWritten.symm) hslots
    · obtain ⟨status, w, dir', hst, hroll, hoff, hid, hrej, hinv⟩ :=
        h.failedRoll hmax (Nat.lt_of_not_le hfit) hlt₁ hfault
      exact .inr ⟨status, w, dir', append_of_fails h.isOpen hx hx' hroll hst e, hoff, hid, hrej,
        hinv⟩

theorem step (env : SessionEnv) (h : Inv w₀ size s) (hmin : 1024 * 1024 ≤ size)
    (hmax : size < 2 ^ 63) (hlt : s.writer.writeOffset + 2 * totalRecordSize < 2 ^ 64) (e : Event) :
    Sound env (w₀.sequenceCounter + 1) size s e ∧ ∃ s', SerialAppends.step env s e = some s' ∧
      Inv w₀ size s' ∧ s'.writer.currentSegmentId ≤ s.writer.currentSegmentId + 1 ∧
      (env.openFault (s.writer.currentSegmentId + 1) = none ∨
        s'.writer.writeOffset = s.writer.writeOffset + totalRecordSize) := by
  unfold Sound SerialAppends.step
  rcases h.append_cases hmin hmax hlt e with
    ⟨seq, w, dir', happ, hoff, hid, hrec, hinv⟩ | ⟨status, w, dir', happ, hoff, hid, hrej, hinv⟩
  · rw [happ]
    exact ⟨hrec, _, rfl, hinv, hid, hoff⟩
  · rw [happ]
    exact ⟨hrej, _, rfl, hinv, hid.le, .inr hoff⟩

end Inv

/-- While neither the offset nor the segment number wraps, every append either fails and
leaves the journal as it was, or writes its record to a free slot. -/
theorem appends_survive_failed_rolls {env : SessionEnv} {w₀ w : JournalWriter}
    {dir₀ dir : Directory} {size : Nat}
    (hstart : JournalWriter.open env w₀ dir₀ size = some (.kOk, w, dir)) {events : List Event}
    (hok : Runs.Along (step env) Unwrapped ⟨w, dir, []⟩ events) :
    Runs.Along (step env) (Sound env (w₀.sequenceCounter + 1) size) ⟨w, dir, []⟩ events ∧
      ∃ s, Runs.run (step env) ⟨w, dir, []⟩ events = some s ∧
        (w₀.totalBytesWritten = UInt64.ofNat totalRecordSize * w₀.totalEventsWritten →
          s.writer.totalBytesWritten =
            UInt64.ofNat totalRecordSize * s.writer.totalEventsWritten) := by
  obtain ⟨hmin, hmax, hinv⟩ := Inv.opened hstart
  have hstep (s : SerialAppends) (e : Event) (h : Inv w₀ size s) (hu : Unwrapped s e) :=
    h.step env hmin hmax hu.1 e
  obtain ⟨s, hrun, hend⟩ := Runs.exists_run
    (fun s e h hu => (hstep s e h hu).2.imp fun _ h' => ⟨h'.1, h'.2.1⟩) hinv hok
  refine ⟨hok.imp_of_invariant (fun s e _ h hu _ => (hstep s e h hu).1) ?_ hinv hrun, s, hrun, ?_⟩
  · intro s e s' h hu hs'
    obtain ⟨t, ht, hinv', -⟩ := (hstep s e h hu).2
    obtain rfl := Option.some.inj (ht.symm.trans hs')
    exact hinv'
  · intro hcount
    rw [hend.totalBytesWritten, hend.totalEventsWritten, hcount, UInt64.mul_add]

/-- Only the first segment can be opened. -/
def rollsFail : SessionEnv := ⟨fun _ => 0, fun j => if j = 0 then none else some .open⟩

/-- Without a roll that succeeds every append moves the offset on by a record. -/
theorem run_rollsFail {w₀ : JournalWriter} {size : Nat} (hmin : 1024 * 1024 ≤ size)
    (hmax : size < 2 ^ 63) (n : Nat) {s : SerialAppends} (h : Inv w₀ size s)
    (hlt : s.writer.writeOffset + totalRecordSize * (n + 1) < 2 ^ 64)
    (hid : s.writer.currentSegmentId + n < 2 ^ 64) :
    Runs.Along (step rollsFail) Unwrapped s (List.replicate n {}) ∧
      ∃ t, Runs.run (step rollsFail) s (List.replicate n {}) = some t ∧ Inv w₀ size t ∧
        t.writer.writeOffset = s.writer.writeOffset + totalRecordSize * n := by
  induction n generalizing s with
  | zero => exact ⟨trivial, s, rfl, h, rfl⟩
  | succ n ih =>
    have hu : s.writer.writeOffset + 2 * totalRecordSize < 2 ^ 64 := by
      have htwo : totalRecordSize * 2 ≤ totalRecordSize * (n + 1 + 1) :=
        Nat.mul_le_mul_left _ (by omega)
      rw [Nat.mul_comm 2]
      exact (Nat.add_le_add_left htwo _).trans_lt hlt
    obtain ⟨-, s', hs', h', hid', hoff⟩ := h.step rollsFail hmin hmax hu {}
    have hoff' := hoff.resolve_left (by simp [rollsFail])
    have hlt' : s'.writer.writeOffset + totalRecordSize * (n + 1) < 2 ^ 64 := by
      rw [hoff', Nat.add_assoc, Nat.add_comm totalRecordSize, ← Nat.mul_succ]
      exact hlt
    obtain ⟨hok, t, ht, hinv, hend⟩ := ih h' hlt' (by omega)
    refine ⟨Runs.Along.cons ⟨hu, by omega⟩ hs' hok, t, (Runs.run_cons hs' _).trans ht, hinv, ?_⟩
    rw [hend, hoff', Nat.mul_add, Nat.mul_one, Nat.add_assoc, Nat.add_comm totalRecordSize]

theorem open_rollsFail : ∃ w dir,
    JournalWriter.open rollsFail {} ∅ 1048576 = some (.kOk, w, dir) ∧ w.currentSegmentId = 0 ∧
      w.writeOffset = 64 := by
  have hopen : OpensAll (ConcurrentAppend.faultless rollsFail) 1048576 := opensAll_mebibyte _
  obtain ⟨w, dir, hstart, -, -, hid, hoff, -⟩ := ConcurrentAppend.open_fresh hopen
  exact ⟨w, dir, (ConcurrentAppend.open_faultless_eq rfl ..).symm.trans hstart, hid, hoff⟩

/-- The first 6553 appends fill the segment, and the others fail. -/
theorem appends_survive_failed_rolls_full : ∃ w dir,
    JournalWriter.open rollsFail {} ∅ 1048576 = some (.kOk, w, dir) ∧
      Runs.Along (step rollsFail) Unwrapped ⟨w, dir, []⟩ (List.replicate 7000 {}) ∧
      Runs.Along (step rollsFail) (Sound rollsFail 1 1048576) ⟨w, dir, []⟩
        (List.replicate 7000 {}) := by
  obtain ⟨w, dir, hstart, hid, hoff⟩ := open_rollsFail
  obtain ⟨hmin, hmax, hinv⟩ := Inv.opened hstart
  have hok := (run_rollsFail hmin hmax 7000 hinv (by dsimp only; rw [hoff]; decide)
    (by dsimp only; rw [hid]; decide)).1
  exact ⟨w, dir, hstart, hok, (appends_survive_failed_rolls hstart hok).1⟩

/-- After so many failing appends the next one takes the offset for one inside the segment
and copies its record while nothing is mapped. -/
theorem failed_rolls_wrap : ∃ w dir s,
    JournalWriter.open rollsFail {} ∅ 1048576 = some (.kOk, w, dir) ∧
      Runs.run (step rollsFail) ⟨w, dir, []⟩ (List.replicate 115292150460684696 {}) = some s ∧
      s.writer.isOpen = true ∧ s.writer.currentMmap = none ∧
      append rollsFail s.writer s.dir {} = none := by
  obtain ⟨w, dir, hstart, hid, hoff⟩ := open_rollsFail
  obtain ⟨hmin, hmax, hinv⟩ := Inv.opened hstart
  obtain ⟨-, s, hrun, h, hend⟩ := run_rollsFail hmin hmax 115292150460684696 hinv
    (by dsimp only; rw [hoff]; decide) (by dsimp only; rw [hid]; decide)
  dsimp only at hend
  rw [hoff] at hend
  have hnone : s.writer.currentMmap = none := by
    rcases h.mapping with ⟨hnone, -⟩ | ⟨-, hle, -⟩
    · exact hnone
    · rw [hend] at hle
      exact absurd hle (by decide)
  have hx : s.writer.reserve.exceeds s.writer.writeOffset = true := by
    rw [exceeds, segmentSizeBytes_reserve, h.size_eq, hend]
    decide
  have hnext : s.writer.reserve.writeOffset = 2 ^ 64 - 32 := by
    rw [writeOffset_reserve (by rw [hend]; decide), hend]
    rfl
  have hx' : s.writer.reserve.exceeds s.writer.reserve.writeOffset = false := by
    rw [exceeds, segmentSizeBytes_reserve, h.size_eq, hnext]
    decide
  have hm : s.writer.reserve.reserve.currentMmap = none := hnone
  refine ⟨w, dir, s, hstart, hrun, h.isOpen, hnone, ?_⟩
  simp only [append, h.isOpen, hx, hx', writeRecord, copyRecord, hm]
  rfl

end SerialAppends

end Ume
