import Ume.Event.ConcurrentAppend

/-! Concurrent appends whose steps do no harm. Reserved offsets are slots of the
active segment, no two threads have the same one, and a slot that is copied to
holds no record of another append. -/

namespace Ume

open ByteString JournalWriter

theorem recordBytes_injective {seq seq' : UInt64} {e e' : Event}
    (h : recordBytes seq e = recordBytes seq' e') : seq = seq' ∧ e = e' := by
  have hlen : (recordHeader seq e).toBytes.length = (recordHeader seq' e').toBytes.length := by
    rw [JournalRecordHeader.length_toBytes, JournalRecordHeader.length_toBytes]
  have hevent := (List.append_inj h hlen).2
  have hheader := congrArg JournalRecordHeader.ofBytes h
  rw [recordBytes, recordBytes, JournalRecordHeader.ofBytes_toBytes_append,
    JournalRecordHeader.ofBytes_toBytes_append] at hheader
  exact ⟨congrArg JournalRecordHeader.sequenceNum hheader, Event.toBytes_injective hevent⟩

def slotOffset (k : Nat) : Nat := segmentHeaderSize + totalRecordSize * k

theorem slotOffset_succ (k : Nat) : slotOffset (k + 1) = slotOffset k + totalRecordSize := by
  rw [slotOffset, slotOffset, Nat.mul_succ, Nat.add_assoc]

/-- The bytes of a slot of a segment; what a file lacks up to the segment size
counts as zeros. -/
def slotBytes (dir : Directory) (size j k : Nat) : List UInt8 :=
  slice (((segmentsOf dir j).getD []).takeD size 0) (slotOffset k) totalRecordSize

theorem slotOffset_ne_iff {k k' : Nat} : slotOffset k ≠ slotOffset k' ↔
    slotOffset k + totalRecordSize ≤ slotOffset k' ∨
      slotOffset k' + totalRecordSize ≤ slotOffset k := by
  unfold slotOffset totalRecordSize
  omega

section SlotBytes

variable {env : SessionEnv} {dir : Directory} {size j : Nat} {entry : DirEntry}

theorem slotBytes_insert_self (h : entry.file.bytes.length = size) (k : Nat) :
    slotBytes (dir.insert (buildSegmentPath j) entry) size j k =
      slice entry.file.bytes (slotOffset k) totalRecordSize := by
  rw [slotBytes, segmentsOf_insert, Function.update_self, Option.getD_some,
    List.takeD_eq_take _ h.ge, ← h, List.take_length]

theorem slotBytes_insert_of_ne {i : Nat} (h : i ≠ j) (k : Nat) :
    slotBytes (dir.insert (buildSegmentPath j) entry) size i k = slotBytes dir size i k := by
  rw [slotBytes, segmentsOf_insert, Function.update_of_ne h, slotBytes]

theorem slotBytes_insert_opened (hmin : 1024 * 1024 ≤ size)
    (h : entry.file.bytes = writtenSegment env (segmentsOf dir) size j []) (i k : Nat) :
    slotBytes (dir.insert (buildSegmentPath j) entry) size i k = slotBytes dir size i k := by
  by_cases hij : i = j
  · subst hij
    have hlen : entry.file.bytes.length = size := by
      rw [h]
      exact length_writtenSegment_nil hmin _
    have hheader : (segmentHeader env i size).toBytes.length = segmentHeaderSize :=
      JournalSegmentHeader.length_toBytes _
    have hoff : segmentHeaderSize ≤ slotOffset k := Nat.le_add_right ..
    rw [slotBytes_insert_self hlen, h, writtenSegment, recordsBytes_nil, List.append_nil,
      List.length_nil, Nat.mul_zero, List.drop_zero, slice_append_right (hheader.trans_le hoff),
      hheader, slotBytes, slice, slice, staleBytes, List.drop_drop, Nat.add_sub_cancel' hoff]
  · exact slotBytes_insert_of_ne hij k

variable {file : FileImage} {off : Nat} {seq : UInt64} {e : Event}

theorem slotBytes_insert_copied {k : Nat} (hl : dir.lookup (buildSegmentPath j) = some entry)
    (hlen : entry.file.bytes.length = size) (hfit : slotOffset k + totalRecordSize ≤ size)
    (hfile : file.bytes = splice entry.file.bytes (slotOffset k) (recordBytes seq e)) (i k' : Nat) :
    slotBytes (dir.insert (buildSegmentPath j) { entry with file := file }) size i k' =
      if (i, slotOffset k') = (j, slotOffset k) then recordBytes seq e
      else slotBytes dir size i k' := by
  have hin : slotOffset k + (recordBytes seq e).length ≤ entry.file.bytes.length := by
    rw [length_recordBytes, hlen]
    exact hfit
  have hlen' : file.bytes.length = size := by rw [hfile, length_splice hin, hlen]
  by_cases hij : i = j
  · subst hij
    have hold : slotBytes dir size i k' =
        slice entry.file.bytes (slotOffset k') totalRecordSize := by
      rw [slotBytes, segmentsOf, hl, Option.map_some, Option.getD_some,
        List.takeD_eq_take _ hlen.ge, ← hlen, List.take_length]
    rw [slotBytes_insert_self hlen', hfile, hold]
    by_cases hk : slotOffset k' = slotOffset k
    · rw [if_pos (by rw [hk]), hk, ← length_recordBytes seq e, slice_splice_self hin]
    · rw [if_neg (fun h => hk (Prod.mk.inj h).2)]
      apply slice_splice_of_disjoint hin
      rw [length_recordBytes]
      exact slotOffset_ne_iff.mp hk
  · rw [slotBytes_insert_of_ne hij, if_neg (fun h => hij (Prod.mk.inj h).1)]

end SlotBytes

/-- What `open` leaves when it succeeds: the first segment with its header, and behind it
what was there. -/
theorem open_eq_ok {env : SessionEnv} {w₀ w : JournalWriter} {dir₀ dir : Directory} {size : Nat}
    (hopen : OpensAll env size)
    (hstart : JournalWriter.open env w₀ dir₀ size = some (.kOk, w, dir)) :
    1024 * 1024 ≤ size ∧ ∃ file : FileImage,
      file.bytes = writtenSegment env (segmentsOf dir₀) size 0 [] ∧
      w = { w₀ with
        segmentSizeBytes := size
        currentSegmentId := 0
        currentMmap := some (buildSegmentPath 0)
        writeOffset := segmentHeaderSize
        isOpen := true } ∧
      dir = dir₀.insert (buildSegmentPath 0)
        { (dir₀.lookup (buildSegmentPath 0)).getD { file := FileImage.empty } with
          file := file } := by
  have hmin : 1024 * 1024 ≤ size := by
    by_contra hlt
    unfold JournalWriter.open at hstart
    rw [if_pos (Nat.lt_of_not_le hlt)] at hstart
    split_ifs at hstart <;> cases hstart
  have hclosed : w₀.isOpen = false := by
    by_contra hw
    rw [JournalWriter.open, if_pos (Bool.not_eq_false _ ▸ hw)] at hstart
    cases hstart
  rw [JournalWriter.open, if_neg (by simp [hclosed]), if_neg (Nat.not_lt.mpr hmin)] at hstart
  obtain ⟨file, hfile, hroll⟩ := rollSegmentLocked_insert
    (w := { w₀ with segmentSizeBytes := size, currentSegmentId := 0 }) hopen hmin rfl dir₀
  dsimp only at hroll hstart
  rw [hroll] at hstart
  obtain ⟨-, rfl, rfl⟩ := Prod.mk.inj (Option.some.inj hstart) |>.imp_right Prod.mk.inj
  exact ⟨hmin, file, hfile, rfl, rfl⟩

/-- The current segment is mapped, in its full size. -/
def JournalWriter.Mapped (w : JournalWriter) (dir : Directory) : Prop :=
  w.currentMmap = some (buildSegmentPath w.currentSegmentId) ∧
    ∃ entry, dir.lookup (buildSegmentPath w.currentSegmentId) = some entry ∧
      entry.file.bytes.length = w.segmentSizeBytes

theorem JournalWriter.Mapped.exceeds_eq_false {w : JournalWriter} {dir : Directory} {off : Nat}
    (h : w.Mapped dir) (hfit : off + totalRecordSize ≤ w.segmentSizeBytes) :
    w.exceeds off = false := by
  obtain ⟨-, entry, -, hlen⟩ := h
  have hmax := entry.file.length_lt
  rw [exceeds_eq_false_iff (by omega)]
  exact hfit

namespace ConcurrentAppend

variable {ι : Type*}

structure Inv (dir₀ : Directory) (size : Nat) (s : System ι) : Prop where
  isOpen : s.writer.isOpen = true
  size_eq : s.writer.segmentSizeBytes = size
  mapped : s.writer.currentMmap = some (buildSegmentPath s.writer.currentSegmentId)
  current : ∃ entry, s.dir.lookup (buildSegmentPath s.writer.currentSegmentId) = some entry ∧
    entry.file.bytes.length = size
  aligned : ∃ k, s.writer.writeOffset = slotOffset k
  log_ok : ∀ w ∈ s.log, w.segment = w.reservedIn ∧ w.segment ≤ s.writer.currentSegmentId ∧
    (∃ k, w.offset = slotOffset k) ∧ w.offset + totalRecordSize ≤ size ∧
    (w.segment = s.writer.currentSegmentId → w.offset < s.writer.writeOffset)
  places : (s.log.map Written.place).Nodup
  kept : ∀ w ∈ s.log, ∀ k, w.offset = slotOffset k →
    slotBytes s.dir size w.segment k = recordBytes w.seq w.event
  others : ∀ j k, (j, slotOffset k) ∉ s.log.map Written.place →
    slotBytes s.dir size j k = slotBytes dir₀ size j k
  check_lt : ∀ p e j off, s.pc p = .check e j off → off + totalRecordSize < 2 ^ 64
  reserved : ∀ p j off, (s.pc p).reservation size = some (j, off) →
    j = s.writer.currentSegmentId ∧ (∃ k, off = slotOffset k) ∧ off + totalRecordSize ≤ size ∧
    off < s.writer.writeOffset ∧ (j, off) ∉ s.log.map Written.place
  exclusive : ∀ p q r, p ≠ q → (s.pc p).reservation size = some r →
    (s.pc q).reservation size ≠ some r

section Update

variable [DecidableEq ι] {size : Nat} {s : System ι} {p q : ι} {pc : Pc}

theorem reservation_update (hres : pc.reservation size = (s.pc p).reservation size) (q : ι) :
    (Function.update s.pc p pc q).reservation size = (s.pc q).reservation size :=
  (Function.forall_update_iff s.pc fun q pc =>
    pc.reservation size = (s.pc q).reservation size).mpr ⟨hres, fun _ _ => rfl⟩ q

theorem reservation_update_cases {r : Nat × Nat}
    (h : (Function.update s.pc p pc q).reservation size = some r) :
    q = p ∧ pc.reservation size = some r ∨ q ≠ p ∧ (s.pc q).reservation size = some r := by
  rw [Function.update_apply] at h
  split_ifs at h with hq
  · exact .inl ⟨hq, h⟩
  · exact .inr ⟨hq, h⟩

end Update

namespace Inv

variable [DecidableEq ι] {dir₀ : Directory} {size : Nat} {s : System ι} {p : ι} {pc : Pc}

theorem check_lt_update (h : Inv dir₀ size s) (hcheck : ∀ e j off, pc ≠ .check e j off) (q : ι)
    (e : Event) (j off : Nat) (hq : Function.update s.pc p pc q = .check e j off) :
    off + totalRecordSize < 2 ^ 64 := by
  rw [Function.update_apply] at hq
  split_ifs at hq
  · exact absurd hq (hcheck e j off)
  · exact h.check_lt q e j off hq

theorem setPc (h : Inv dir₀ size s) (hres : pc.reservation size = (s.pc p).reservation size)
    (hcheck : ∀ e j off, pc ≠ .check e j off) : Inv dir₀ size (s.setPc p pc) := by
  have hsame := reservation_update hres
  exact
    { h with
      check_lt := h.check_lt_update hcheck
      reserved := fun q j off hq => h.reserved q j off ((hsame q).symm.trans hq)
      exclusive := fun q q' r hne hq hq' =>
        h.exclusive q q' r hne ((hsame q).symm.trans hq) ((hsame q').symm.trans hq') }

theorem reserve (h : Inv dir₀ size s) (hlt : s.writer.writeOffset + totalRecordSize < 2 ^ 64)
    (hnew : ∀ r, pc.reservation size = some r →
      r = (s.writer.currentSegmentId, s.writer.writeOffset) ∧
        s.writer.writeOffset + totalRecordSize ≤ size)
    (hcheck : ∀ e j off, pc = .check e j off → off = s.writer.writeOffset) :
    Inv dir₀ size { s.setPc p pc with writer := s.writer.reserve } := by
  have hoff : s.writer.reserve.writeOffset = s.writer.writeOffset + totalRecordSize := u64_of_lt hlt
  have hle : s.writer.writeOffset < s.writer.reserve.writeOffset := by
    rw [hoff]
    unfold totalRecordSize
    omega
  obtain ⟨k, hk⟩ := h.aligned
  have hpc : ∀ q r, (Function.update s.pc p pc q).reservation size = some r →
      q = p ∧ r = (s.writer.currentSegmentId, s.writer.writeOffset) ∧
          s.writer.writeOffset + totalRecordSize ≤ size ∨
        q ≠ p ∧ (s.pc q).reservation size = some r := fun q r hr =>
    (reservation_update_cases hr).imp_left fun ⟨hq, hr⟩ => ⟨hq, hnew r hr⟩
  exact
    { h with
      aligned := ⟨k + 1, by rw [hoff, hk]; rfl⟩
      log_ok := by
        intro w hw
        obtain ⟨h₁, h₂, h₃, h₄, h₅⟩ := h.log_ok w hw
        exact ⟨h₁, h₂, h₃, h₄, fun hc => (h₅ hc).trans hle⟩
      check_lt := by
        intro q e j off hq
        dsimp only [System.setPc] at hq
        rw [Function.update_apply] at hq
        split_ifs at hq
        · rw [hcheck e j off hq]
          exact hlt
        · exact h.check_lt q e j off hq
      reserved := by
        intro q j off hq
        rcases hpc q _ hq with ⟨-, hr, hfit⟩ | ⟨-, hold⟩
        · obtain ⟨rfl, rfl⟩ := Prod.mk.inj hr
          refine ⟨rfl, h.aligned, hfit, hle, fun hmem => ?_⟩
          obtain ⟨w, hw, hplace⟩ := List.mem_map.mp hmem
          obtain ⟨hseg, hwoff⟩ := Prod.mk.inj hplace
          have := (h.log_ok w hw).2.2.2.2 hseg
          omega
        · obtain ⟨h₁, h₂, h₃, h₄, h₅⟩ := h.reserved q j off hold
          exact ⟨h₁, h₂, h₃, h₄.trans hle, h₅⟩
      exclusive := by
        intro q q' r hne hq hq'
        rcases hpc q _ hq with ⟨hqp, rfl, -⟩ | ⟨-, hold⟩ <;>
          rcases hpc q' _ hq' with ⟨hqp', hr, -⟩ | ⟨-, hold'⟩
        · exact hne (hqp.trans hqp'.symm)
        · exact Nat.lt_irrefl _ (h.reserved q' _ _ hold').2.2.2.1
        · subst hr
          exact Nat.lt_irrefl _ (h.reserved q _ _ hold).2.2.2.1
        · exact h.exclusive q q' r hne hold hold' }

theorem roll {env : SessionEnv} (h : Inv dir₀ size s) (hmin : 1024 * 1024 ≤ size)
    (hfree : ∀ q, (s.pc q).reservation size = none) {e : Event} {entry : DirEntry}
    (hentry : entry.file.bytes =
      writtenSegment env (segmentsOf s.dir) size (s.writer.currentSegmentId + 1) []) :
    Inv dir₀ size
      { s.setPc p (.again e) with
        writer :=
          { s.writer with
            currentSegmentId := s.writer.currentSegmentId + 1
            currentMmap := some (buildSegmentPath (s.writer.currentSegmentId + 1))
            writeOffset := segmentHeaderSize }
        dir := s.dir.insert (buildSegmentPath (s.writer.currentSegmentId + 1)) entry } := by
  have hpc : ∀ q, (Function.update s.pc p (.again e) q).reservation size = none := by
    intro q
    have hidle : (Pc.again e).reservation size = (s.pc p).reservation size := (hfree p).symm
    rw [reservation_update hidle, hfree]
  have hslots := slotBytes_insert_opened hmin hentry
  exact
    { h with
      mapped := rfl
      current := ⟨entry, AList.lookup_insert s.dir, by
        rw [hentry]
        exact length_writtenSegment_nil hmin _⟩
      aligned := ⟨0, rfl⟩
      log_ok := by
        intro w hw
        obtain ⟨h₁, h₂, h₃, h₄, -⟩ := h.log_ok w hw
        exact ⟨h₁, Nat.le_succ_of_le h₂, h₃, h₄, fun hc =>
          absurd hc (Nat.ne_of_lt (Nat.lt_succ_of_le h₂))⟩
      kept := fun w hw k hk => (hslots w.segment k).trans (h.kept w hw k hk)
      others := fun j k hout => (hslots j k).trans (h.others j k hout)
      check_lt := h.check_lt_update (by simp)
      reserved := by
        intro q j off hq
        cases (hpc q).symm.trans hq
      exclusive := by
        intro q q' r _ hq
        cases (hpc q).symm.trans hq }

theorem copy (h : Inv dir₀ size s) {e : Event} {j off : Nat} {seq : UInt64}
    (hp : s.pc p = .copy e j off seq) :
    ∃ dir', copyRecord s.writer s.dir seq e off = some dir' ∧
      Inv dir₀ size
        { s.setPc p .idle with
          dir := dir'
          writer :=
            { s.writer with
              totalEventsWritten := s.writer.totalEventsWritten + 1
              totalBytesWritten := s.writer.totalBytesWritten + UInt64.ofNat totalRecordSize }
          log := s.log ++ [⟨seq, e, s.writer.currentSegmentId, off, j⟩] } := by
  have hmine : (s.pc p).reservation size = some (j, off) := by rw [hp]; rfl
  obtain ⟨rfl, ⟨k, rfl⟩, hfit, hlt, hfresh⟩ := h.reserved p j off hmine
  obtain ⟨entry, hl, hlen⟩ := h.current
  obtain ⟨file, hfile, hcopy⟩ := copyRecord_insert h.mapped hl (hfit.trans_eq hlen.symm) seq e
  have hslots := slotBytes_insert_copied hl hlen hfit hfile
  have hpc : ∀ q r, (Function.update s.pc p .idle q).reservation size = some r →
      q ≠ p ∧ (s.pc q).reservation size = some r := fun q r hr =>
    (reservation_update_cases hr).resolve_left fun ⟨_, hnone⟩ => by cases hnone
  refine ⟨_, hcopy, ?_⟩
  exact
    { h with
      current := ⟨_, AList.lookup_insert s.dir, by
        rw [hfile, length_splice (by rw [length_recordBytes, hlen]; exact hfit), hlen]⟩
      log_ok := by
        intro w hw
        rcases List.mem_append.mp hw with hw | hw
        · exact h.log_ok w hw
        · obtain rfl := List.mem_singleton.mp hw
          exact ⟨rfl, le_rfl, ⟨k, rfl⟩, hfit, fun _ => hlt⟩
      places := by
        rw [List.map_append, List.map_singleton]
        exact List.nodup_append_comm.mp (List.nodup_cons.mpr ⟨hfresh, h.places⟩)
      kept := by
        intro w hw k' hk'
        rcases List.mem_append.mp hw with hw | hw
        · have hne : (w.segment, slotOffset k') ≠ (s.writer.currentSegmentId, slotOffset k) := by
            rw [← hk']
            exact fun hplace => hfresh (List.mem_map.mpr ⟨w, hw, hplace⟩)
          exact (hslots w.segment k').trans ((if_neg hne).trans (h.kept w hw k' hk'))
        · obtain rfl := List.mem_singleton.mp hw
          have hk : slotOffset k = slotOffset k' := hk'
          exact (hslots _ k').trans (if_pos (by rw [hk]))
      others := by
        intro i k' hout
        rw [List.map_append, List.mem_append, not_or] at hout
        have hne : (i, slotOffset k') ≠ (s.writer.currentSegmentId, slotOffset k) := fun hplace =>
          hout.2 (List.mem_singleton.mpr hplace)
        exact (hslots i k').trans ((if_neg hne).trans (h.others i k' hout.1))
      check_lt := h.check_lt_update (by simp)
      reserved := by
        intro q i off' hq
        obtain ⟨hqp, hold⟩ := hpc q _ hq
        obtain ⟨h₁, h₂, h₃, h₄, h₅⟩ := h.reserved q i off' hold
        refine ⟨h₁, h₂, h₃, h₄, ?_⟩
        rw [List.map_append, List.mem_append, not_or]
        refine ⟨h₅, fun hnew => ?_⟩
        rw [List.mem_singleton.mp hnew] at hold
        exact h.exclusive q p _ hqp hold hmine
      exclusive := fun q q' r hne hq hq' =>
        h.exclusive q q' r hne (hpc q r hq).2 (hpc q' r hq').2 }

omit [DecidableEq ι] in
theorem exceeds_iff (h : Inv dir₀ size s) {off : Nat} (hlt : off + totalRecordSize < 2 ^ 64) :
    s.writer.exceeds off = true ↔ size < off + totalRecordSize := by
  rw [JournalWriter.exceeds_iff hlt, h.size_eq]

theorem next {env : SessionEnv} {s' : System ι} (hopen : OpensAll env size)
    (hmin : 1024 * 1024 ≤ size) (h : Inv dir₀ size s) (hok : Harmless s (.next p))
    (hnext : ConcurrentAppend.next env s p = some s') : Inv dir₀ size s' := by
  unfold ConcurrentAppend.next at hnext
  simp only [Harmless] at hok
  cases hp : s.pc p with
  | idle => simp only [hp, reduceCtorEq] at hnext
  | check e j off =>
    have hlt := h.check_lt p e j off hp
    simp only [hp] at hnext
    split_ifs at hnext with hx
    · obtain rfl := Option.some.inj hnext
      have hfit := (h.exceeds_iff hlt).mp hx
      exact h.setPc (by rw [hp]; exact (if_neg (by omega)).symm) (by simp)
    · obtain rfl := Option.some.inj hnext
      have hfit := (h.exceeds_iff hlt).not.mp hx
      exact h.setPc (by rw [hp]; exact (if_pos (by omega)).symm) (by simp)
  | lock e =>
    simp only [hp] at hnext
    split_ifs at hnext with hheld hx
    · obtain rfl := Option.some.inj hnext
      have hset : Inv dir₀ size (s.setPc p (.roll e)) := h.setPc (by rw [hp]; rfl) (by simp)
      exact { hset with }
    · obtain rfl := Option.some.inj hnext
      have hset : Inv dir₀ size (s.setPc p (.again e)) := h.setPc (by rw [hp]; rfl) (by simp)
      exact { hset with }
  | roll e =>
    simp only [hp, h.size_eq] at hok
    obtain ⟨file, hfile, hroll⟩ := rollSegmentLocked_insert
      (w := { s.writer with currentSegmentId := s.writer.currentSegmentId + 1 })
      hopen hmin h.size_eq s.dir
    dsimp only at hroll
    simp only [hp, hroll] at hnext
    obtain rfl := Option.some.inj hnext
    exact h.roll hmin hok hfile
  | again e =>
    simp only [hp, h.size_eq] at hnext hok
    obtain rfl := Option.some.inj hnext
    obtain ⟨-, -, hmax⟩ := opensAll_iff.mp hopen
    exact h.reserve (by omega) (fun r hr => ⟨(Option.some.inj hr).symm, hok⟩) (by simp)
  | unlock e j off =>
    simp only [hp] at hnext
    obtain rfl := Option.some.inj hnext
    have hset : Inv dir₀ size (s.setPc p (.sequence e j off)) :=
      h.setPc (by rw [hp]; rfl) (by simp)
    exact { hset with }
  | sequence e j off =>
    simp only [hp] at hnext
    obtain rfl := Option.some.inj hnext
    have hset : Inv dir₀ size (s.setPc p (.copy e j off (s.writer.sequenceCounter + 1))) :=
      h.setPc (by rw [hp]; rfl) (by simp)
    exact { hset with }
  | copy e j off seq =>
    obtain ⟨dir', hcopy, hinv⟩ := h.copy hp
    simp only [hp, hcopy, Option.map_some] at hnext
    obtain rfl := Option.some.inj hnext
    exact hinv

theorem step {env : SessionEnv} {s' : System ι} {a : Action ι} (hopen : OpensAll env size)
    (hmin : 1024 * 1024 ≤ size) (h : Inv dir₀ size s) (hok : Harmless s a)
    (hstep : ConcurrentAppend.step env s a = some s') : Inv dir₀ size s' := by
  cases a with
  | next p => exact h.next hopen hmin hok hstep
  | append p e =>
    unfold ConcurrentAppend.step at hstep
    cases hp : s.pc p with
    | idle =>
      simp only [hp, h.isOpen, if_true] at hstep
      obtain rfl := Option.some.inj hstep
      refine h.reserve hok (fun r hr => ?_) (fun e' j off heq => (Pc.check.inj heq).2.2.symm)
      simp only [Pc.reservation, Option.ite_none_right_eq_some, Option.some.injEq] at hr
      exact ⟨hr.2.symm, hr.1⟩
    | _ => simp only [hp, reduceCtorEq] at hstep

omit [DecidableEq ι] in
theorem opened {env : SessionEnv} {w₀ w : JournalWriter} {dir : Directory}
    (hopen : OpensAll env size)
    (hstart : JournalWriter.open env w₀ dir₀ size = some (.kOk, w, dir)) :
    1024 * 1024 ≤ size ∧ Inv dir₀ size ({ writer := w, dir := dir } : System ι) := by
  obtain ⟨hmin, file, hfile, rfl, rfl⟩ := open_eq_ok hopen hstart
  refine ⟨hmin, ?_⟩
  exact
    { isOpen := rfl
      size_eq := rfl
      mapped := rfl
      current := ⟨_, AList.lookup_insert dir₀, by
        rw [hfile]
        exact length_writtenSegment_nil hmin _⟩
      aligned := ⟨0, rfl⟩
      log_ok := by simp
      places := List.nodup_nil
      kept := by simp
      others := fun j k _ => slotBytes_insert_opened hmin hfile j k
      check_lt := by simp
      reserved := by simp [Pc.reservation]
      exclusive := by simp [Pc.reservation] }

end Inv

/-- No record is lost or overwritten: every append that has returned has a slot of
its own in the segment its offset was reserved in, a slot holds a record when an append
wrote it there, or no append wrote to the slot and it was there before, and no thread is
about to copy outside of the mapping. -/
structure Kept (dir₀ : Directory) (size : Nat) (s : System ι) : Prop where
  own_slot : (s.log.map Written.place).Nodup
  inside : ∀ w ∈ s.log, w.segment = w.reservedIn ∧ (∃ k, w.offset = slotOffset k) ∧
    segmentHeaderSize ≤ w.offset ∧ w.offset + totalRecordSize ≤ size
  on_disk : ∀ j k seq e, slotBytes s.dir size j k = recordBytes seq e ↔
    (∃ w ∈ s.log, w.place = (j, slotOffset k) ∧ w.seq = seq ∧ w.event = e) ∨
      (j, slotOffset k) ∉ s.log.map Written.place ∧ slotBytes dir₀ size j k = recordBytes seq e
  in_mapping : ∀ p e j off seq, s.pc p = .copy e j off seq →
    (copyRecord s.writer s.dir seq e off).isSome

theorem Inv.toKept {dir₀ : Directory} {size : Nat} {s : System ι} (h : Inv dir₀ size s) :
    Kept dir₀ size s where
  own_slot := h.places
  inside := by
    intro w hw
    obtain ⟨hseg, -, ⟨k, hk⟩, hfit, -⟩ := h.log_ok w hw
    exact ⟨hseg, ⟨k, hk⟩, hk ▸ Nat.le_add_right .., hfit⟩
  on_disk := by
    intro j k seq e
    by_cases hmem : (j, slotOffset k) ∈ s.log.map Written.place
    · obtain ⟨w, hw, hplace⟩ := List.mem_map.mp hmem
      obtain ⟨rfl, hoff⟩ := Prod.mk.inj hplace
      rw [h.kept w hw k hoff]
      constructor
      · intro heq
        obtain ⟨hseq, hevent⟩ := recordBytes_injective heq
        exact .inl ⟨w, hw, hplace, hseq, hevent⟩
      · rintro (⟨w', hw', hplace', rfl, rfl⟩ | ⟨hout, -⟩)
        · obtain rfl := List.inj_on_of_nodup_map h.places hw hw' (hplace.trans hplace'.symm)
          rfl
        · exact absurd hmem hout
    · rw [h.others j k hmem]
      constructor
      · exact fun hold => .inr ⟨hmem, hold⟩
      · rintro (⟨w, hw, hplace, -⟩ | ⟨-, hold⟩)
        · exact absurd (List.mem_map.mpr ⟨w, hw, hplace⟩) hmem
        · exact hold
  in_mapping := by
    intro p e j off seq hp
    have hmine : (s.pc p).reservation size = some (j, off) := by rw [hp]; rfl
    obtain ⟨-, -, hfit, -, -⟩ := h.reserved p j off hmine
    obtain ⟨entry, hl, hlen⟩ := h.current
    obtain ⟨file, -, hcopy⟩ := copyRecord_insert h.mapped hl (hfit.trans_eq hlen.symm) seq e
    rw [hcopy]
    rfl

variable [DecidableEq ι] {env : SessionEnv}

theorem appends_keep_records {w₀ w : JournalWriter} {dir₀ dir : Directory} {size : Nat}
    (hopen : OpensAll env size)
    (hstart : JournalWriter.open env w₀ dir₀ size = some (.kOk, w, dir)) {as : List (Action ι)}
    (hok : Runs.Along (step env) Harmless { writer := w, dir := dir } as) {s : System ι}
    (hrun : Runs.run (step env) { writer := w, dir := dir } as = some s) : Kept dir₀ size s := by
  obtain ⟨hmin, hinv⟩ := Inv.opened hopen hstart
  exact (Runs.invariant_along (fun _ _ _ h hok hstep => h.step hopen hmin hok hstep)
    hinv hok hrun).toKept

section Schedules

variable {s : System ι} {p q : ι} {e : Event} {j off : Nat}

def System.reserved (s : System ι) (p : ι) (e : Event) : System ι :=
  { s.setPc p (.check e s.writer.currentSegmentId s.writer.writeOffset) with
    writer := s.writer.reserve }

theorem System.pc_reserved (s : System ι) (p : ι) (e : Event) :
    (s.reserved p e).pc p = .check e s.writer.currentSegmentId s.writer.writeOffset :=
  Function.update_self ..

omit [DecidableEq ι] in
theorem harmless_next (hroll : ∀ e, s.pc p ≠ .roll e) (hagain : ∀ e, s.pc p ≠ .again e) :
    Harmless s (.next p) := by
  cases hp : s.pc p with
  | roll e => exact absurd hp (hroll e)
  | again e => exact absurd hp (hagain e)
  | _ => simp only [Harmless, hp]

theorem step_append (hw : s.writer.isOpen = true) (hp : s.pc p = .idle) :
    step env s (.append p e) = some (s.reserved p e) := by
  simp only [step, hp, hw, if_true, System.reserved]

theorem step_check (hp : s.pc p = .check e j off) (hx : s.writer.exceeds off = false) :
    step env s (.next p) = some (s.setPc p (.sequence e j off)) := by
  simp only [step, next, hp, hx, Bool.false_eq_true, if_false]

theorem step_check_full (hp : s.pc p = .check e j off) (hx : s.writer.exceeds off = true) :
    step env s (.next p) = some (s.setPc p (.lock e)) := by
  simp only [step, next, hp, hx, if_true]

theorem step_lock (hm : s.rolloverMutex = none) (hp : s.pc p = .lock e) :
    step env s (.next p) =
      some { s.setPc p (if s.writer.exceeds s.writer.writeOffset then .roll e else .again e) with
        rolloverMutex := some p } := by
  simp only [step, next, hp, hm, Option.isSome_none, Bool.false_eq_true, if_false]
  split_ifs <;> rfl

theorem step_roll (hp : s.pc p = .roll e) {w : JournalWriter} {dir : Directory}
    (hroll : rollSegmentLocked env
      { s.writer with currentSegmentId := s.writer.currentSegmentId + 1 } s.dir =
        some (.kOk, w, dir)) :
    step env s (.next p) = some { s.setPc p (.again e) with writer := w, dir := dir } := by
  simp only [step, next, hp, hroll]

theorem step_again (hp : s.pc p = .again e) :
    step env s (.next p) =
      some { s.setPc p (.unlock e s.writer.currentSegmentId s.writer.writeOffset) with
        writer := s.writer.reserve } := by
  simp only [step, next, hp]

theorem step_unlock (hp : s.pc p = .unlock e j off) :
    step env s (.next p) =
      some { s.setPc p (.sequence e j off) with rolloverMutex := none } := by
  simp only [step, next, hp]

theorem step_sequence (hp : s.pc p = .sequence e j off) :
    step env s (.next p) =
      some { s.setPc p (.copy e j off (s.writer.sequenceCounter + 1)) with
        writer := { s.writer with sequenceCounter := s.writer.sequenceCounter + 1 } } := by
  simp only [step, next, hp]

variable (env) in
/-- A thread that has its slot takes a number and copies its record. -/
theorem run_sequence (h : s.writer.Mapped s.dir) (hp : s.pc p = .sequence e j off)
    (hfit : off + totalRecordSize ≤ s.writer.segmentSizeBytes) :
    ∃ s', Runs.run (step env) s (List.replicate 2 (.next p)) = some s' ∧
      Runs.Along (step env) Harmless s (List.replicate 2 (.next p)) ∧ s'.writer.Mapped s'.dir ∧
      s'.writer = s.writer.counted ∧ s'.rolloverMutex = s.rolloverMutex ∧
      s'.pc = Function.update s.pc p .idle ∧
      s'.log = s.log ++ [⟨s.writer.sequenceCounter + 1, e, s.writer.currentSegmentId, off, j⟩] := by
  obtain ⟨hm, entry, hl, hlen⟩ := h
  obtain ⟨file, hfile, hcopy⟩ := copyRecord_insert
    (w := { s.writer with sequenceCounter := s.writer.sequenceCounter + 1 }) hm hl
    (hfit.trans_eq hlen.symm) (s.writer.sequenceCounter + 1) e
  have hlen' : file.bytes.length = s.writer.segmentSizeBytes := by
    rw [hfile, length_splice (by rw [length_recordBytes, hlen]; exact hfit), hlen]
  refine ⟨{ s with
    dir := s.dir.insert (buildSegmentPath s.writer.currentSegmentId) { entry with file := file }
    writer := s.writer.counted
    pc := Function.update s.pc p .idle
    log := s.log ++ [⟨s.writer.sequenceCounter + 1, e, s.writer.currentSegmentId, off, j⟩] },
    ?_, ?_, ⟨hm, _, AList.lookup_insert _, hlen'⟩, rfl, rfl, rfl, rfl⟩
  · simp only [List.replicate, Runs.run_cons (step_sequence hp), Runs.run, step, next,
      System.setPc, Function.update_self, hcopy, Option.map_some, Option.bind_some,
      Function.update_idem, counted]
  · refine .cons (harmless_next (by simp [hp]) (by simp [hp])) (step_sequence hp) ⟨?_, fun _ _ =>
      trivial⟩
    exact harmless_next (by simp [System.setPc]) (by simp [System.setPc])

variable (env) in
theorem run_finish (h : s.writer.Mapped s.dir) (hp : s.pc p = .check e j off)
    (hfit : off + totalRecordSize ≤ s.writer.segmentSizeBytes) :
    ∃ s', Runs.run (step env) s (List.replicate 3 (.next p)) = some s' ∧
      Runs.Along (step env) Harmless s (List.replicate 3 (.next p)) ∧ s'.writer.Mapped s'.dir ∧
      s'.writer = s.writer.counted ∧ s'.rolloverMutex = s.rolloverMutex ∧
      s'.pc = Function.update s.pc p .idle ∧
      s'.log = s.log ++ [⟨s.writer.sequenceCounter + 1, e, s.writer.currentSegmentId, off, j⟩] := by
  have hstep : step env s (.next p) = some (s.setPc p (.sequence e j off)) :=
    step_check hp (h.exceeds_eq_false hfit)
  have hp' : (s.setPc p (.sequence e j off)).pc p = .sequence e j off := Function.update_self ..
  obtain ⟨s', hrun, hok, hmaps, hw, hm, hpc, hlog⟩ :=
    run_sequence env (s := s.setPc p (.sequence e j off)) h hp' hfit
  refine ⟨s', (Runs.run_cons hstep _).trans hrun,
    .cons (harmless_next (by simp [hp]) (by simp [hp])) hstep hok, hmaps, hw, hm, ?_, hlog⟩
  rw [hpc, System.setPc, Function.update_idem]

variable (env) in
/-- Appends of one thread that all fit, while the others wait. -/
theorem run_appends {size : Nat} (n : Nat) (hmaps : s.writer.Mapped s.dir)
    (hw : s.writer.isOpen = true) (hs : s.writer.segmentSizeBytes = size) (hmax : size < 2 ^ 63)
    (hp : s.pc p = .idle)
    (hfit : s.writer.writeOffset + totalRecordSize * n ≤ size) :
    ∃ s', Runs.run (step env) s
        (List.replicate n (.append p e :: List.replicate 3 (.next p))).flatten = some s' ∧
      Runs.Along (step env) Harmless s
        (List.replicate n (.append p e :: List.replicate 3 (.next p))).flatten ∧
      s'.writer.Mapped s'.dir ∧ s'.writer.isOpen = true ∧ s'.writer.segmentSizeBytes = size ∧
      s'.writer.currentSegmentId = s.writer.currentSegmentId ∧
      s'.writer.writeOffset = s.writer.writeOffset + totalRecordSize * n ∧
      s'.rolloverMutex = s.rolloverMutex ∧ s'.pc = s.pc ∧
      ∃ more, more.length = n ∧ s'.log = s.log ++ more := by
  induction n generalizing s with
  | zero => exact ⟨s, rfl, trivial, hmaps, hw, hs, rfl, rfl, rfl, rfl, [], rfl, by simp⟩
  | succ n ih =>
    rw [Nat.mul_succ] at hfit
    have hlt : s.writer.writeOffset + totalRecordSize < 2 ^ 64 := by omega
    have hroom : s.writer.writeOffset + totalRecordSize ≤ size := by omega
    have hoff := writeOffset_reserve hlt
    obtain ⟨s₁, hrun₁, hok₁, hmaps₁, hw₁, hm₁, hpc₁, hlog₁⟩ := run_finish env
      (s := s.reserved p e) hmaps (s.pc_reserved p e) (hroom.trans_eq hs.symm)
    replace hw₁ : s₁.writer = s.writer.reserve.counted := hw₁
    have hoff₁ : s₁.writer.writeOffset = s.writer.writeOffset + totalRecordSize := by
      rw [hw₁, writeOffset_counted, hoff]
    have hid₁ : s₁.writer.currentSegmentId = s.writer.currentSegmentId := by
      rw [hw₁, currentSegmentId_counted, currentSegmentId_reserve]
    have hidle : s₁.pc = s.pc := by
      rw [hpc₁, System.reserved, System.setPc, Function.update_idem, ← hp,
        Function.update_eq_self]
    obtain ⟨s', hrun', hok', h₁, h₂, h₃, h₄, h₅, h₆, h₇, more, hmore, hlog⟩ := ih (s := s₁) hmaps₁
      (by rw [hw₁, isOpen_counted, isOpen_reserve, hw])
      (by rw [hw₁, segmentSizeBytes_counted, segmentSizeBytes_reserve, hs])
      (by rw [hidle, hp]) (by rw [hoff₁]; omega)
    have hstep : step env s (.append p e) = some (s.reserved p e) := step_append hw hp
    rw [List.replicate_succ, List.flatten_cons, List.cons_append]
    refine ⟨s', ?_, .cons hlt hstep (hok₁.append hrun₁ hok'), h₁, h₂, h₃, h₄.trans hid₁, ?_,
      h₆.trans hm₁, h₇.trans hidle, ⟨s.writer.sequenceCounter + 1, e, s.writer.currentSegmentId,
        s.writer.writeOffset, s.writer.currentSegmentId⟩ :: more, congrArg (· + 1) hmore, ?_⟩
    · rw [Runs.run_cons hstep, Runs.run_append hrun₁]
      exact hrun'
    · rw [h₅, hoff₁, Nat.mul_succ]
      omega
    · rw [hlog, hlog₁, List.append_assoc]
      rfl

variable (env) in
/-- An append to a full segment waits for the rollover mutex. -/
theorem run_lock (hw : s.writer.isOpen = true) (hp : s.pc p = .idle)
    (hfull : s.writer.segmentSizeBytes < s.writer.writeOffset + totalRecordSize)
    (hlt : s.writer.writeOffset + totalRecordSize < 2 ^ 64) :
    Runs.run (step env) s [.append p e, .next p] =
        some { s.setPc p (.lock e) with writer := s.writer.reserve } ∧
      Runs.Along (step env) Harmless s [.append p e, .next p] := by
  have hx : s.writer.reserve.exceeds s.writer.writeOffset = true := by
    rw [exceeds_iff hlt, segmentSizeBytes_reserve]
    exact hfull
  have hstep : step env s (.append p e) = some (s.reserved p e) := step_append hw hp
  have hcheck : step env (s.reserved p e) (.next p) = some ((s.reserved p e).setPc p (.lock e)) :=
    step_check_full (s.pc_reserved p e) hx
  refine ⟨?_, .cons hlt hstep ⟨?_, fun _ _ => trivial⟩⟩
  · rw [Runs.run_cons hstep, Runs.run_cons hcheck, Runs.run]
    simp only [System.reserved, System.setPc, Function.update_idem]
  · exact harmless_next (by simp [s.pc_reserved]) (by simp [s.pc_reserved])

theorem exists_roll {size : Nat} (hopen : OpensAll env size) (hmin : 1024 * 1024 ≤ size)
    {w : JournalWriter} (hs : w.segmentSizeBytes = size) (dir : Directory) :
    ∃ w' dir', rollSegmentLocked env { w with currentSegmentId := w.currentSegmentId + 1 } dir =
        some (.kOk, w', dir') ∧
      w'.segmentSizeBytes = size ∧ w'.currentSegmentId = w.currentSegmentId + 1 ∧
      w'.writeOffset = segmentHeaderSize ∧ w'.sequenceCounter = w.sequenceCounter ∧
      w'.Mapped dir' := by
  obtain ⟨file, hfile, hroll⟩ := rollSegmentLocked_insert
    (w := { w with currentSegmentId := w.currentSegmentId + 1 }) hopen hmin hs dir
  refine ⟨_, _, hroll, hs, rfl, rfl, rfl, rfl, _, AList.lookup_insert dir, ?_⟩
  rw [hfile, length_writtenSegment_nil hmin]
  exact hs.symm

/-- The first thread to get the mutex rolls the segment and has the first slot of the next. -/
theorem run_roll {size : Nat} (hopen : OpensAll env size) (hmin : 1024 * 1024 ≤ size)
    (hs : s.writer.segmentSizeBytes = size) (hm : s.rolloverMutex = none) (hq : s.pc q = .lock e)
    (hfull : size < s.writer.writeOffset + totalRecordSize)
    (hlt : s.writer.writeOffset + totalRecordSize < 2 ^ 64) :
    ∃ s', Runs.run (step env) s (List.replicate 4 (.next q)) = some s' ∧
      ((∀ p, (s.pc p).reservation size = none) →
        Runs.Along (step env) Harmless s (List.replicate 4 (.next q))) ∧
      s'.writer.Mapped s'.dir ∧ s'.writer.segmentSizeBytes = size ∧
      s'.writer.currentSegmentId = s.writer.currentSegmentId + 1 ∧
      s'.writer.writeOffset = segmentHeaderSize + totalRecordSize ∧
      s'.writer.sequenceCounter = s.writer.sequenceCounter ∧ s'.rolloverMutex = none ∧
      s'.log = s.log ∧ s'.pc = Function.update s.pc q
        (.sequence e (s.writer.currentSegmentId + 1) segmentHeaderSize) := by
  obtain ⟨w, dir, hroll, hws, hwid, hwoff, hwseq, hmaps⟩ := exists_roll hopen hmin hs s.dir
  have hx : s.writer.exceeds s.writer.writeOffset = true := by
    rw [exceeds_iff hlt, hs]
    exact hfull
  let s₁ : System ι := { s.setPc q (.roll e) with rolloverMutex := some q }
  let s₂ : System ι := { s₁.setPc q (.again e) with writer := w, dir := dir }
  let s₃ : System ι := { s₂.setPc q (.unlock e w.currentSegmentId w.writeOffset) with
    writer := w.reserve }
  let s₄ : System ι := { s₃.setPc q (.sequence e w.currentSegmentId w.writeOffset) with
    rolloverMutex := none }
  have hp₁ : s₁.pc q = .roll e := Function.update_self ..
  have hp₂ : s₂.pc q = .again e := Function.update_self ..
  have hp₃ : s₃.pc q = .unlock e w.currentSegmentId w.writeOffset := Function.update_self ..
  have hstep₁ : step env s (.next q) = some s₁ := by
    rw [step_lock hm hq, if_pos hx]
  have hstep₂ : step env s₁ (.next q) = some s₂ := step_roll hp₁ hroll
  have hstep₃ : step env s₂ (.next q) = some s₃ := step_again hp₂
  have hstep₄ : step env s₃ (.next q) = some s₄ := step_unlock hp₃
  have hroom : w.writeOffset + totalRecordSize ≤ size := by
    rw [hwoff]
    exact (show segmentHeaderSize + totalRecordSize ≤ 1024 * 1024 by decide).trans hmin
  refine ⟨s₄, ?_, fun hfree => ?_, hmaps, hws, hwid, ?_, hwseq, rfl, rfl, ?_⟩
  · show Runs.run (step env) s [.next q, .next q, .next q, .next q] = some s₄
    rw [Runs.run_cons hstep₁, Runs.run_cons hstep₂, Runs.run_cons hstep₃, Runs.run_cons hstep₄,
      Runs.run]
  · have hfree₁ : ∀ p, (s₁.pc p).reservation s₁.writer.segmentSizeBytes = none := by
      intro p
      have hsame : (Pc.roll e).reservation size = (s.pc q).reservation size := by rw [hq]; rfl
      show (Function.update s.pc q (.roll e) p).reservation s.writer.segmentSizeBytes = none
      rw [hs, reservation_update hsame, hfree]
    refine .cons (harmless_next (by simp [hq]) (by simp [hq])) hstep₁ (.cons ?_ hstep₂
      (.cons ?_ hstep₃ (.cons (harmless_next (by simp [hp₃]) (by simp [hp₃])) hstep₄ trivial)))
    · simpa only [Harmless, hp₁] using hfree₁
    · simp only [Harmless, hp₂]
      exact hroom.trans_eq hws.symm
  · show w.reserve.writeOffset = _
    rw [writeOffset_reserve (by rw [hwoff]; decide), hwoff]
  · simp only [s₄, s₃, s₂, s₁, System.setPc, Function.update_idem, hwid, hwoff]

variable (env) in
/-- The next one finds the segment rolled and takes the next slot in it. -/
theorem run_relock (hmaps : s.writer.Mapped s.dir) (hm : s.rolloverMutex = none)
    (hp : s.pc p = .lock e)
    (hfit : s.writer.writeOffset + totalRecordSize ≤ s.writer.segmentSizeBytes) :
    Runs.run (step env) s (List.replicate 3 (.next p)) =
        some { s.setPc p (.sequence e s.writer.currentSegmentId s.writer.writeOffset) with
          writer := s.writer.reserve } ∧
      Runs.Along (step env) Harmless s (List.replicate 3 (.next p)) := by
  let s₁ : System ι := { s.setPc p (.again e) with rolloverMutex := some p }
  let s₂ : System ι :=
    { s₁.setPc p (.unlock e s.writer.currentSegmentId s.writer.writeOffset) with
      writer := s.writer.reserve }
  let s₃ : System ι :=
    { s₂.setPc p (.sequence e s.writer.currentSegmentId s.writer.writeOffset) with
      rolloverMutex := none }
  have hp₁ : s₁.pc p = .again e := Function.update_self ..
  have hp₂ : s₂.pc p = .unlock e s.writer.currentSegmentId s.writer.writeOffset :=
    Function.update_self ..
  have hstep₁ : step env s (.next p) = some s₁ := by
    rw [step_lock hm hp, hmaps.exceeds_eq_false hfit, if_neg Bool.false_ne_true]
  have hstep₂ : step env s₁ (.next p) = some s₂ := step_again hp₁
  have hstep₃ : step env s₂ (.next p) = some s₃ := step_unlock hp₂
  constructor
  · show Runs.run (step env) s [.next p, .next p, .next p] = _
    rw [Runs.run_cons hstep₁, Runs.run_cons hstep₂, Runs.run_cons hstep₃, Runs.run]
    simp only [s₃, s₂, s₁, System.setPc, Function.update_idem, hm]
  · refine .cons (harmless_next (by simp [hp]) (by simp [hp])) hstep₁ (.cons ?_ hstep₂
      (.cons (harmless_next (by simp [hp₂]) (by simp [hp₂])) hstep₃ trivial))
    simp only [Harmless, hp₁]
    exact hfit

theorem run_append_rolling {size : Nat} (hopen : OpensAll env size) (hmin : 1024 * 1024 ≤ size)
    (hw : s.writer.isOpen = true) (hs : s.writer.segmentSizeBytes = size)
    (hm : s.rolloverMutex = none) (hq : s.pc q = .idle)
    (hfull : size < s.writer.writeOffset + totalRecordSize)
    (hlt : s.writer.writeOffset + 2 * totalRecordSize < 2 ^ 64) :
    ∃ s', Runs.run (step env) s (.append q e :: List.replicate 7 (.next q)) = some s' ∧
      s'.log = s.log ++ [⟨s.writer.sequenceCounter + 1, e, s.writer.currentSegmentId + 1,
        segmentHeaderSize, s.writer.currentSegmentId + 1⟩] ∧
      s'.writer.Mapped s'.dir ∧ s'.writer.segmentSizeBytes = size ∧
      s'.writer.currentSegmentId = s.writer.currentSegmentId + 1 ∧
      ∀ p, p ≠ q → s'.pc p = s.pc p := by
  have hlt₁ : s.writer.writeOffset + totalRecordSize < 2 ^ 64 := by omega
  have hnext := writeOffset_reserve hlt₁
  obtain ⟨hrun₁, -⟩ := run_lock env (e := e) hw hq (hs.trans_lt hfull) hlt₁
  obtain ⟨s₂, hrun₂, -, hmaps₂, hs₂, hid₂, hoff₂, hseq₂, hm₂, hlog₂, hpc₂⟩ :=
    run_roll (s := { s.setPc q (.lock e) with writer := s.writer.reserve }) (e := e) hopen hmin hs
      hm (Function.update_self ..) (by rw [hnext]; omega) (by rw [hnext]; omega)
  have hroom : segmentHeaderSize + totalRecordSize ≤ s₂.writer.segmentSizeBytes := by
    rw [hs₂]
    exact (show segmentHeaderSize + totalRecordSize ≤ 1024 * 1024 by decide).trans hmin
  obtain ⟨s', hrun', -, hmaps', hw', -, hpc', hlog'⟩ := run_sequence env hmaps₂
    (by rw [hpc₂]; exact Function.update_self ..) hroom
  refine ⟨s', ?_, ?_, hmaps', ?_, ?_, fun p hp => ?_⟩
  · show Runs.run (step env) s
      ([.append q e, .next q] ++ (List.replicate 4 (.next q) ++ List.replicate 2 (.next q))) = _
    rw [Runs.run_append hrun₁, Runs.run_append hrun₂, hrun']
  · rw [hlog', hlog₂, hseq₂, hid₂]
    rfl
  · rw [hw', segmentSizeBytes_counted, hs₂]
  · rw [hw', currentSegmentId_counted, hid₂]
    rfl
  · rw [hpc', hpc₂, Function.update_of_ne hp, Function.update_of_ne hp]
    exact Function.update_of_ne hp ..

/-- An offset that is reserved when the segment is rolled is copied to in the next
segment. -/
theorem run_rolled_under {size : Nat} {d : Event} (hopen : OpensAll env size)
    (hmin : 1024 * 1024 ≤ size) (hw : s.writer.isOpen = true)
    (hs : s.writer.segmentSizeBytes = size) (hm : s.rolloverMutex = none) (hpq : p ≠ q)
    (hp : s.pc p = .check e j off) (hoff : off + totalRecordSize ≤ size) (hq : s.pc q = .idle)
    (hfull : size < s.writer.writeOffset + totalRecordSize)
    (hlt : s.writer.writeOffset + 2 * totalRecordSize < 2 ^ 64) :
    ∃ s', Runs.run (step env) s
        ((Action.append q d :: List.replicate 7 (.next q)) ++ List.replicate 3 (Action.next p)) =
          some s' ∧
      s'.log.map Written.place = s.log.map Written.place ++
        [(s.writer.currentSegmentId + 1, segmentHeaderSize),
          (s.writer.currentSegmentId + 1, off)] := by
  obtain ⟨s₁, hrun₁, hlog₁, hmaps₁, hs₁, hid₁, hpc₁⟩ :=
    run_append_rolling (e := d) hopen hmin hw hs hm hq hfull hlt
  obtain ⟨s', hrun', -, -, -, -, -, hlog'⟩ := run_finish env hmaps₁
    ((hpc₁ p hpq).trans hp) (hoff.trans_eq hs₁.symm)
  refine ⟨s', by rw [Runs.run_append hrun₁, hrun'], ?_⟩
  rw [hlog', hlog₁, hid₁, List.append_assoc, List.map_append]
  rfl

end Schedules

omit [DecidableEq ι] in
theorem open_fresh (hopen : OpensAll env 1048576) : ∃ w dir,
    JournalWriter.open env {} ∅ 1048576 = some (.kOk, w, dir) ∧ w.isOpen = true ∧
      w.segmentSizeBytes = 1048576 ∧ w.currentSegmentId = 0 ∧ w.writeOffset = 64 ∧
      w.Mapped dir := by
  obtain ⟨file, hfile, hroll⟩ := rollSegmentLocked_insert
    (w := { segmentSizeBytes := 1048576, currentSegmentId := 0 }) hopen (by decide) rfl ∅
  dsimp only at hroll
  rw [JournalWriter.open, if_neg (by decide), if_neg (by decide)]
  dsimp only
  rw [hroll]
  refine ⟨_, _, rfl, rfl, rfl, rfl, rfl, rfl, _, AList.lookup_insert _, ?_⟩
  rw [hfile]
  exact length_writtenSegment_nil (by decide) _

/-- Two threads that have reserved the first two slots of a new writer. -/
def bothReserved (w : JournalWriter) (dir : Directory) (e : Event) : System Bool :=
  (({ writer := w, dir := dir } : System Bool).reserved false {}).reserved true e

section BothReserved

variable {w : JournalWriter} {dir : Directory} {e : Event}

theorem pc_true_bothReserved (hoff : w.writeOffset = 64) : (bothReserved w dir e).pc true =
    .check e w.currentSegmentId 224 := by
  rw [bothReserved, System.pc_reserved]
  show Pc.check e w.currentSegmentId (u64 (w.writeOffset + totalRecordSize)) = _
  rw [hoff]
  rfl

theorem size_bothReserved :
    (bothReserved w dir e).writer.segmentSizeBytes = w.segmentSizeBytes := by
  simp only [bothReserved, System.reserved, segmentSizeBytes_reserve]

theorem run_bothReserved (hw : w.isOpen = true) (as : List (Action Bool)) :
    Runs.run (step env) { writer := w, dir := dir } (.append false {} :: .append true e :: as) =
      Runs.run (step env) (bothReserved w dir e) as := by
  rw [Runs.run_cons (step_append hw rfl), Runs.run_cons (step_append hw rfl)]
  rfl

variable (env) in
/-- The thread with the second slot returns first. -/
theorem run_overtaken (hmaps : w.Mapped dir) (hs : w.segmentSizeBytes = 1048576)
    (hoff : w.writeOffset = 64) :
    ∃ s₁ s, Runs.run (step env) (bothReserved w dir e) (List.replicate 3 (.next true)) = some s₁ ∧
      Runs.run (step env) s₁ (List.replicate 3 (.next false)) = some s ∧
      Runs.Along (step env) Harmless (bothReserved w dir e)
        (List.replicate 3 (.next true) ++ List.replicate 3 (.next false)) ∧
      s.writer.Mapped s.dir ∧ s.writer = w.reserve.reserve.counted.counted ∧
      s.rolloverMutex = none ∧ (∀ p, s.pc p = .idle) ∧
      s.log = [⟨w.sequenceCounter + 1, e, w.currentSegmentId, 224, w.currentSegmentId⟩,
        ⟨w.sequenceCounter + 1 + 1, {}, w.currentSegmentId, 64, w.currentSegmentId⟩] := by
  obtain ⟨s₁, hrun₁, hok₁, hmaps₁, hw₁, hm₁, hpc₁, hlog₁⟩ := run_finish env
    (s := bothReserved w dir e) hmaps (pc_true_bothReserved hoff)
    (by rw [size_bothReserved, hs]; decide)
  have hp₁ : s₁.pc false = .check {} w.currentSegmentId 64 := by
    rw [hpc₁]
    show Pc.check {} w.currentSegmentId w.writeOffset = _
    rw [hoff]
  obtain ⟨s, hrun, hok, hmaps', hw', hm, hpc, hlog⟩ := run_finish env hmaps₁ hp₁
    (by rw [hw₁, segmentSizeBytes_counted, size_bothReserved, hs]; decide)
  refine ⟨s₁, s, hrun₁, hrun, hok₁.append hrun₁ hok, hmaps', ?_, hm.trans hm₁, ?_, ?_⟩
  · rw [hw', hw₁]
    rfl
  · intro p
    rw [hpc, hpc₁]
    cases p <;> rfl
  · rw [hlog, hlog₁, hw₁]
    rfl

end BothReserved

section RollTogether

/-- Both threads find the segment full, one of them rolls it and both go on in the next one. -/
def rollTogether : List (Action Bool) :=
  [.append false {}, .next false] ++ ([.append true {}, .next true] ++
    (List.replicate 4 (.next true) ++ (List.replicate 3 (.next false) ++
      (List.replicate 2 (.next false) ++ List.replicate 2 (.next true)))))

variable (env) in
theorem run_lockBoth {s : System Bool} (hw : s.writer.isOpen = true)
    (hs : s.writer.segmentSizeBytes = 1048576) (hidle : ∀ p, s.pc p = .idle)
    (hoff : s.writer.writeOffset = slotOffset 6553) :
    ∃ s', Runs.run (step env) s
        ([.append false {}, .next false] ++ [.append true {}, .next true]) = some s' ∧
      Runs.Along (step env) Harmless s
        ([.append false {}, .next false] ++ [.append true {}, .next true]) ∧
      s'.writer.segmentSizeBytes = 1048576 ∧
      s'.writer.currentSegmentId = s.writer.currentSegmentId ∧
      s'.writer.writeOffset = 1048864 ∧ s'.rolloverMutex = s.rolloverMutex ∧ s'.log = s.log ∧
      ∀ p, s'.pc p = .lock {} := by
  obtain ⟨hrun₁, hok₁⟩ := run_lock env (p := false) (e := {}) hw (hidle false)
    (by rw [hs, hoff]; decide) (by rw [hoff]; decide)
  let s₁ : System Bool := { s.setPc false (.lock {}) with writer := s.writer.reserve }
  have hoff₁ : s₁.writer.writeOffset = 1048704 := by
    show s.writer.reserve.writeOffset = _
    rw [writeOffset_reserve (by rw [hoff]; decide), hoff]
    rfl
  obtain ⟨hrun₂, hok₂⟩ := run_lock env (s := s₁) (p := true) (e := {}) hw (hidle true)
    (by rw [hoff₁]; exact hs.trans_lt (by decide)) (by rw [hoff₁]; decide)
  refine ⟨{ s₁.setPc true (.lock {}) with writer := s₁.writer.reserve }, ?_,
    hok₁.append hrun₁ hok₂, hs, rfl, ?_, rfl, rfl, ?_⟩
  · rw [Runs.run_append hrun₁, hrun₂]
  · show s₁.writer.reserve.writeOffset = _
    rw [writeOffset_reserve (by rw [hoff₁]; decide), hoff₁]
    rfl
  · rintro (_ | _) <;> rfl

theorem run_rollTogether {s : System Bool} (hopen : OpensAll env 1048576)
    (hw : s.writer.isOpen = true) (hs : s.writer.segmentSizeBytes = 1048576)
    (hm : s.rolloverMutex = none) (hidle : ∀ p, s.pc p = .idle)
    (hoff : s.writer.writeOffset = slotOffset 6553) :
    ∃ s', Runs.run (step env) s rollTogether = some s' ∧
      Runs.Along (step env) Harmless s rollTogether ∧
      s'.log.map Written.place = s.log.map Written.place ++
        [(s.writer.currentSegmentId + 1, 224), (s.writer.currentSegmentId + 1, 64)] := by
  obtain ⟨s₂, hrun₂, hok₂, hs₂, hid₂, hoff₂, hm₂, hlog₂, hpc₂⟩ :=
    run_lockBoth env hw hs hidle hoff
  obtain ⟨s₃, hrun₃, hok₃, hmaps₃, hs₃, hid₃, hoff₃, -, hm₃, hlog₃, hpc₃⟩ :=
    run_roll (q := true) (e := {}) hopen (by decide) hs₂ (hm₂.trans hm) (hpc₂ true)
      (by rw [hoff₂]; decide) (by rw [hoff₂]; decide)
  rw [hid₂] at hid₃ hpc₃
  have hfree : ∀ p, (s₂.pc p).reservation 1048576 = none := by
    intro p
    rw [hpc₂]
    rfl
  obtain ⟨hrun₄, hok₄⟩ := run_relock env (s := s₃) (p := false) (e := {}) hmaps₃ hm₃
    (by rw [hpc₃]; exact hpc₂ false) (by rw [hoff₃, hs₃]; decide)
  let s₄ : System Bool :=
    { s₃.setPc false (.sequence {} s₃.writer.currentSegmentId s₃.writer.writeOffset) with
      writer := s₃.writer.reserve }
  obtain ⟨s₅, hrun₅, hok₅, hmaps₅, hw₅, -, hpc₅, hlog₅⟩ := run_sequence env (s := s₄)
    (p := false) hmaps₃ rfl (by rw [hoff₃]; exact (show _ ≤ _ by decide).trans_eq hs₃.symm)
  have hp₅ : s₅.pc true = .sequence {} (s₃.writer.currentSegmentId) 64 := by
    rw [hpc₅, hid₃]
    show s₃.pc true = _
    rw [hpc₃]
    rfl
  have hs₅ : s₅.writer.segmentSizeBytes = 1048576 := by
    rw [hw₅, segmentSizeBytes_counted]
    exact hs₃
  obtain ⟨s', hrun', hok', -, -, -, -, hlog'⟩ := run_sequence env hmaps₅ hp₅
    (by rw [hs₅]; decide)
  refine ⟨s', ?_, ?_, ?_⟩
  · rw [rollTogether, ← List.append_assoc, Runs.run_append hrun₂, Runs.run_append hrun₃,
      Runs.run_append hrun₄, Runs.run_append hrun₅, hrun']
  · rw [rollTogether, ← List.append_assoc]
    exact hok₂.append hrun₂ ((hok₃ hfree).append hrun₃ (hok₄.append hrun₄
      (hok₅.append hrun₅ hok')))
  · have hid₅ : s₅.writer.currentSegmentId = s.writer.currentSegmentId + 1 := by
      rw [hw₅, currentSegmentId_counted]
      exact hid₃
    have hlog : s'.log.map Written.place = s₃.log.map Written.place ++
        [(s₃.writer.currentSegmentId, s₃.writer.writeOffset),
          (s₅.writer.currentSegmentId, 64)] := by
      rw [hlog', hlog₅, List.append_assoc, List.map_append]
      rfl
    rw [hlog, hlog₃, hlog₂, hid₃, hid₅, hoff₃]
    rfl

end RollTogether

/-- Two threads. They take the first two slots and return in the other order, one of them
fills the segment, and then both find it full: one rolls it and both write to the next. -/
theorem appends_keep_rolling : ∃ w dir,
    JournalWriter.open ⟨fun _ => 0, fun _ => none⟩ {} ∅ 1048576 = some (.kOk, w, dir) ∧
      ∃ s : System Bool, Runs.run (step ⟨fun _ => 0, fun _ => none⟩) { writer := w, dir := dir }
          (.append false {} :: .append true {} :: (List.replicate 3 (.next true) ++
            List.replicate 3 (.next false) ++
              ((List.replicate 6551 (.append true {} :: List.replicate 3 (.next true))).flatten ++
                rollTogether))) = some s ∧
        (∃ between, between.length = 6551 ∧
          s.log.map Written.place = [(0, 224), (0, 64)] ++ between ++ [(1, 224), (1, 64)]) ∧
        Kept ∅ 1048576 s := by
  have hopen : OpensAll ⟨fun _ => 0, fun _ => none⟩ 1048576 :=
    opensAll_mebibyte _
  obtain ⟨w, dir, hstart, hw, hs, hid, hoff, hmaps⟩ := open_fresh hopen
  have hnext : w.reserve.writeOffset = 224 := by
    rw [reserve, hoff]
    rfl
  obtain ⟨s₁, s₂, hrun₁, hrun₂, hok₂, hmaps₂, hw₂, hm₂, hidle₂, hlog₂⟩ :=
    run_overtaken ⟨fun _ => 0, fun _ => none⟩ (e := {}) hmaps hs hoff
  have hoff₂ : s₂.writer.writeOffset = 384 := by
    rw [hw₂, writeOffset_counted, writeOffset_counted, reserve, hnext]
    rfl
  have hw₂' : s₂.writer.isOpen = true := by
    rw [hw₂, isOpen_counted, isOpen_counted]
    exact hw
  have hs₂ : s₂.writer.segmentSizeBytes = 1048576 := by
    simp only [hw₂, segmentSizeBytes_counted, segmentSizeBytes_reserve, hs]
  have hid₂ : s₂.writer.currentSegmentId = 0 := by
    simp only [hw₂, currentSegmentId_counted, currentSegmentId_reserve, hid]
  obtain ⟨s₃, hrun₃, hok₃, -, hw₃, hs₃, hid₃, hoff₃, hm₃, hpc₃, between, hbetween, hlog₃⟩ :=
    run_appends ⟨fun _ => 0, fun _ => none⟩ (p := true) (e := {}) 6551 hmaps₂ hw₂' hs₂
      (by decide) (hidle₂ true) (by rw [hoff₂]; decide)
  obtain ⟨s, hrun, hok, hlog⟩ := run_rollTogether hopen hw₃ hs₃ (hm₃.trans hm₂)
    (fun p => by rw [hpc₃, hidle₂]) (by rw [hoff₃, hoff₂]; decide)
  have hwhole : Runs.run (step ⟨fun _ => 0, fun _ => none⟩) { writer := w, dir := dir }
      (.append false {} :: .append true {} :: (List.replicate 3 (.next true) ++
        List.replicate 3 (.next false) ++
          ((List.replicate 6551 (.append true {} :: List.replicate 3 (.next true))).flatten ++
            rollTogether))) = some s := by
    rw [run_bothReserved hw, List.append_assoc, Runs.run_append hrun₁, Runs.run_append hrun₂,
      Runs.run_append hrun₃, hrun]
  refine ⟨w, dir, hstart, s, hwhole, ⟨between.map Written.place, by rw [List.length_map, hbetween],
    ?_⟩, appends_keep_records hopen hstart ?_ hwhole⟩
  · rw [hlog, hid₃, hid₂, hlog₃, hlog₂, hid]
    simp [Written.place]
  · have hrun₂' : Runs.run (step ⟨fun _ => 0, fun _ => none⟩) (bothReserved w dir {})
        (List.replicate 3 (.next true) ++ List.replicate 3 (.next false)) = some s₂ := by
      rw [Runs.run_append hrun₁, hrun₂]
    refine .cons ?_ (step_append hw rfl) (.cons ?_ (step_append hw rfl)
      (hok₂.append hrun₂' (hok₃.append hrun₃ hok)))
    · show w.writeOffset + totalRecordSize < 2 ^ 64
      rw [hoff]
      decide
    · show w.reserve.writeOffset + totalRecordSize < 2 ^ 64
      rw [hnext]
      decide

/-- Two threads and 1 MiB segments. The first thread reserves the first slot; the
second fills the segment, rolls and writes the first slot of the next one, which
the first thread then writes too. -/
theorem concurrent_appends_collide : ∃ w dir,
    JournalWriter.open ⟨fun _ => 0, fun _ => none⟩ {} ∅ 1048576 = some (.kOk, w, dir) ∧
      ∃ s : System Bool, Runs.run (step ⟨fun _ => 0, fun _ => none⟩) { writer := w, dir := dir }
          (.append false {} ::
            ((List.replicate 6552 (.append true {} :: List.replicate 3 (.next true))).flatten ++
              ((.append true {} :: List.replicate 7 (.next true)) ++
                List.replicate 3 (.next false)))) = some s ∧
        ¬ (s.log.map Written.place).Nodup ∧ ¬ Kept ∅ 1048576 s := by
  have hopen : OpensAll ⟨fun _ => 0, fun _ => none⟩ 1048576 :=
    opensAll_mebibyte _
  obtain ⟨w, dir, hstart, hw, hs, hid, hoff, hmaps⟩ := open_fresh hopen
  have hnext : w.reserve.writeOffset = 224 := by
    rw [reserve, hoff]
    rfl
  obtain ⟨s₁, hrun₁, -, -, hw₁, hs₁, hid₁, hoff₁, hm₁, hpc₁, -⟩ := run_appends
    ⟨fun _ => 0, fun _ => none⟩ (p := true) (e := {})
    (s := ({ writer := w, dir := dir } : System Bool).reserved false {})
    6552 hmaps hw hs (by decide) rfl (by show w.reserve.writeOffset + _ ≤ _; rw [hnext]; decide)
  replace hoff₁ : s₁.writer.writeOffset = w.reserve.writeOffset + totalRecordSize * 6552 := hoff₁
  rw [hnext] at hoff₁
  have hwaits : s₁.pc false = .check {} w.currentSegmentId w.writeOffset := by
    rw [hpc₁]
    rfl
  obtain ⟨s, hrun, hlog⟩ := run_rolled_under (d := {}) hopen (by decide) hw₁ hs₁ hm₁
    Bool.false_ne_true hwaits (by rw [hoff]; decide) (by rw [hpc₁]; rfl)
    (by rw [hoff₁]; decide) (by rw [hoff₁]; decide)
  have hdup : ¬ (s.log.map Written.place).Nodup := by
    rw [hlog, List.nodup_append]
    exact fun h => absurd h.2.1 (by simp [segmentHeaderSize, hoff])
  refine ⟨w, dir, hstart, s, ?_, hdup, fun hkept => hdup hkept.own_slot⟩
  rw [Runs.run_cons (step_append hw rfl), Runs.run_append hrun₁, hrun]

end ConcurrentAppend

end Ume
