import Ume.Event.AppendSafety
import Ume.Event.Corruption

/-! Concurrent appends that all fit into the current segment, and what a reader of its
file gets at any moment of the run. -/

namespace Ume

open ByteString JournalWriter

/-- Calls of `read_next` that return these events one after the other. -/
inductive Calls (dir : Directory) : JournalReader → List Event → JournalReader → Prop where
  | nil {r : JournalReader} : Calls dir r [] r
  | cons {r r₁ r' : JournalReader} {e : Event} {events : List Event} {fuel : Nat}
      (h : JournalReader.readNext dir fuel r = some ⟨.kOk, some e, r₁⟩)
      (hr : Calls dir r₁ events r') : Calls dir r (e :: events) r'

theorem calls_records {dir : Directory} {r : JournalReader} {recs : List (UInt64 × Event)}
    {rest : List UInt8} (hopen : r.isOpen = true) (hb : r.Bounded)
    (h : r.data.drop r.currentOffset = recordsBytes recs ++ rest)
    (ha : ∀ x ∈ recs, EventSerializer.accepts x.2 = true) :
    ∃ r', Calls dir r (recs.map (·.2)) r' := by
  induction recs generalizing r with
  | nil => exact ⟨r, .nil⟩
  | cons x recs ih =>
    rw [recordsBytes_cons, List.append_assoc] at h
    have hv := verdict_record h
    rw [if_pos (ha x List.mem_cons_self)] at hv
    obtain ⟨hstep, hb'⟩ := JournalReader.readNextStep_of_deliver dir hb hv
    have hcall : JournalReader.readNext dir 1 r = some ⟨.kOk, some x.2,
        r.scanned { records := 1, bytes := (160 : UInt32).toNat }
          (r.currentOffset + (160 : UInt32).toNat)⟩ := by
      simp [JournalReader.readNext, hopen, Loop.run, hstep]
    have hrest : r.data.drop (r.currentOffset + totalRecordSize) = recordsBytes recs ++ rest := by
      rw [← List.drop_drop, h, List.drop_left' (length_recordBytes x.1 x.2)]
    obtain ⟨r', hcalls⟩ := ih (r := r.scanned { records := 1, bytes := (160 : UInt32).toNat }
      (r.currentOffset + (160 : UInt32).toNat)) hopen hb' hrest
      fun y hy => ha y (List.mem_cons_of_mem _ hy)
    exact ⟨r', .cons hcall hcalls⟩

theorem returns_of_reads_nil {dir : Directory} {r r' : JournalReader} {ds : List Delivery}
    (h : Reads dir r ds r') (hds : ds = []) :
    Loop.Returns (JournalReader.readNextStep dir) r ⟨.kNotFound, none, r'⟩ := by
  induction h with
  | stop h => exact Loop.returns_of_inr h
  | pass h _ ih => exact (Loop.returns_inl_iff h).mpr (ih hds)
  | deliver => cases hds

theorem not_calls_of_reads_nil {dir : Directory} {r r' r'' : JournalReader} {e : Event}
    {events : List Event} (hopen : r.isOpen = true) (h : Reads dir r [] r') :
    ¬ Calls dir r (e :: events) r'' := by
  intro hcalls
  cases hcalls with
  | cons hcall =>
    rw [JournalReader.readNext_of_isOpen dir hopen] at hcall
    cases (returns_of_reads_nil h rfl).unique ⟨_, hcall⟩

theorem drop_eq_recordsBytes {data : List UInt8} {off : Nat} {recs : List (UInt64 × Event)}
    (h : ∀ i x, recs[i]? = some x →
      slice data (off + totalRecordSize * i) totalRecordSize = recordBytes x.1 x.2) :
    data.drop off = recordsBytes recs ++ data.drop (off + totalRecordSize * recs.length) := by
  induction recs generalizing off with
  | nil => rfl
  | cons x recs ih =>
    have hfirst : slice data off totalRecordSize = recordBytes x.1 x.2 := h 0 x rfl
    have hrest : data.drop (off + totalRecordSize) = recordsBytes recs ++
        data.drop (off + totalRecordSize + totalRecordSize * recs.length) := by
      refine ih fun i y hy => ?_
      rw [Nat.add_assoc, Nat.add_comm totalRecordSize, ← Nat.mul_succ]
      exact h (i + 1) y hy
    rw [recordsBytes_cons, ← hfirst, List.append_assoc, List.length_cons, Nat.mul_succ,
      Nat.add_comm (totalRecordSize * recs.length), ← Nat.add_assoc, ← hrest, slice,
      ← List.drop_drop, List.take_append_drop]

namespace ConcurrentAppend

variable {ι : Type*}

/-- No rollover: every offset that is reserved fits. -/
def Fits (s : System ι) : Action ι → Prop
  | .append _ _ => s.writer.writeOffset + totalRecordSize ≤ s.writer.segmentSizeBytes
  | .next _ => True

/-- Appends return in the order of their slots, and hand over events that `validate`
accepts. -/
def Orderly (s : System ι) : Action ι → Prop
  | .append _ e => EventSerializer.validate (some e.toBytes) = .kOk
  | .next p =>
    match s.pc p with
    | .copy _ _ off _ => ∀ q j off', q ≠ p →
        (s.pc q).reservation s.writer.segmentSizeBytes = some (j, off') → off < off'
    | _ => True

/-- What the file of the current segment may hold at this moment: anything in the slots
that threads are copying to. -/
structure Seen (s : System ι) (data : List UInt8) : Prop where
  length : data.length = s.writer.segmentSizeBytes
  header : ∀ bytes, segmentsOf s.dir s.writer.currentSegmentId = some bytes →
    data.take segmentHeaderSize = bytes.take segmentHeaderSize
  slots : ∀ k, (∀ p e j seq, s.pc p ≠ .copy e j (slotOffset k) seq) →
    slotOffset k + totalRecordSize ≤ s.writer.segmentSizeBytes →
    slice data (slotOffset k) totalRecordSize =
      slotBytes s.dir s.writer.segmentSizeBytes s.writer.currentSegmentId k

def Pc.FitsIn (size : Nat) : Pc → Prop
  | .idle | .sequence _ _ _ | .copy _ _ _ _ => True
  | .check _ _ off => off + totalRecordSize ≤ size
  | _ => False

structure Fitting (env : SessionEnv) (dir₀ : Directory) (size : Nat) (s : System ι) : Prop where
  inv : Inv dir₀ size s
  header : ∀ bytes, segmentsOf s.dir s.writer.currentSegmentId = some bytes →
    bytes.take segmentHeaderSize = (segmentHeader env s.writer.currentSegmentId size).toBytes
  places : ∀ p, (s.pc p).FitsIn size

variable [DecidableEq ι] {env : SessionEnv} {dir₀ : Directory} {size : Nat} {s s' : System ι}
  {p : ι}

theorem fitsIn_update {pc : Pc} (h : ∀ q, (s.pc q).FitsIn size) (hpc : pc.FitsIn size) (q : ι) :
    (Function.update s.pc p pc q).FitsIn size :=
  (Function.forall_update_iff s.pc fun _ pc => pc.FitsIn size).mpr ⟨hpc, fun q _ => h q⟩ q

omit [DecidableEq ι] in
theorem Fitting.harmless (h : Fitting env dir₀ size s) (hmax : size < 2 ^ 63) {a : Action ι}
    (hfits : Fits s a) : Harmless s a := by
  cases a with
  | append p e =>
    have hle : s.writer.writeOffset + totalRecordSize ≤ size := h.inv.size_eq ▸ hfits
    exact hle.trans_lt (by omega)
  | next p =>
    have hplace := h.places p
    cases hp : s.pc p with
    | roll e => rw [hp] at hplace; exact hplace.elim
    | again e => rw [hp] at hplace; exact hplace.elim
    | _ => simp only [Harmless, hp]

theorem Fitting.next_cases (h : Fitting env dir₀ size s) (hnext : next env s p = some s') :
    (∃ e j off, s.pc p = .check e j off ∧ s' = s.setPc p (.sequence e j off)) ∨
    (∃ e j off, s.pc p = .sequence e j off ∧
      s' = { s.setPc p (.copy e j off (s.writer.sequenceCounter + 1)) with
        writer := { s.writer with sequenceCounter := s.writer.sequenceCounter + 1 } }) ∨
    ∃ e j off seq dir', s.pc p = .copy e j off seq ∧
      copyRecord s.writer s.dir seq e off = some dir' ∧
      s' = { s.setPc p .idle with
        dir := dir'
        writer :=
          { s.writer with
            totalEventsWritten := s.writer.totalEventsWritten + 1
            totalBytesWritten := s.writer.totalBytesWritten + UInt64.ofNat totalRecordSize }
        log := s.log ++ [⟨seq, e, s.writer.currentSegmentId, off, j⟩] } := by
  have hplace := h.places p
  unfold next at hnext
  cases hp : s.pc p with
  | idle => simp only [hp, reduceCtorEq] at hnext
  | check e j off =>
    rw [hp] at hplace
    have hx : s.writer.exceeds off = false := by
      rw [← Bool.not_eq_true, h.inv.exceeds_iff (h.inv.check_lt p e j off hp)]
      exact Nat.not_lt.mpr hplace
    simp only [hp, hx, Bool.false_eq_true, if_false, Option.some.injEq] at hnext
    exact .inl ⟨e, j, off, rfl, hnext.symm⟩
  | sequence e j off =>
    simp only [hp, Option.some.injEq] at hnext
    exact .inr (.inl ⟨e, j, off, rfl, hnext.symm⟩)
  | copy e j off seq =>
    obtain ⟨dir', hcopy, -⟩ := h.inv.copy hp
    simp only [hp, hcopy, Option.map_some, Option.some.injEq] at hnext
    exact .inr (.inr ⟨e, j, off, seq, dir', rfl, hcopy, hnext.symm⟩)
  | _ => rw [hp] at hplace; exact hplace.elim

omit [DecidableEq ι] in
theorem Fitting.header_copy (h : Fitting env dir₀ size s) {e : Event} {j off : Nat} {seq : UInt64}
    {dir' : Directory} (hp : s.pc p = .copy e j off seq)
    (hcopy : copyRecord s.writer s.dir seq e off = some dir') (bytes : List UInt8)
    (hbytes : segmentsOf dir' s.writer.currentSegmentId = some bytes) :
    bytes.take segmentHeaderSize = (segmentHeader env s.writer.currentSegmentId size).toBytes := by
  have hmine : (s.pc p).reservation size = some (j, off) := by rw [hp]; rfl
  obtain ⟨-, ⟨k, rfl⟩, hfit, -, -⟩ := h.inv.reserved p j off hmine
  obtain ⟨entry, hl, hlen⟩ := h.inv.current
  obtain ⟨file, hfile, hinsert⟩ :=
    copyRecord_insert h.inv.mapped hl (hfit.trans_eq hlen.symm) seq e
  obtain rfl := Option.some.inj (hinsert.symm.trans hcopy)
  rw [segmentsOf_insert, Function.update_self] at hbytes
  obtain rfl := Option.some.inj hbytes
  have hold := h.header entry.file.bytes (by rw [segmentsOf, hl, Option.map_some])
  have hoff : segmentHeaderSize ≤ slotOffset k := Nat.le_add_right ..
  rw [← hold, hfile, splice, List.append_assoc, List.take_append_of_le_length, List.take_take,
    Nat.min_eq_left hoff]
  rw [List.length_take, hlen]
  omega

theorem Fitting.step {a : Action ι} (hopen : OpensAll env size) (hmin : 1024 * 1024 ≤ size)
    (h : Fitting env dir₀ size s) (hfits : Fits s a)
    (hs : ConcurrentAppend.step env s a = some s') : Fitting env dir₀ size s' := by
  have hmax := (opensAll_iff.mp hopen).2.2
  have hinv := h.inv.step hopen hmin (h.harmless hmax hfits) hs
  cases a with
  | append p e =>
    cases hp : s.pc p with
    | idle =>
      obtain rfl := Option.some.inj ((step_append h.inv.isOpen hp).symm.trans hs)
      refine ⟨hinv, h.header, fitsIn_update h.places ?_⟩
      exact h.inv.size_eq ▸ hfits
    | _ => simp only [ConcurrentAppend.step, hp, reduceCtorEq] at hs
  | next p =>
    obtain ⟨e, j, off, hp, rfl⟩ | ⟨e, j, off, hp, rfl⟩ | ⟨e, j, off, seq, dir', hp, hcopy, rfl⟩ :=
      h.next_cases hs
    · exact ⟨hinv, h.header, fitsIn_update h.places trivial⟩
    · exact ⟨hinv, h.header, fitsIn_update h.places trivial⟩
    · exact ⟨hinv, h.header_copy hp hcopy, fitsIn_update h.places trivial⟩

def Pc.event : Pc → Option Event
  | .idle => none
  | .check e _ _ | .lock e | .roll e | .again e | .unlock e _ _ | .sequence e _ _
  | .copy e _ _ _ => some e

/-- Returned appends fill the slots from the first on, and every other slot below the
write offset is held by an append that has not returned. -/
structure Filling (size : Nat) (s : System ι) : Prop where
  inOrder : ∀ i w, s.log[i]? = some w →
    w.segment = s.writer.currentSegmentId ∧ w.offset = slotOffset i
  filled : ∀ k, s.log.length ≤ k → slotOffset k < s.writer.writeOffset →
    ∃ p, (s.pc p).reservation size = some (s.writer.currentSegmentId, slotOffset k)
  accepted : ∀ w ∈ s.log, EventSerializer.accepts w.event = true
  pending : ∀ p, ∀ e ∈ (s.pc p).event, EventSerializer.accepts e = true

theorem slotOffset_lt_iff {k k' : Nat} : slotOffset k < slotOffset k' ↔ k < k' := by
  unfold slotOffset totalRecordSize
  omega

section Filling

theorem Filling.pending_update (h : Filling size s) {pc : Pc}
    (hpc : ∀ e ∈ pc.event, EventSerializer.accepts e = true) (q : ι) :
    ∀ e ∈ (Function.update s.pc p pc q).event, EventSerializer.accepts e = true :=
  (Function.forall_update_iff s.pc fun _ pc =>
    ∀ e ∈ pc.event, EventSerializer.accepts e = true).mpr ⟨hpc, fun q _ => h.pending q⟩ q

theorem Filling.append (h : Filling size s) (hfit : Fitting env dir₀ size s) {e : Event}
    (hp : s.pc p = .idle) (hle : s.writer.writeOffset + totalRecordSize ≤ size)
    (hmax : size < 2 ^ 63) (ha : EventSerializer.accepts e = true) :
    Filling size (s.reserved p e) := by
  have hoff : (s.reserved p e).writer.writeOffset = s.writer.writeOffset + totalRecordSize :=
    u64_of_lt (by omega)
  refine ⟨h.inOrder, ?_, h.accepted, h.pending_update fun e' he' => ?_⟩
  · intro k hk hlt
    rw [hoff] at hlt
    obtain ⟨k₀, hk₀⟩ := hfit.inv.aligned
    by_cases hnew : slotOffset k < s.writer.writeOffset
    · obtain ⟨q, hq⟩ := h.filled k hk hnew
      have hqp : q ≠ p := by
        rintro rfl
        rw [hp] at hq
        cases hq
      refine ⟨q, ?_⟩
      rw [System.reserved, System.setPc]
      dsimp only
      rw [Function.update_of_ne hqp]
      exact hq
    · have heq : slotOffset k = s.writer.writeOffset := by
        rw [hk₀] at hnew hlt ⊢
        have hk' : k = k₀ := by
          unfold slotOffset totalRecordSize at hnew hlt
          omega
        rw [hk']
      refine ⟨p, ?_⟩
      rw [System.pc_reserved, Pc.reservation, if_pos hle, heq]
      rfl
  · obtain rfl := Option.some.inj he'
    exact ha

theorem Filling.setPc (h : Filling size s) {pc : Pc} {seq : UInt64}
    (hres : pc.reservation size = (s.pc p).reservation size)
    (hevent : pc.event = (s.pc p).event) :
    Filling size
      { s.setPc p pc with writer := { s.writer with sequenceCounter := seq } } := by
  refine ⟨h.inOrder, ?_, h.accepted, h.pending_update ?_⟩
  · intro k hk hlt
    obtain ⟨q, hq⟩ := h.filled k hk hlt
    exact ⟨q, (reservation_update hres q).trans hq⟩
  · rw [hevent]
    exact h.pending p

omit [DecidableEq ι] in
/-- The copy goes to the first slot that is not filled. -/
theorem Filling.copy_slot (h : Filling size s) (hfit : Fitting env dir₀ size s) {e : Event}
    {j off : Nat} {seq : UInt64} (hp : s.pc p = .copy e j off seq)
    (hord : Orderly s (.next p)) :
    j = s.writer.currentSegmentId ∧ off = slotOffset s.log.length := by
  have hmine : (s.pc p).reservation size = some (j, off) := by rw [hp]; rfl
  obtain ⟨rfl, ⟨k, rfl⟩, -, hlt, hfresh⟩ := hfit.inv.reserved p j off hmine
  refine ⟨rfl, ?_⟩
  have hle : s.log.length ≤ k := by
    by_contra hk
    have hget := List.getElem?_eq_getElem (Nat.lt_of_not_le hk)
    obtain ⟨hseg, hoff⟩ := h.inOrder k _ hget
    exact hfresh (List.mem_map.mpr ⟨_, List.mem_of_getElem? hget, Prod.ext hseg hoff⟩)
  rcases Nat.lt_or_eq_of_le hle with hlow | heq
  · obtain ⟨q, hq⟩ := h.filled s.log.length le_rfl ((slotOffset_lt_iff.mpr hlow).trans hlt)
    have hqp : q ≠ p := by
      rintro rfl
      rw [hq] at hmine
      exact absurd (slotOffset_lt_iff.mpr hlow).ne (by simpa using hmine)
    simp only [Orderly, hp] at hord
    have hgt := hord q _ _ hqp (hfit.inv.size_eq ▸ hq)
    exact absurd (slotOffset_lt_iff.mp hgt) hlow.not_gt
  · rw [heq]

theorem Filling.copy (h : Filling size s) (hfit : Fitting env dir₀ size s) {e : Event}
    {j off : Nat} {seq : UInt64} {dir' : Directory} (hp : s.pc p = .copy e j off seq)
    (hord : Orderly s (.next p)) :
    Filling size
      { s.setPc p .idle with
        dir := dir'
        writer :=
          { s.writer with
            totalEventsWritten := s.writer.totalEventsWritten + 1
            totalBytesWritten := s.writer.totalBytesWritten + UInt64.ofNat totalRecordSize }
        log := s.log ++ [⟨seq, e, s.writer.currentSegmentId, off, j⟩] } := by
  obtain ⟨rfl, rfl⟩ := h.copy_slot hfit hp hord
  refine ⟨?_, ?_, ?_, h.pending_update (by simp [Pc.event])⟩
  · intro i w hw
    rcases Nat.lt_or_ge i s.log.length with hi | hi
    · rw [List.getElem?_append_left hi] at hw
      exact h.inOrder i w hw
    · have hlast := (List.getElem?_eq_some_iff.mp hw).1
      rw [List.length_append, List.length_singleton] at hlast
      obtain rfl : i = s.log.length := by omega
      rw [List.getElem?_append_right le_rfl, Nat.sub_self] at hw
      obtain rfl := Option.some.inj hw
      exact ⟨rfl, rfl⟩
  · intro k hk hlt
    rw [List.length_append, List.length_singleton] at hk
    obtain ⟨q, hq⟩ := h.filled k (Nat.le_of_succ_le hk) hlt
    have hqp : q ≠ p := by
      rintro rfl
      rw [hp, Pc.reservation, Option.some.injEq, Prod.mk.injEq] at hq
      exact absurd hq.2 (slotOffset_lt_iff.mpr hk).ne
    refine ⟨q, ?_⟩
    dsimp only [System.setPc]
    rw [Function.update_of_ne hqp]
    exact hq
  · rw [List.forall_mem_append, List.forall_mem_singleton]
    exact ⟨h.accepted, h.pending p e (by rw [hp]; rfl)⟩

theorem Filling.step {a : Action ι} (hopen : OpensAll env size) (h : Filling size s)
    (hfit : Fitting env dir₀ size s) (hfits : Fits s a) (hord : Orderly s a)
    (hs : ConcurrentAppend.step env s a = some s') : Filling size s' := by
  have hmax := (opensAll_iff.mp hopen).2.2
  cases a with
  | append p e =>
    cases hp : s.pc p with
    | idle =>
      obtain rfl := Option.some.inj ((step_append hfit.inv.isOpen hp).symm.trans hs)
      exact h.append hfit hp (hfit.inv.size_eq ▸ hfits) hmax (decide_eq_true hord)
    | _ => simp only [ConcurrentAppend.step, hp, reduceCtorEq] at hs
  | next p =>
    obtain ⟨e, j, off, hp, rfl⟩ | ⟨e, j, off, hp, rfl⟩ | ⟨e, j, off, seq, dir', hp, hcopy, rfl⟩ :=
      hfit.next_cases hs
    · have hplace := hfit.places p
      rw [hp] at hplace
      have hres : (Pc.sequence e j off).reservation size = (s.pc p).reservation size := by
        rw [hp]
        exact (if_pos hplace).symm
      exact h.setPc hres (by rw [hp]; rfl)
    · exact h.setPc (by rw [hp]; rfl) (by rw [hp]; rfl)
    · exact h.copy hfit hp hord

end Filling

section Reading

theorem slotBytes_empty {j k : Nat} (h : slotOffset k + totalRecordSize ≤ size) :
    slotBytes ∅ size j k = List.replicate totalRecordSize 0 := by
  have hnone : segmentsOf ∅ j = none := rfl
  rw [slotBytes, hnone, Option.getD_none, List.takeD_nil, slice, List.drop_replicate,
    List.take_replicate, Nat.min_eq_left (by omega)]

omit [DecidableEq ι]

theorem Seen.validSegment {data : List UInt8} (hseen : Seen s data)
    (h : Fitting env dir₀ size s) : validSegment data = true := by
  obtain ⟨entry, hl, -⟩ := h.inv.current
  have hbytes : segmentsOf s.dir s.writer.currentSegmentId = some entry.file.bytes := by
    rw [segmentsOf, hl, Option.map_some]
  rw [← List.take_append_drop segmentHeaderSize data, hseen.header _ hbytes, h.header _ hbytes]
  exact validSegment_append (segmentHeader_valid _ _ _) _

theorem Seen.loadSegment {data : List UInt8} {dir' : Directory} (hseen : Seen s data)
    (h : Fitting env dir₀ size s) (hread : MmapFile.openReadOnly dir'
      (buildSegmentPath s.writer.currentSegmentId) = .ok data) :
    Ume.loadSegment dir' (buildSegmentPath s.writer.currentSegmentId) = some data := by
  rw [Ume.loadSegment, hread]
  exact if_pos (hseen.validSegment h)

theorem Seen.slot {data : List UInt8} (hseen : Seen s data) (h : Fitting env dir₀ size s)
    {w : Written} {k : Nat} (hw : w ∈ s.log) (hseg : w.segment = s.writer.currentSegmentId)
    (hoff : w.offset = slotOffset k) :
    slice data (slotOffset k) totalRecordSize = recordBytes w.seq w.event := by
  have hfits := (h.inv.log_ok w hw).2.2.2.1
  rw [hoff] at hfits
  rw [hseen.slots k ?_ (h.inv.size_eq.symm ▸ hfits), h.inv.size_eq, ← hseg]
  · exact h.inv.kept w hw k hoff
  · intro p e j seq hp
    have hmine : (s.pc p).reservation size = some (j, slotOffset k) := by rw [hp]; rfl
    obtain ⟨rfl, -, -, -, hfresh⟩ := h.inv.reserved p j _ hmine
    exact hfresh (List.mem_map.mpr ⟨w, hw, Prod.ext hseg hoff⟩)

theorem Filling.calls (h : Filling size s) (hfit : Fitting env dir₀ size s) {dir' : Directory}
    {data : List UInt8} (hread : MmapFile.openReadOnly dir'
      (buildSegmentPath s.writer.currentSegmentId) = .ok data) (hseen : Seen s data) :
    ∃ r r', JournalReader.openSegment dir' {} (buildSegmentPath s.writer.currentSegmentId) =
        (.kOk, r) ∧ Calls dir' r (s.log.map (·.event)) r' := by
  have hload := hseen.loadSegment hfit hread
  have hrecs : data.drop segmentHeaderSize =
      recordsBytes (s.log.map fun w => (w.seq, w.event)) ++
        data.drop (segmentHeaderSize +
          totalRecordSize * (s.log.map fun w => (w.seq, w.event)).length) := by
    apply drop_eq_recordsBytes
    intro i x hx
    rw [List.getElem?_map, Option.map_eq_some_iff] at hx
    obtain ⟨w, hw, rfl⟩ := hx
    obtain ⟨hseg, hoff⟩ := h.inOrder i w hw
    exact hseen.slot hfit (List.mem_of_getElem? hw) hseg hoff
  have ha : ∀ x ∈ s.log.map fun w => (w.seq, w.event), EventSerializer.accepts x.2 = true := by
    intro x hx
    obtain ⟨w, hw, rfl⟩ := List.mem_map.mp hx
    exact h.accepted w hw
  obtain ⟨r', hcalls⟩ : ∃ r', Calls dir'
      (JournalReader.opened (buildSegmentPath s.writer.currentSegmentId) [] data)
      ((s.log.map fun w => (w.seq, w.event)).map (·.2)) r' :=
    calls_records rfl (JournalReader.opened_bounded [] hload) hrecs ha
  rw [List.map_map] at hcalls
  exact ⟨_, r', openPaths_of_loadSegment [] hload, hcalls⟩

/-- In a new directory, a reader takes the first slot for the end until it is copied to. -/
theorem Seen.reads_nil {data : List UInt8} {dir' : Directory} (hseen : Seen s data)
    (h : Fitting env ∅ size s) (hmin : 1024 * 1024 ≤ size)
    (hread : MmapFile.openReadOnly dir' (buildSegmentPath s.writer.currentSegmentId) = .ok data)
    (hfree : (s.writer.currentSegmentId, slotOffset 0) ∉ s.log.map Written.place)
    (hcopy : ∀ p e j seq, s.pc p ≠ .copy e j (slotOffset 0) seq) :
    ∃ r', Reads dir'
      (JournalReader.opened (buildSegmentPath s.writer.currentSegmentId) [] data) [] r' := by
  have hfits : slotOffset 0 + totalRecordSize ≤ size := by
    unfold slotOffset segmentHeaderSize totalRecordSize
    omega
  have hslot : slice data (slotOffset 0) totalRecordSize = List.replicate totalRecordSize 0 := by
    rw [hseen.slots 0 hcopy (h.inv.size_eq.symm ▸ hfits), h.inv.size_eq, h.inv.others _ _ hfree]
    exact slotBytes_empty hfits
  have hv : verdict data segmentHeaderSize = .endOfSegment := by
    refine verdict_endMark rfl (.inr ?_)
    have htake := congrArg (List.take 8) hslot
    rw [slice, List.take_take] at htake
    exact htake
  exact (reads_opened_iff (hseen.loadSegment h hread)).mpr ((scans_end_iff hv).mpr rfl)

theorem Fitting.exists_seen (h : Fitting env dir₀ size s) (hmin : 1024 * 1024 ≤ size) :
    ∃ dir' data, MmapFile.openReadOnly dir' (buildSegmentPath s.writer.currentSegmentId) =
        .ok data ∧ Seen s data := by
  obtain ⟨entry, hl, hlen⟩ := h.inv.current
  have hbytes : segmentsOf s.dir s.writer.currentSegmentId = some entry.file.bytes := by
    rw [segmentsOf, hl, Option.map_some]
  have hne : entry.file.bytes ≠ [] := by
    intro hnil
    rw [hnil, List.length_nil] at hlen
    omega
  refine ⟨(∅ : Directory).insert (buildSegmentPath s.writer.currentSegmentId)
    { file := entry.file }, entry.file.bytes, ?_, ?_, ?_, ?_⟩
  · rw [MmapFile.openReadOnly, AList.lookup_insert]
    exact if_neg hne
  · exact hlen.trans h.inv.size_eq.symm
  · intro bytes hb
    rw [Option.some.inj (hbytes.symm.trans hb)]
  · intro k _ _
    rw [slotBytes, hbytes, Option.getD_some, h.inv.size_eq, List.takeD_eq_take _ hlen.ge, ← hlen,
      List.take_length]

end Reading

section Opened

/-- The environment in which no segment fails to open. -/
def faultless (env : SessionEnv) : SessionEnv := { env with openFault := fun _ => none }

theorem openReadWrite_of_rollSegmentLocked {w w' : JournalWriter} {dir : Directory}
    (h : rollSegmentLocked env w dir₀ = some (.kOk, w', dir)) :
    (MmapFile.openReadWrite (env.openFault w.currentSegmentId) dir₀
      (buildSegmentPath w.currentSegmentId) w.segmentSizeBytes).1 = .kOk := by
  unfold rollSegmentLocked at h
  dsimp only at h
  split at h
  · rename_i hopened
    rw [hopened]
  · rename_i status dir₁ _ hopened
    obtain rfl : status = .kOk := (Prod.mk.inj (Option.some.inj h)).1
    rw [hopened]

theorem rollSegmentLocked_faultless {w : JournalWriter}
    (h : env.openFault w.currentSegmentId = none) (dir : Directory) :
    rollSegmentLocked (faultless env) w dir = rollSegmentLocked env w dir := by
  unfold rollSegmentLocked
  rw [h]
  rfl

theorem open_faultless_eq (h : env.openFault 0 = none) (w₀ : JournalWriter) (dir₀ : Directory)
    (size : Nat) : JournalWriter.open (faultless env) w₀ dir₀ size =
      JournalWriter.open env w₀ dir₀ size := by
  have hroll : rollSegmentLocked (faultless env)
      { w₀ with segmentSizeBytes := size, currentSegmentId := 0 } dir₀ = _ :=
    rollSegmentLocked_faultless h dir₀
  unfold JournalWriter.open
  dsimp only
  rw [hroll]

theorem open_faultless {w₀ w : JournalWriter} {dir : Directory}
    (hstart : JournalWriter.open env w₀ dir₀ size = some (.kOk, w, dir)) :
    OpensAll (faultless env) size ∧
      JournalWriter.open (faultless env) w₀ dir₀ size = some (.kOk, w, dir) := by
  have hopened := hstart
  unfold JournalWriter.open at hopened
  split_ifs at hopened with hw hlt
  · cases hopened
  · cases hopened
  obtain ⟨⟨status, w₁, dir₁⟩, hroll, hdone⟩ := Option.bind_eq_some_iff.mp hopened
  have hst : status = .kOk := by
    cases status <;> first | rfl | cases hdone
  subst hst
  obtain ⟨hfault, hpos, hmax⟩ :=
    MmapFile.openReadWrite_eq_ok (openReadWrite_of_rollSegmentLocked hroll)
  exact ⟨opensAll_iff.mpr ⟨fun _ => rfl, hpos, hmax⟩, (open_faultless_eq hfault ..).trans hstart⟩

theorem Fitting.step_faultless {env' : SessionEnv} (h : Fitting env' dir₀ size s) (a : Action ι) :
    ConcurrentAppend.step env s a = ConcurrentAppend.step (faultless env) s a := by
  cases a with
  | append p e => rfl
  | next p =>
    have hplace := h.places p
    cases hp : s.pc p with
    | roll e => rw [hp] at hplace; exact hplace.elim
    | _ => simp only [ConcurrentAppend.step, next, hp]

omit [DecidableEq ι] in
theorem Fitting.opened {w₀ w : JournalWriter} {dir : Directory} (hopen : OpensAll env size)
    (hstart : JournalWriter.open env w₀ dir₀ size = some (.kOk, w, dir)) :
    Fitting env dir₀ size ({ writer := w, dir := dir } : System ι) := by
  refine ⟨(Inv.opened hopen hstart).2, ?_, fun _ => trivial⟩
  obtain ⟨-, file, hfile, rfl, rfl⟩ := open_eq_ok hopen hstart
  intro bytes hbytes
  rw [segmentsOf_insert, Function.update_self] at hbytes
  obtain rfl := Option.some.inj hbytes
  rw [hfile, writtenSegment, List.append_assoc]
  exact List.take_left' (JournalSegmentHeader.length_toBytes _)

omit [DecidableEq ι] in
theorem Filling.opened {w₀ w : JournalWriter} {dir : Directory} (hopen : OpensAll env size)
    (hstart : JournalWriter.open env w₀ dir₀ size = some (.kOk, w, dir)) :
    Filling size ({ writer := w, dir := dir } : System ι) := by
  obtain ⟨-, file, hfile, rfl, rfl⟩ := open_eq_ok hopen hstart
  refine ⟨by simp, fun k _ hlt => ?_, by simp, by simp [Pc.event]⟩
  exact absurd hlt (Nat.not_lt.mpr (Nat.le_add_right ..))

end Opened

theorem Fitting.run {w₀ w : JournalWriter} {dir : Directory}
    (hstart : JournalWriter.open env w₀ dir₀ size = some (.kOk, w, dir)) {as : List (Action ι)}
    (hok : Runs.Along (ConcurrentAppend.step env) Fits { writer := w, dir := dir } as)
    (hrun : Runs.run (ConcurrentAppend.step env) { writer := w, dir := dir } as = some s) :
    Fitting (faultless env) dir₀ size s := by
  obtain ⟨hopen, hstart'⟩ := open_faultless hstart
  have hmin := (open_eq_ok hopen hstart').1
  have hstep : ∀ (s : System ι) a s', Fitting (faultless env) dir₀ size s → Fits s a →
      ConcurrentAppend.step env s a = some s' → Fitting (faultless env) dir₀ size s' := by
    intro s a s' h hfits hs
    rw [h.step_faultless] at hs
    exact h.step hopen hmin hfits hs
  exact Runs.invariant_along hstep (Fitting.opened hopen hstart') hok hrun

/-- At any moment of a run in which no append overtakes another, a reader of the file
returns the events of all appends that have returned. -/
theorem returned_appends_readable {w₀ w : JournalWriter} {dir : Directory}
    (hstart : JournalWriter.open env w₀ dir₀ size = some (.kOk, w, dir)) {as : List (Action ι)}
    (hok : Runs.Along (step env) (fun s a => Fits s a ∧ Orderly s a)
      { writer := w, dir := dir } as)
    (hrun : Runs.run (step env) { writer := w, dir := dir } as = some s) {dir' : Directory}
    {data : List UInt8} (hread : MmapFile.openReadOnly dir'
      (buildSegmentPath s.writer.currentSegmentId) = .ok data) (hseen : Seen s data) :
    ∃ r r', JournalReader.openSegment dir' {} (buildSegmentPath s.writer.currentSegmentId) =
        (.kOk, r) ∧ Calls dir' r (s.log.map (·.event)) r' := by
  obtain ⟨hopen, hstart'⟩ := open_faultless hstart
  have hmin := (open_eq_ok hopen hstart').1
  have hstep : ∀ (s : System ι) a s', Fitting (faultless env) dir₀ size s ∧ Filling size s →
      Fits s a ∧ Orderly s a → step env s a = some s' →
      Fitting (faultless env) dir₀ size s' ∧ Filling size s' := by
    intro s a s' ⟨hfit, hfill⟩ ⟨hfits, hord⟩ hs
    rw [hfit.step_faultless] at hs
    exact ⟨hfit.step hopen hmin hfits hs, hfill.step hopen hfit hfits hord hs⟩
  obtain ⟨hfit, hfill⟩ := Runs.invariant_along hstep
    ⟨Fitting.opened hopen hstart', Filling.opened hopen hstart'⟩ hok hrun
  exact hfill.calls hfit hread hseen

section Schedules

variable {e : Event} {j off : Nat}

/-- The end of an append that has the lowest of the reserved slots. -/
theorem orderly_finish (hp : s.pc p = .check e j off) (hx : s.writer.exceeds off = false)
    (hlow : ∀ q j' off', q ≠ p →
      (s.pc q).reservation s.writer.segmentSizeBytes = some (j', off') → off < off') :
    Runs.Along (step env) (fun s a => Fits s a ∧ Orderly s a) s (List.replicate 3 (.next p)) := by
  refine ⟨⟨trivial, by simp only [Orderly, hp]⟩, fun s₁ h₁ => ?_⟩
  obtain rfl := Option.some.inj ((step_check hp hx).symm.trans h₁)
  refine ⟨⟨trivial, by simp only [Orderly, System.setPc, Function.update_self]⟩,
    fun s₂ h₂ => ?_⟩
  simp only [step, next, System.setPc, Function.update_self, Option.some.injEq] at h₂
  subst h₂
  refine ⟨⟨trivial, ?_⟩, fun _ _ => trivial⟩
  simp only [Orderly, Function.update_self]
  intro q j' off' hq
  rw [Function.update_of_ne hq, Function.update_of_ne hq]
  exact hlow q j' off' hq

theorem fits_next (n : Nat) :
    Runs.Along (step env) Fits s (List.replicate n (.next p)) := by
  induction n generalizing s with
  | zero => trivial
  | succ n ih => exact ⟨trivial, fun _ _ => ih⟩

end Schedules

theorem along_bothReserved {w : JournalWriter} {dir : Directory} {e : Event}
    (hw : w.isOpen = true) (hs : w.segmentSizeBytes = 1048576) (hoff : w.writeOffset = 64)
    {ok : System Bool → Action Bool → Prop}
    (hfirst : ∀ s, Fits s (.append false {}) → ok s (.append false {}))
    (hsecond : ∀ s, Fits s (.append true e) → ok s (.append true e)) {as : List (Action Bool)}
    (h : Runs.Along (step env) ok (bothReserved w dir e) as) :
    Runs.Along (step env) ok { writer := w, dir := dir }
      (.append false {} :: .append true e :: as) := by
  refine .cons (hfirst _ ?_) (step_append hw rfl) (.cons (hsecond _ ?_) (step_append hw rfl) h)
  · show w.writeOffset + totalRecordSize ≤ w.segmentSizeBytes
    rw [hoff, hs]
    decide
  · show u64 (w.writeOffset + totalRecordSize) + totalRecordSize ≤ w.segmentSizeBytes
    rw [hoff, hs]
    decide

/-- Both threads reserve a slot, and the one with the first slot finishes first. -/
def inOrder : List (Action Bool) :=
  .append false {} :: .append true {} ::
    (List.replicate 3 (.next false) ++ List.replicate 3 (.next true))

theorem returned_appends_readable_two : ∃ w dir,
    JournalWriter.open ⟨fun _ => 0, fun _ => none⟩ {} ∅ 1048576 = some (.kOk, w, dir) ∧
      ∃ s : System Bool, Runs.run (step ⟨fun _ => 0, fun _ => none⟩) { writer := w, dir := dir }
          inOrder = some s ∧ s.log.map (·.event) = [{}, {}] ∧
        ∃ dir' data, MmapFile.openReadOnly dir'
            (buildSegmentPath s.writer.currentSegmentId) = .ok data ∧ Seen s data ∧
          ∃ r r', JournalReader.openSegment dir' {}
              (buildSegmentPath s.writer.currentSegmentId) = (.kOk, r) ∧
            Calls dir' r (s.log.map (·.event)) r' := by
  have hopen : OpensAll ⟨fun _ => 0, fun _ => none⟩ 1048576 :=
    opensAll_mebibyte _
  obtain ⟨w, dir, hstart, hw, hs, hid, hoff, hmaps⟩ := open_fresh hopen
  have hp₀ : (bothReserved w dir {}).pc false = .check {} w.currentSegmentId w.writeOffset := rfl
  have hroom₀ : w.writeOffset + totalRecordSize ≤
      (bothReserved w dir {}).writer.segmentSizeBytes := by
    rw [size_bothReserved, hs, hoff]
    decide
  obtain ⟨s₁, hrun₁, -, hmaps₁, hw₁, -, hpc₁, hlog₁⟩ :=
    run_finish ⟨fun _ => 0, fun _ => none⟩ hmaps hp₀ hroom₀
  have hp₁ : s₁.pc true = .check {} w.currentSegmentId 224 := by
    rw [hpc₁, Function.update_of_ne (by decide), pc_true_bothReserved hoff]
  have hroom₁ : 224 + totalRecordSize ≤ s₁.writer.segmentSizeBytes := by
    rw [hw₁, segmentSizeBytes_counted, size_bothReserved, hs]
    decide
  obtain ⟨s, hrun₂, -, -, -, -, -, hlog⟩ := run_finish ⟨fun _ => 0, fun _ => none⟩ hmaps₁ hp₁ hroom₁
  have hrun : Runs.run (step ⟨fun _ => 0, fun _ => none⟩) { writer := w, dir := dir } inOrder =
      some s := by
    rw [inOrder, run_bothReserved hw, Runs.run_append hrun₁, hrun₂]
  have hok : Runs.Along (step ⟨fun _ => 0, fun _ => none⟩) (fun s a => Fits s a ∧ Orderly s a)
      { writer := w, dir := dir } inOrder := by
    refine along_bothReserved hw hs hoff (fun _ h => ⟨h, EventSerializer.validate_blank⟩)
      (fun _ h => ⟨h, EventSerializer.validate_blank⟩)
      ((orderly_finish hp₀ (Mapped.exceeds_eq_false hmaps hroom₀) ?_).append hrun₁
        (orderly_finish hp₁ (hmaps₁.exceeds_eq_false hroom₁) ?_))
    · intro q j off' hq hres
      rw [(Bool.eq_true_of_not_eq_false hq), pc_true_bothReserved hoff] at hres
      obtain ⟨-, hplace⟩ := Option.ite_none_right_eq_some.mp hres
      rw [hoff, ← (Prod.mk.inj (Option.some.inj hplace)).2]
      decide
    · intro q j off' hq hres
      rw [Bool.eq_false_of_not_eq_true hq, hpc₁, Function.update_self] at hres
      cases hres
  obtain ⟨dir', data, hread, hseen⟩ :=
    (Fitting.run hstart (hok.imp fun _ _ h => h.1) hrun).exists_seen (by decide)
  refine ⟨w, dir, hstart, s, hrun, ?_, dir', data, hread, hseen,
    returned_appends_readable hstart hok hrun hread hseen⟩
  rw [hlog, hlog₁]
  rfl

/-- Both threads reserve a slot, and the one with the second slot returns while the
other is suspended. -/
def overtaking : List (Action Bool) :=
  .append false {} :: .append true {} :: List.replicate 3 (.next true)

/-- The reader takes the first slot, which is still empty, for the end of the segment. -/
theorem reserved_slot_hides_returned : ∃ w dir,
    JournalWriter.open ⟨fun _ => 0, fun _ => none⟩ {} ∅ 1048576 = some (.kOk, w, dir) ∧
      EventSerializer.validate (some ({} : Event).toBytes) = .kOk ∧
      Runs.Along (step ⟨fun _ => 0, fun _ => none⟩) Fits { writer := w, dir := dir } overtaking ∧
      ∃ s : System Bool, Runs.run (step ⟨fun _ => 0, fun _ => none⟩) { writer := w, dir := dir }
          overtaking = some s ∧ s.log.map (·.event) = [{}] ∧
        ∃ dir' data, MmapFile.openReadOnly dir'
            (buildSegmentPath s.writer.currentSegmentId) = .ok data ∧ Seen s data ∧
          ∃ r r', JournalReader.openSegment dir' {}
              (buildSegmentPath s.writer.currentSegmentId) = (.kOk, r) ∧ Reads dir' r [] r' ∧
            ¬ ∃ r'', Calls dir' r (s.log.map (·.event)) r'' := by
  have hopen : OpensAll ⟨fun _ => 0, fun _ => none⟩ 1048576 :=
    opensAll_mebibyte _
  obtain ⟨w, dir, hstart, hw, hs, hid, hoff, hmaps⟩ := open_fresh hopen
  have hp : (bothReserved w dir {}).pc true = .check {} w.currentSegmentId 224 :=
    pc_true_bothReserved hoff
  obtain ⟨s, hrun₁, -, -, hw₁, -, hpc, hlog⟩ := run_finish ⟨fun _ => 0, fun _ => none⟩
    (s := bothReserved w dir {}) hmaps hp (by rw [size_bothReserved, hs]; decide)
  have hrun : Runs.run (step ⟨fun _ => 0, fun _ => none⟩) { writer := w, dir := dir } overtaking =
      some s := by
    rw [overtaking, run_bothReserved hw, hrun₁]
  have hok : Runs.Along (step ⟨fun _ => 0, fun _ => none⟩) Fits { writer := w, dir := dir }
      overtaking :=
    along_bothReserved hw hs hoff (fun _ h => h) (fun _ h => h) (fits_next 3)
  have hfit := Fitting.run hstart hok hrun
  obtain ⟨dir', data, hread, hseen⟩ := hfit.exists_seen (by decide)
  have hevents : s.log.map (·.event) = [{}] := by
    rw [hlog]
    rfl
  have hfree : (s.writer.currentSegmentId, slotOffset 0) ∉ s.log.map Written.place := by
    rw [hlog]
    intro h
    have hoff : slotOffset 0 = 224 := (Prod.mk.inj (List.mem_singleton.mp h)).2
    exact absurd hoff (by decide)
  obtain ⟨r', hreads⟩ := hseen.reads_nil hfit (by decide) hread hfree fun p e j seq => by
    rw [hpc]
    cases p
    · exact fun h => by cases h
    · exact fun h => by cases h
  refine ⟨w, dir, hstart, EventSerializer.validate_blank, hok, s, hrun, hevents, dir', data,
    hread, hseen, _, r', openPaths_of_loadSegment [] (hseen.loadSegment hfit hread), hreads, ?_⟩
  rintro ⟨r'', hcalls⟩
  rw [hevents] at hcalls
  exact not_calls_of_reads_nil rfl hreads hcalls

end ConcurrentAppend

end Ume
