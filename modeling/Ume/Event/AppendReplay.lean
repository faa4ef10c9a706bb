import Ume.Event.AppendVisible
import Ume.Event.DirectoryReplay

/-! Replaying what any number of threads have appended. A call reserves its slot with its first
step, so the slots are in the order in which the calls began, whichever of them returned first
and whatever numbers they drew. -/

namespace Ume

open ByteString JournalWriter

/-- Records for a list of events, from one for each place. -/
theorem exists_records {calls : List Event} {P : Nat → UInt64 → Event → Prop}
    (h : ∀ k e, calls[k]? = some e → ∃ seq, P k seq e) :
    ∃ recs : List (UInt64 × Event), recs.map (·.2) = calls ∧
      ∀ k x, recs[k]? = some x → P k x.1 x.2 := by
  induction calls generalizing P with
  | nil => exact ⟨[], rfl, by simp⟩
  | cons e calls ih =>
    obtain ⟨seq, hseq⟩ := h 0 e rfl
    obtain ⟨recs, hmap, hrecs⟩ := ih (P := fun k => P (k + 1)) fun k e' hk => h (k + 1) e' hk
    refine ⟨(seq, e) :: recs, by rw [List.map_cons, hmap], fun k x hx => ?_⟩
    cases k with
    | zero =>
      obtain rfl := Option.some.inj hx
      exact hseq
    | succ k => exact hrecs k x hx

namespace ConcurrentAppend

variable {ι : Type*}

def Action.appended : Action ι → Option Event
  | .append _ event => some event
  | .next _ => none

/-- The events of the calls, in the order in which they began. -/
def appended (as : List (Action ι)) : List Event := as.filterMap Action.appended

theorem appended_concat (as : List (Action ι)) (a : Action ι) :
    appended (as ++ [a]) = appended as ++ a.appended.toList := by
  cases a <;> simp [appended, Action.appended]

/-- Each call has the slot of its place in line: it holds the slot while it runs, and its
record is there once it has returned. -/
structure Lined (size : Nat) (calls : List Event) (s : System ι) : Prop where
  offset : s.writer.writeOffset = slotOffset calls.length
  slots : ∀ k e, calls[k]? = some e →
    (∃ p, (s.pc p).reservation size = some (s.writer.currentSegmentId, slotOffset k) ∧
        (s.pc p).event = some e) ∨
      ∃ w ∈ s.log, w.place = (s.writer.currentSegmentId, slotOffset k) ∧ w.event = e

variable [DecidableEq ι] {env : SessionEnv} {dir₀ : Directory} {size : Nat} {s s' : System ι}
  {p : ι} {e : Event} {calls : List Event}

theorem event_update {pc : Pc} (hevent : pc.event = (s.pc p).event) (q : ι) :
    (Function.update s.pc p pc q).event = (s.pc q).event := by
  by_cases hq : q = p
  · rw [hq, Function.update_self, hevent]
  · rw [Function.update_of_ne hq]

theorem Lined.append (h : Lined size calls s) (hp : s.pc p = .idle)
    (hle : s.writer.writeOffset + totalRecordSize ≤ size) (hmax : size < 2 ^ 63) :
    Lined size (calls ++ [e]) (s.reserved p e) := by
  have hoff : (s.reserved p e).writer.writeOffset = s.writer.writeOffset + totalRecordSize :=
    u64_of_lt (by omega)
  refine ⟨?_, fun k e' hk => ?_⟩
  · rw [hoff, h.offset, List.length_append, List.length_singleton, slotOffset_succ]
  · rcases Nat.lt_or_ge k calls.length with hlt | hge
    · rw [List.getElem?_append_left hlt] at hk
      rcases h.slots k e' hk with ⟨q, hres, hevent⟩ | hlog
      · have hqp : q ≠ p := by
          rintro rfl
          rw [hp] at hres
          cases hres
        have hsame : (s.reserved p e).pc q = s.pc q := Function.update_of_ne hqp _ _
        exact .inl ⟨q, by rw [hsame]; exact hres, by rw [hsame, hevent]⟩
      · exact .inr hlog
    · have hlast := (List.getElem?_eq_some_iff.mp hk).1
      rw [List.length_append, List.length_singleton] at hlast
      obtain rfl : k = calls.length := by omega
      rw [List.getElem?_append_right le_rfl, Nat.sub_self] at hk
      obtain rfl := Option.some.inj hk
      refine .inl ⟨p, ?_, by rw [System.pc_reserved]; rfl⟩
      rw [System.pc_reserved, Pc.reservation, if_pos hle, h.offset]
      rfl

theorem Lined.setPc (h : Lined size calls s) {pc : Pc} {seq : UInt64}
    (hres : pc.reservation size = (s.pc p).reservation size)
    (hevent : pc.event = (s.pc p).event) :
    Lined size calls
      { s.setPc p pc with writer := { s.writer with sequenceCounter := seq } } := by
  refine ⟨h.offset, fun k e' hk => ?_⟩
  rcases h.slots k e' hk with ⟨q, hq, hev⟩ | hlog
  · exact .inl ⟨q, (reservation_update hres q).trans hq, (event_update hevent q).trans hev⟩
  · exact .inr hlog

theorem Lined.copy (h : Lined size calls s) {j off : Nat} {seq : UInt64} {dir' : Directory}
    (hp : s.pc p = .copy e j off seq) :
    Lined size calls
      { s.setPc p .idle with
        dir := dir'
        writer :=
          { s.writer with
            totalEventsWritten := s.writer.totalEventsWritten + 1
            totalBytesWritten := s.writer.totalBytesWritten + UInt64.ofNat totalRecordSize }
        log := s.log ++ [⟨seq, e, s.writer.currentSegmentId, off, j⟩] } := by
  refine ⟨h.offset, fun k e' hk => ?_⟩
  rcases h.slots k e' hk with ⟨q, hq, hev⟩ | ⟨w, hw, hplace, hev⟩
  · by_cases hqp : q = p
    · subst hqp
      rw [hp] at hq hev
      obtain ⟨-, hoff⟩ := Prod.mk.inj (Option.some.inj hq)
      exact .inr ⟨_, List.mem_append_right _ (List.mem_singleton_self _), by rw [hoff]; rfl,
        Option.some.inj hev⟩
    · have hsame : Function.update s.pc p .idle q = s.pc q := Function.update_of_ne hqp _ _
      exact .inl ⟨q, (congrArg (Pc.reservation size) hsame).trans hq,
        (congrArg Pc.event hsame).trans hev⟩
  · exact .inr ⟨w, List.mem_append_left _ hw, hplace, hev⟩

theorem Lined.step {a : Action ι} (hopen : OpensAll env size) (h : Lined size calls s)
    (hfit : Fitting env dir₀ size s) (hfits : Fits s a)
    (hs : ConcurrentAppend.step env s a = some s') :
    Lined size (calls ++ a.appended.toList) s' := by
  have hmax := (opensAll_iff.mp hopen).2.2
  cases a with
  | append p e =>
    cases hp : s.pc p with
    | idle =>
      obtain rfl := Option.some.inj ((step_append hfit.inv.isOpen hp).symm.trans hs)
      exact h.append hp (hfit.inv.size_eq ▸ hfits) hmax
    | _ => simp only [ConcurrentAppend.step, hp, reduceCtorEq] at hs
  | next p =>
    rw [Action.appended, Option.toList_none, List.append_nil]
    obtain ⟨e, j, off, hp, rfl⟩ | ⟨e, j, off, hp, rfl⟩ | ⟨e, j, off, seq, dir', hp, -, rfl⟩ :=
      hfit.next_cases hs
    · have hplace := hfit.places p
      rw [hp] at hplace
      have hres : (Pc.sequence e j off).reservation size = (s.pc p).reservation size := by
        rw [hp]
        exact (if_pos hplace).symm
      exact h.setPc hres (by rw [hp]; rfl)
    · exact h.setPc (by rw [hp]; rfl) (by rw [hp]; rfl)
    · exact h.copy hp

omit [DecidableEq ι] in
/-- Behind the last slot a new file is still zero. -/
theorem Lined.endMark (h : Lined size calls s) (hfit : Fitting env ∅ size s)
    (hidle : ∀ p, s.pc p = .idle) {data : List UInt8} (hseen : Seen s data) :
    EndMark (data.drop (slotOffset calls.length)) := by
  by_cases hroom : slotOffset calls.length + totalRecordSize ≤ size
  · right
    have hfree : (s.writer.currentSegmentId, slotOffset calls.length) ∉
        s.log.map Written.place := by
      intro hmem
      obtain ⟨w, hw, hplace⟩ := List.mem_map.mp hmem
      obtain ⟨hseg, hoff⟩ := Prod.mk.inj hplace
      have hlt := (hfit.inv.log_ok w hw).2.2.2.2 hseg
      rw [hoff, h.offset] at hlt
      exact absurd hlt (Nat.lt_irrefl _)
    have hcopy : ∀ p e j seq, s.pc p ≠ .copy e j (slotOffset calls.length) seq := by
      intro p e j seq
      rw [hidle]
      exact fun hp => by cases hp
    have hzero : slice data (slotOffset calls.length) totalRecordSize =
        List.replicate totalRecordSize 0 := by
      rw [hseen.slots _ hcopy (hfit.inv.size_eq.symm ▸ hroom), hfit.inv.size_eq,
        hfit.inv.others _ _ hfree]
      exact slotBytes_empty hroom
    have htake := congrArg (List.take 8) hzero
    rw [slice, List.take_take] at htake
    exact htake
  · left
    have hsize := hseen.length.trans hfit.inv.size_eq
    have hpos : 0 < totalRecordSize := by decide
    rw [List.length_drop]
    omega

omit [DecidableEq ι] in
/-- Once every call has returned, the segment holds one record for each, in line. -/
theorem Lined.holdsRecords (h : Lined size calls s) (hfit : Fitting env ∅ size s)
    (hidle : ∀ p, s.pc p = .idle) {data : List UInt8} (hseen : Seen s data) :
    ∃ recs, recs.map (·.2) = calls ∧ HoldsRecords data recs := by
  have hslot : ∀ k e, calls[k]? = some e → ∃ seq,
      slice data (segmentHeaderSize + totalRecordSize * k) totalRecordSize = recordBytes seq e := by
    intro k e hk
    rcases h.slots k e hk with ⟨q, hq, -⟩ | ⟨w, hw, hplace, rfl⟩
    · rw [hidle] at hq
      cases hq
    · obtain ⟨hseg, hoff⟩ := Prod.mk.inj hplace
      exact ⟨w.seq, hseen.slot hfit hw hseg hoff⟩
  obtain ⟨recs, hmap, hrecs⟩ := exists_records hslot
  have hlength : calls.length = recs.length := by rw [← hmap, List.length_map]
  have hheader : data.take segmentHeaderSize =
      (segmentHeader env s.writer.currentSegmentId size).toBytes := by
    obtain ⟨entry, hl, -⟩ := hfit.inv.current
    have hbytes : segmentsOf s.dir s.writer.currentSegmentId = some entry.file.bytes := by
      rw [segmentsOf, hl, Option.map_some]
    rw [hseen.header _ hbytes, hfit.header _ hbytes]
  refine ⟨recs, hmap, _, data.drop (slotOffset calls.length),
    segmentHeader_valid env s.writer.currentSegmentId size, h.endMark hfit hidle hseen, ?_⟩
  rw [← hheader, hlength, slotOffset, ← drop_eq_recordsBytes hrecs, List.take_append_drop]

theorem Lined.run {w₀ w : JournalWriter} {dir : Directory}
    (hstart : JournalWriter.open env w₀ dir₀ size = some (.kOk, w, dir)) {as : List (Action ι)}
    (hok : Runs.Along (ConcurrentAppend.step env) Fits { writer := w, dir := dir } as)
    (hrun : Runs.run (ConcurrentAppend.step env) { writer := w, dir := dir } as = some s) :
    Lined size (appended as) s := by
  obtain ⟨hopen, hstart'⟩ := open_faultless hstart
  have hmin := (open_eq_ok hopen hstart').1
  have hstep : ∀ before (s : System ι) a s',
      Fitting (faultless env) dir₀ size s ∧ Lined size (appended before) s → Fits s a →
      ConcurrentAppend.step env s a = some s' →
      Fitting (faultless env) dir₀ size s' ∧ Lined size (appended (before ++ [a])) s' := by
    intro before s a s' ⟨hfit, hline⟩ hfits hs
    rw [hfit.step_faultless] at hs
    refine ⟨hfit.step hopen hmin hfits hs, ?_⟩
    rw [appended_concat]
    exact hline.step hopen hfit hfits hs
  have hline : Lined size [] ({ writer := w, dir := dir } : System ι) := by
    obtain ⟨-, file, hfile, rfl, rfl⟩ := open_eq_ok hopen hstart'
    exact ⟨rfl, by simp⟩
  exact (Runs.invariant_history hstep [] ⟨Fitting.opened hopen hstart', hline⟩ hok hrun).2

/-- Whatever the interleaving of the threads, once all appends of a new segment have returned
a replay of it dispatches each event that was accepted once, in the order in which the calls
began. -/
theorem concurrent_appends_replayed {w₀ w : JournalWriter} {dir : Directory}
    (hstart : JournalWriter.open env w₀ ∅ size = some (.kOk, w, dir)) {as : List (Action ι)}
    (hok : Runs.Along (step env) Fits { writer := w, dir := dir } as)
    (hrun : Runs.run (step env) { writer := w, dir := dir } as = some s)
    (hidle : ∀ p, s.pc p = .idle) {dir' : Directory} {data : List UInt8}
    (hread : MmapFile.openReadOnly dir' (buildSegmentPath s.writer.currentSegmentId) = .ok data)
    (hseen : Seen s data) {δ : Type*} (dispatch : δ → Event → δ) (d : δ) :
    ∃ fuel stats, ∀ more ≥ fuel, ReplayEngine.replaySegment dispatch dir' more
      (buildSegmentPath s.writer.currentSegmentId) d = some (.ok stats,
        (((appended as).filter EventSerializer.accepts).map Event.replayed).foldl dispatch d) := by
  have hfit := Fitting.run hstart hok hrun
  obtain ⟨recs, hmap, hholds⟩ := (Lined.run hstart hok hrun).holdsRecords hfit hidle hseen
  have hload := hseen.loadSegment hfit hread
  obtain ⟨fuel, hf⟩ := ReplayEngine.replayOpened_of_scan dispatch
    (ScanJournal.good (i := 0) hload hholds.scan .nil) (by rw [hload]; rfl) d
  have hevents : (deliveries segmentHeaderSize recs).map (·.2) =
      (appended as).filter EventSerializer.accepts := by
    rw [map_deliveries, acceptedEvents, hmap]
  rw [List.append_nil, List.map_map] at hf
  rw [← hevents, List.map_map]
  exact ⟨fuel, _, hf⟩

section Overtaken

def overtaker : Event where
  header := { objectId := 7 }

/-- The second call returns before the first. -/
def overtaken : List (Action Bool) :=
  .append false {} :: .append true overtaker ::
    (List.replicate 3 (.next true) ++ List.replicate 3 (.next false))

theorem filter_overtaken : (appended overtaken).filter EventSerializer.accepts =
    [{}, overtaker] := by
  have hcalls : appended overtaken = [{}, overtaker] := rfl
  rw [hcalls, List.filter_eq_self]
  intro e he
  rw [EventSerializer.accepts_iff]
  rcases List.mem_pair.mp he with rfl | rfl <;> decide

theorem concurrent_appends_replayed_overtaken : ∃ w dir,
    JournalWriter.open ⟨fun _ => 0, fun _ => none⟩ {} ∅ 1048576 = some (.kOk, w, dir) ∧
      ∃ s : System Bool, Runs.run (step ⟨fun _ => 0, fun _ => none⟩) { writer := w, dir := dir }
          overtaken = some s ∧ s.log.map (·.event) = [overtaker, {}] ∧
        ∃ dir' data, MmapFile.openReadOnly dir'
            (buildSegmentPath s.writer.currentSegmentId) = .ok data ∧ Seen s data ∧
          ∃ fuel stats, ∀ more ≥ fuel, ReplayEngine.replaySegment (fun log e => log ++ [e]) dir'
            more (buildSegmentPath s.writer.currentSegmentId) [] =
              some (.ok stats, [Event.replayed {}, overtaker.replayed]) := by
  obtain ⟨w, dir, hstart, hw, hs, hid, hoff, hmaps⟩ := open_fresh (opensAll_mebibyte _)
  obtain ⟨s₁, s, hrun₁, hrun₂, -, -, -, -, hidle, hlog⟩ :=
    run_overtaken ⟨fun _ => 0, fun _ => none⟩ (e := overtaker) hmaps hs hoff
  have hrun : Runs.run (step ⟨fun _ => 0, fun _ => none⟩) { writer := w, dir := dir } overtaken =
      some s := by
    rw [overtaken, run_bothReserved hw, Runs.run_append hrun₁, hrun₂]
  have hok : Runs.Along (step ⟨fun _ => 0, fun _ => none⟩) Fits { writer := w, dir := dir }
      overtaken :=
    along_bothReserved hw hs hoff (fun _ h => h) (fun _ h => h)
      ((fits_next 3).append hrun₁ (fits_next 3))
  obtain ⟨dir', data, hread, hseen⟩ := (Fitting.run hstart hok hrun).exists_seen (by decide)
  have hreplay := concurrent_appends_replayed hstart hok hrun hidle hread hseen
    (fun log e => log ++ [e]) []
  rw [filter_overtaken] at hreplay
  refine ⟨w, dir, hstart, s, hrun, ?_, dir', data, hread, hseen, hreplay⟩
  rw [hlog]
  rfl

end Overtaken

end ConcurrentAppend

end Ume
