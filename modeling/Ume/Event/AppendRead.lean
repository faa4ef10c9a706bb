import Ume.Event.ReaderTermination
import Ume.Event.RoundTrip

/-! What the reader makes of a record that `append` has just written. The writer copies
any event into its segment; the reader hands out those that `validate` accepts. -/

namespace Ume

open ByteString JournalWriter

section Append

variable {env : SessionEnv} {w w' : JournalWriter} {dir dir' : Directory} {e : Event}

/-- Whichever way an append takes, its record goes where the last reservation starts. -/
theorem append_eq_ok (h : append env w dir e = some (.ok seq, w', dir')) :
    ∃ (v : JournalWriter) (d : Directory),
      writeRecord v.reserve d e v.writeOffset = some (.ok seq, w', dir') := by
  unfold append at h
  dsimp only at h
  split_ifs at h with hclosed hx hx'
  · cases h
  · obtain ⟨⟨status, rolled, d⟩, -, h⟩ := Option.bind_eq_some_iff.mp h
    cases status with
    | kOk => exact ⟨rolled, d, h⟩
    | _ => cases h
  · exact ⟨w.reserve, dir, h⟩
  · exact ⟨w, dir, h⟩

/-- The reader has the writer's segment mapped and stands at the record appended last. -/
structure AtLastRecord (w : JournalWriter) (dir : Directory) (r : JournalReader) : Prop where
  isOpen : r.isOpen = true
  mapped : ∃ path entry, w.currentMmap = some path ∧ dir.lookup path = some entry ∧
    r.currentMmap = some entry.file.bytes
  offset : r.currentOffset + totalRecordSize = w.writeOffset

theorem AtLastRecord.verdict_eq {r : JournalReader} (hr : AtLastRecord w' dir' r)
    (h : append env w dir e = some (.ok seq, w', dir')) :
    r.Bounded ∧ verdict r.data r.currentOffset =
      if EventSerializer.accepts e then .deliver e 160 else .skip 160 := by
  obtain ⟨v, d, hwrite⟩ := append_eq_ok h
  obtain ⟨dir₁, hcopy, hdone⟩ := Option.bind_eq_some_iff.mp hwrite
  obtain ⟨-, hw, rfl⟩ := Prod.mk.inj (Option.some.inj hdone) |>.imp_right Prod.mk.inj
  obtain ⟨path, entry, hm, hl, hb⟩ := copyRecord_eq_some hcopy
  obtain ⟨file, hfile, hinsert⟩ := copyRecord_insert hm hl hb (v.reserve.sequenceCounter + 1) e
  obtain rfl := Option.some.inj (hinsert.symm.trans hcopy)
  obtain ⟨path', entry', hm', hl', hmap⟩ := hr.mapped
  have hpath : w'.currentMmap = some path := hw ▸ hm
  obtain rfl := Option.some.inj (hpath.symm.trans hm')
  rw [AList.lookup_insert] at hl'
  obtain rfl := Option.some.inj hl'
  have hdata : r.data = splice entry.file.bytes v.writeOffset
      (recordBytes (v.reserve.sequenceCounter + 1) e) := by
    rw [JournalReader.data, hmap]
    exact hfile
  have hlen := entry.file.length_lt
  have hoff : r.currentOffset = v.writeOffset := by
    have hnext : w'.writeOffset = v.writeOffset + totalRecordSize := by
      rw [← hw]
      exact writeOffset_reserve (by omega)
    have := hr.offset
    omega
  have hin : v.writeOffset + (recordBytes (v.reserve.sequenceCounter + 1) e).length ≤
      entry.file.bytes.length := by
    rwa [length_recordBytes]
  have hdrop : r.data.drop r.currentOffset = recordBytes (v.reserve.sequenceCounter + 1) e ++
      entry.file.bytes.drop (v.writeOffset + totalRecordSize) := by
    rw [hdata, hoff, splice, List.append_assoc,
      List.drop_left' (by rw [List.length_take]; omega), length_recordBytes]
  refine ⟨⟨?_, ?_⟩, verdict_record hdrop⟩
  · rw [hdata, length_splice hin]
    exact hlen
  · rw [hoff]
    omega

end Append

namespace JournalReader

theorem accepts_of_readNext {dir : Directory} {fuel : Nat} {r r' : JournalReader} {e : Event}
    (h : readNext dir fuel r = some ⟨.kOk, some e, r'⟩) : EventSerializer.accepts e = true := by
  unfold readNext at h
  split_ifs at h
  · cases h
  obtain ⟨s, -, hs⟩ := Loop.run_invariant (fun _ => True) (fun _ _ _ _ => trivial) h trivial
  exact EventSerializer.accepts_of_deserialize (readNextStep_eq_ok hs).2

end JournalReader

/-- The reader returns just the appended events that `validate` accepts. -/
theorem appended_readable_iff {env : SessionEnv} {w w' : JournalWriter} {dir dir' : Directory}
    {seq : UInt64} {e : Event} (h : append env w dir e = some (.ok seq, w', dir'))
    (files : Directory) {r : JournalReader} (hr : AtLastRecord w' dir' r) :
    (∃ fuel e' r', JournalReader.readNext files fuel r = some ⟨.kOk, some e', r'⟩ ∧
      e'.toBytes = e.toBytes) ↔ EventSerializer.validate (some e.toBytes) = .kOk := by
  obtain ⟨hb, hv⟩ := hr.verdict_eq h
  constructor
  · rintro ⟨fuel, e', r', hread, hbytes⟩
    obtain rfl := Event.toBytes_injective hbytes
    exact of_decide_eq_true (JournalReader.accepts_of_readNext hread)
  · intro ha
    have haccepts : EventSerializer.accepts e = true := decide_eq_true ha
    rw [if_pos haccepts] at hv
    obtain ⟨hstep, -⟩ := JournalReader.readNextStep_of_deliver files hb hv
    obtain ⟨fuel, hfuel⟩ := Loop.returns_of_inr hstep
    exact ⟨fuel, e, _, (JournalReader.readNext_of_isOpen files hr.isOpen fuel).trans hfuel, rfl⟩

/-- A writer on an empty directory with one event appended, and a reader of its segment. -/
theorem exists_atLastRecord (e : Event) : ∃ w dir w' dir' r,
    JournalWriter.«open» ⟨fun _ => 0, fun _ => none⟩ {} ∅ 1048576 = some (.kOk, w, dir) ∧
      append ⟨fun _ => 0, fun _ => none⟩ w dir e = some (.ok 1, w', dir') ∧
      JournalReader.openSegment dir' {} (buildSegmentPath 0) = (.kOk, r) ∧
      AtLastRecord w' dir' r := by
  have hopen : OpensAll ⟨fun _ => 0, fun _ => none⟩ 1048576 := opensAll_mebibyte _
  obtain ⟨w, dir, hstart, hseq, hat⟩ := open_laid (w := {}) hopen (by decide) rfl represents_empty
  obtain ⟨w', dir', happ, -, hat'⟩ := append_laid hopen (by decide) (Layout.packed_empty _) hat e
  have hroom : ({} : Layout).current.length < segmentCapacity 1048576 :=
    segmentCapacity_pos (by decide)
  rw [hseq, Layout.push, if_pos hroom] at hat'
  rw [hseq] at happ
  have hholds : HoldsRecords (writtenSegment ⟨fun _ => 0, fun _ => none⟩ (fun _ => none) 1048576 0
      [(1, e)]) [(1, e)] := by
    apply holdsRecords_writtenSegment
    rw [staleBytes_fresh rfl, List.drop_replicate]
    exact endMark_replicate _
  obtain ⟨entry, hl, hbytes, -⟩ := hat'.represents.present 0 _ rfl
  have hload := hat'.represents.loadSegment (j := 0) rfl hholds.validSegment
  refine ⟨w, dir, w', dir', _, hstart, happ, openPaths_of_loadSegment [] hload, rfl, ?_, ?_⟩
  · exact ⟨_, entry, hat'.currentMmap, hl, congrArg some hbytes.symm⟩
  · exact hat'.writeOffset.symm

/-- An event without category and type but with an id. -/
def unknownEvent : Event := { header := { id := 1 } }

theorem appended_readable_blank : ∃ w dir w' dir' r,
    append ⟨fun _ => 0, fun _ => none⟩ w dir {} = some (.ok 1, w', dir') ∧
      AtLastRecord w' dir' r ∧
      ∃ fuel e' r', JournalReader.readNext dir' fuel r = some ⟨.kOk, some e', r'⟩ ∧
        e'.toBytes = ({} : Event).toBytes := by
  obtain ⟨w, dir, w', dir', r, -, happ, -, hr⟩ := exists_atLastRecord {}
  exact ⟨w, dir, w', dir', r, happ, hr,
    (appended_readable_iff happ dir' hr).mpr EventSerializer.validate_blank⟩

/-- The writer takes an event that `validate` rejects, and the reader then never returns it. -/
theorem append_takes_unknownEvent : ∃ w dir w' dir' r,
    JournalWriter.«open» ⟨fun _ => 0, fun _ => none⟩ {} ∅ 1048576 = some (.kOk, w, dir) ∧
      append ⟨fun _ => 0, fun _ => none⟩ w dir unknownEvent = some (.ok 1, w', dir') ∧
      EventSerializer.validate (some unknownEvent.toBytes) = .kSerializationError ∧
      JournalReader.openSegment dir' {} (buildSegmentPath 0) = (.kOk, r) ∧
      AtLastRecord w' dir' r ∧
      ¬ ∃ fuel e' r', JournalReader.readNext dir' fuel r = some ⟨.kOk, some e', r'⟩ ∧
        e'.toBytes = unknownEvent.toBytes := by
  obtain ⟨w, dir, w', dir', r, hstart, happ, hread, hr⟩ := exists_atLastRecord unknownEvent
  refine ⟨w, dir, w', dir', r, hstart, happ, by decide +kernel, hread, hr, ?_⟩
  rintro ⟨fuel, e', r', hread, hbytes⟩
  obtain rfl := Event.toBytes_injective hbytes
  exact absurd (JournalReader.accepts_of_readNext hread) (by decide +kernel)

end Ume
