import Ume.Event.BadSegments
import Ume.Event.ReaderTermination

/-! What `read_next` returns after it has once reported the end of the journal. A file
that does not load is the end for the call that comes to it; the next call reads on, in
that file if it is mapped, and then behind it. -/

namespace Ume

open ByteString JournalWriter

/-- A record at this offset that the reader hands out. -/
def Deliverable (data : List UInt8) (off : Nat) : Prop :=
  ValidHeader data off ∧
    computeCrc32 (slice (data.drop off) 32 128) =
      (JournalRecordHeader.ofBytes (data.drop off)).payloadCrc32 ∧
    EventSerializer.validate (some (slice (data.drop off) 32 128)) = .kOk

theorem deliverable_iff {data : List UInt8} {off : Nat} :
    Deliverable data off ↔ ∃ e size, verdict data off = .deliver e size := by
  constructor
  · rintro ⟨hheader, hcrc, hvalid⟩
    rw [verdict_of_validHeader hheader]
    dsimp only
    rw [if_neg (not_not.mpr hcrc), EventSerializer.deserialize_of_validate hvalid]
    exact ⟨_, _, rfl⟩
  · rintro ⟨e, size, hv⟩
    by_cases hheader : ValidHeader data off
    · rw [verdict_of_validHeader hheader] at hv
      dsimp only at hv
      split_ifs at hv with hcrc
      refine ⟨hheader, not_not.mp hcrc, ?_⟩
      cases hd : EventSerializer.deserialize (some (slice (data.drop off) 32 128)) with
      | error status =>
        rw [hd] at hv
        cases hv
      | ok event => exact (EventSerializer.validate_of_deserialize hd).1
    · rw [verdict_of_not_validHeader (verdict_deliver hv) hheader] at hv
      split_ifs at hv

theorem stride_eq_none_iff {data : List UInt8} {off : Nat} :
    stride data off = none ↔ verdict data off = .endOfSegment := by
  unfold stride
  cases verdict data off <;> simp

/-- A call that looks at this place reports the end: no file is left, or the next one does
not load. -/
def Place.Ends (dir : Directory) (p : Place) : Prop :=
  stride p.data p.offset = none ∧ ∀ path rest, p.rest = path :: rest → loadSegment dir path = none

namespace JournalReader

/-- The readers that calls of `read_next` lead to. -/
inductive Called (dir : Directory) (r : JournalReader) : JournalReader → Prop where
  | refl : Called dir r r
  | call {r₁ : JournalReader} {fuel : Nat} {res : ReadResult} (h : Called dir r r₁)
      (hc : readNext dir fuel r₁ = some res) : Called dir r res.reader

variable {dir : Directory} {r r' : JournalReader}

theorem ends_iff (hr : r.Bounded) :
    r.place.Ends dir ↔ ∃ r', readNextStep dir r = .inr ⟨.kNotFound, none, r'⟩ := by
  have hrest : r.nextSegment.segmentPaths[r.nextSegment.currentSegmentIndex]? =
      r.place.rest.head? := nextSegment_path rfl rfl
  constructor
  · rintro ⟨hs, hbad⟩
    have hload : (loadCurrentSegment dir r.nextSegment).1 ≠ .kOk := by
      cases hp : r.place.rest with
      | nil =>
        rw [hp] at hrest
        rw [loadCurrentSegment_of_none dir hrest]
        simp
      | cons path rest =>
        rw [hp] at hrest
        obtain ⟨status, m, hst, hl⟩ := loadCurrentSegment_of_bad hrest (hbad path rest hp)
        rw [hl]
        exact hst
    rcases advanceSegment_cases dir r with ⟨hok, -⟩ | ⟨-, ha⟩
    · exact absurd hok hload
    · exact ⟨_, (readNextStep_of_end dir hr (stride_eq_none_iff.mp hs)).trans ha⟩
  · rintro ⟨r', hstep⟩
    cases hv : verdict r.data r.currentOffset with
    | endOfSegment =>
      refine ⟨by simp only [stride, place, hv], fun path rest hp => ?_⟩
      by_contra hl
      obtain ⟨data, hl⟩ := Option.ne_none_iff_exists'.mp hl
      rw [hp] at hrest
      rw [readNextStep_of_end dir hr hv] at hstep
      rcases advanceSegment_cases dir r with ⟨-, ha⟩ | ⟨hne, -⟩
      · rw [ha] at hstep
        cases hstep
      · exact hne (congrArg Prod.fst (loadCurrentSegment_of_some hrest hl))
    | skip n =>
      rw [(readNextStep_of_skip dir hr hv).1] at hstep
      cases hstep
    | deliver e size =>
      rw [(readNextStep_of_deliver dir hr hv).1] at hstep
      cases hstep

theorem pass_of_inl (h : readNextStep dir r = .inl r') : pass dir r = r' := by
  rw [pass, h]
  rfl

theorem pass_of_inr {res : ReadResult} (h : readNextStep dir r = .inr res) :
    pass dir r = res.reader := by
  rw [pass, h]
  rfl

theorem exists_pass_of_readNext {fuel : Nat} {res : ReadResult} (ho : r.isOpen = true)
    (h : readNext dir fuel r = some res) :
    ∃ m, readNextStep dir ((pass dir)^[m] r) = .inr res ∧ res.reader = (pass dir)^[m + 1] r := by
  rw [readNext_of_isOpen dir ho] at h
  obtain ⟨s, ⟨m, rfl⟩, hs⟩ := Loop.run_invariant (fun s => ∃ m, s = (pass dir)^[m] r)
    (fun s s' ⟨m, hm⟩ he => ⟨m + 1, by
      rw [Function.iterate_succ_apply', ← hm, pass_of_inl he]⟩) h ⟨0, rfl⟩
  exact ⟨m, hs, by rw [Function.iterate_succ_apply', pass_of_inr hs]⟩

theorem Called.iterate (ho : r.isOpen = true) (h : Called dir r r') :
    ∃ n, r' = (pass dir)^[n] r := by
  induction h with
  | refl => exact ⟨0, rfl⟩
  | call _ hc ih =>
    obtain ⟨n, rfl⟩ := ih
    obtain ⟨m, -, hm⟩ := exists_pass_of_readNext (iterate_isOpen dir ho n) hc
    exact ⟨m + 1 + n, hm.trans (Function.iterate_add_apply (pass dir) (m + 1) n r).symm⟩

/-- Every pass belongs to a call, which returns what reading on from the pass returns. -/
theorem exists_called (ho : r.isOpen = true) (hr : r.Bounded) (n : Nat) :
    ∃ r', Called dir r r' ∧ r'.isOpen = true ∧
      r'.currentSegmentIndex ≤ ((pass dir)^[n] r).currentSegmentIndex ∧
      ∀ res, Loop.Returns (readNextStep dir) r' res ↔
        Loop.Returns (readNextStep dir) ((pass dir)^[n] r) res := by
  induction n with
  | zero => exact ⟨r, .refl, ho, le_rfl, fun _ => Iff.rfl⟩
  | succ n ih =>
    obtain ⟨r', hcalled, ho', hle, hreturns⟩ := ih
    cases hs : readNextStep dir ((pass dir)^[n] r) with
    | inl s =>
      have hnext : (pass dir)^[n + 1] r = s := by
        rw [Function.iterate_succ_apply', pass_of_inl hs]
      refine ⟨r', hcalled, ho', ?_, fun res => ?_⟩
      · rw [Function.iterate_succ_apply']
        rcases pass_position dir (place_iterate dir hr n).2 with ⟨_, -, hi, -⟩ | ⟨-, hi⟩ <;> omega
      · rw [hreturns, hnext]
        exact Loop.returns_inl_iff hs
    | inr res =>
      have hnext : (pass dir)^[n + 1] r = res.reader := by
        rw [Function.iterate_succ_apply', pass_of_inr hs]
      obtain ⟨fuel, hfuel⟩ := (hreturns res).mpr (Loop.returns_of_inr hs)
      rw [← readNext_of_isOpen dir ho'] at hfuel
      refine ⟨res.reader, hcalled.call hfuel, ?_, by rw [hnext], fun _ => by rw [hnext]⟩
      rw [← hnext]
      exact iterate_isOpen dir ho (n + 1)

theorem segmentPaths_pass (dir : Directory) (r : JournalReader) :
    (pass dir r).segmentPaths = r.segmentPaths := by
  rcases readNextStep_cases dir r with h | ⟨n, h⟩ | ⟨e, size, h⟩
  · rw [pass, h, passReader_advanceSegment]
    exact (loadCurrentSegment_fixed dir r.nextSegment).2
  · rw [pass_of_inl h]
    rfl
  · rw [pass_of_inr h]
    rfl

theorem segmentPaths_iterate (dir : Directory) (r : JournalReader) (n : Nat) :
    ((pass dir)^[n] r).segmentPaths = r.segmentPaths := by
  induction n with
  | zero => rfl
  | succ n ih => rw [Function.iterate_succ_apply', segmentPaths_pass, ih]

/-- Behind its last file the reader finds nothing but the end of a segment. -/
theorem index_lt_or_end (hr : r.Bounded) (hi : r.currentSegmentIndex < r.segmentPaths.length)
    (n : Nat) :
    ((pass dir)^[n] r).currentSegmentIndex < r.segmentPaths.length ∨
      stride ((pass dir)^[n] r).data ((pass dir)^[n] r).currentOffset = none := by
  induction n with
  | zero => exact .inl hi
  | succ n ih =>
    have hb := (place_iterate dir hr n).2
    have hpaths := segmentPaths_iterate dir r n
    rw [Function.iterate_succ_apply']
    generalize (pass dir)^[n] r = s at ih hb hpaths ⊢
    rcases pass_position dir hb with ⟨m, hs, hindex, -⟩ | ⟨hs, hindex⟩
    · rw [hindex]
      exact .inl (ih.resolve_right (by rw [hs]; exact Option.some_ne_none m))
    · by_cases hlt : s.currentSegmentIndex + 1 < r.segmentPaths.length
      · exact .inl (hindex ▸ hlt)
      · have hsame : pass dir s = s.nextSegment := by
          rw [pass, readNextStep_of_end dir hb (stride_eq_none_iff.mp hs),
            passReader_advanceSegment, loadCurrentSegment_of_none dir
              (List.getElem?_eq_none (hpaths ▸ Nat.le_of_not_lt hlt))]
        rw [hsame]
        exact .inr hs

end JournalReader

open JournalReader (openPaths readNext readNextStep pass Called)

/-- Once a call has reported the end of the journal, every later one does, as long as the
index of the segment does not wrap. -/
def EndIsFinal (dir : Directory) (paths : List String) : Prop :=
  ∀ r₀ r r₁ fuel r₂ r₃, openPaths dir r₀ paths = (.kOk, r) → Called dir r r₁ →
    readNext dir fuel r₁ = some ⟨.kNotFound, none, r₂⟩ → Called dir r₂ r₃ →
    r₃.currentSegmentIndex + 1 < 2 ^ 64 →
    ∃ fuel' r₄, readNext dir fuel' r₃ = some ⟨.kNotFound, none, r₄⟩

/-- No place that reading comes to behind an end holds a record to hand out or a header of
size zero. -/
def NothingBehindEnd (dir : Directory) (paths : List String) : Prop :=
  ∀ path rest data, paths = path :: rest → loadSegment dir path = some data → ∀ j k, j < k →
    ((Place.next dir)^[j] ⟨rest, data, segmentHeaderSize⟩).Ends dir →
    ¬ Deliverable ((Place.next dir)^[k] ⟨rest, data, segmentHeaderSize⟩).data
        ((Place.next dir)^[k] ⟨rest, data, segmentHeaderSize⟩).offset ∧
      ¬ ZeroSized ((Place.next dir)^[k] ⟨rest, data, segmentHeaderSize⟩).data
        ((Place.next dir)^[k] ⟨rest, data, segmentHeaderSize⟩).offset

namespace JournalReader

/-- Where nothing holds the reader and nothing is to be handed out, a call reports the end. -/
theorem Moves.returns_notFound {dir : Directory} {r : JournalReader} (h : r.Moves dir)
    (ho : r.isOpen = true) (hno : ∀ k, ¬ Deliverable ((Place.next dir)^[k] r.place).data
      ((Place.next dir)^[k] r.place).offset) :
    ∃ fuel r', readNext dir fuel r = some ⟨.kNotFound, none, r'⟩ := by
  obtain ⟨res, fuel, hrun⟩ := h.returns
  rw [← readNext_of_isOpen dir ho] at hrun
  obtain ⟨k, hlast, -⟩ := exists_pass_of_readNext ho hrun
  rcases readNextStep_result hlast with ⟨e, r', rfl⟩ | ⟨r', rfl⟩
  · obtain ⟨hpk, hbk⟩ := place_iterate dir h.bounded k
    obtain ⟨-, hv⟩ := deliversAt_eq_some hbk (by rw [deliversAt, hlast])
    have hk := hno k
    rw [← hpk] at hk
    exact absurd (deliverable_iff.mpr hv) hk
  · exact ⟨fuel, r', hrun⟩

/-- A reader whose next call reports the end stands at nothing else. -/
theorem nothing_of_returns (dir : Directory) {r : JournalReader} (hb : r.Bounded)
    (h : stride r.data r.currentOffset ≠ none →
      ∃ r', Loop.Returns (readNextStep dir) r ⟨.kNotFound, none, r'⟩) :
    ¬ Deliverable r.data r.currentOffset ∧ ¬ ZeroSized r.data r.currentOffset := by
  have hdeliver : ¬ Deliverable r.data r.currentOffset := by
    intro hd
    obtain ⟨e, size, hv⟩ := deliverable_iff.mp hd
    obtain ⟨r', hr⟩ := h (by
      rw [ne_eq, stride_eq_none_iff]
      exact fun hend => by cases hv.symm.trans hend)
    cases hr.unique (Loop.returns_of_inr (readNextStep_of_deliver dir hb hv).1)
  refine ⟨hdeliver, fun hz => ?_⟩
  have hs := stride_eq_zero_iff.mpr hz
  obtain ⟨r', hr⟩ := h fun hnone => by cases hs.symm.trans hnone
  cases hv : verdict r.data r.currentOffset with
  | endOfSegment => cases hs.symm.trans (stride_eq_none_iff.mpr hv)
  | skip n =>
    have hn : stride r.data r.currentOffset = some n := by simp only [stride, hv]
    obtain rfl := Option.some.inj (hs.symm.trans hn)
    exact not_returns_of_skip_zero dir hb hv _ hr
  | deliver e size => exact hdeliver (deliverable_iff.mpr ⟨e, size, hv⟩)

end JournalReader

theorem endIsFinal_of_nothingBehindEnd {dir : Directory} {paths : List String}
    (h : NothingBehindEnd dir paths) : EndIsFinal dir paths := by
  intro r₀ r r₁ fuel r₂ r₃ hopen h₁ hend h₃ _
  obtain ⟨path, rest, data, hp, hl, hplace, hb, ho⟩ := openPaths_eq_ok hopen
  obtain ⟨n, rfl⟩ := h₁.iterate ho
  obtain ⟨m, hstep, hr₂⟩ :=
    JournalReader.exists_pass_of_readNext (JournalReader.iterate_isOpen dir ho n) hend
  dsimp only at hr₂
  rw [← Function.iterate_add_apply] at hstep hr₂
  subst hr₂
  obtain ⟨i, rfl⟩ := h₃.iterate (JournalReader.iterate_isOpen dir ho _)
  rw [← Function.iterate_add_apply]
  have hends : ((Place.next dir)^[m + n] r.place).Ends dir := by
    obtain ⟨hpm, hbm⟩ := JournalReader.place_iterate dir hb (m + n)
    rw [← hpm, JournalReader.ends_iff hbm]
    exact ⟨_, hstep⟩
  generalize hs : i + (m + 1 + n) = start
  obtain ⟨hps, hbs⟩ := JournalReader.place_iterate dir hb start
  have hbehind (k : Nat) :
      ¬ Deliverable ((Place.next dir)^[k] ((pass dir)^[start] r).place).data
          ((Place.next dir)^[k] ((pass dir)^[start] r).place).offset ∧
        ¬ ZeroSized ((Place.next dir)^[k] ((pass dir)^[start] r).place).data
          ((Place.next dir)^[k] ((pass dir)^[start] r).place).offset := by
    rw [hps, ← Function.iterate_add_apply]
    rw [hplace] at hends ⊢
    exact h path rest data hp hl (m + n) (k + start) (by omega) hends
  have hmoves : ((pass dir)^[start] r).Moves dir :=
    ⟨hbs, fun k hz => (hbehind k).2 (stride_eq_zero_iff.mp hz)⟩
  exact hmoves.returns_notFound (JournalReader.iterate_isOpen dir ho start)
    fun k => (hbehind k).1

theorem nothingBehindEnd_of_endIsFinal {dir : Directory} {paths : List String}
    (hpaths : paths.length < 2 ^ 64) (h : EndIsFinal dir paths) : NothingBehindEnd dir paths := by
  rintro path rest data rfl hl j k hjk hends
  let r := JournalReader.opened path rest data
  have hopen : openPaths dir {} (path :: rest) = (.kOk, r) := openPaths_of_loadSegment rest hl
  have hb : r.Bounded := JournalReader.opened_bounded rest hl
  have ho : r.isOpen = true := rfl
  have hplace : r.place = ⟨rest, data, segmentHeaderSize⟩ := rfl
  rw [← hplace] at hends ⊢
  obtain ⟨hpj, hbj⟩ := JournalReader.place_iterate dir hb j
  rw [← hpj, JournalReader.ends_iff hbj] at hends
  obtain ⟨r₂, hend⟩ := hends
  obtain ⟨r₁, h₁, ho₁, -, hreturns₁⟩ := JournalReader.exists_called ho hb j
  obtain ⟨fuel, hcall⟩ := (hreturns₁ _).mpr (Loop.returns_of_inr hend)
  rw [← JournalReader.readNext_of_isOpen dir ho₁] at hcall
  have hr₂ : r₂ = (pass dir)^[j + 1] r := by
    rw [Function.iterate_succ_apply', JournalReader.pass_of_inr hend]
  obtain ⟨l, rfl⟩ : ∃ l, k = l + (j + 1) := ⟨k - (j + 1), by omega⟩
  obtain ⟨r₃, h₃, ho₃, hindex, hreturns₃⟩ := JournalReader.exists_called
    (JournalReader.iterate_isOpen dir ho (j + 1)) (JournalReader.place_iterate dir hb (j + 1)).2 l
  rw [← Function.iterate_add_apply] at hindex hreturns₃
  obtain ⟨hpk, hbk⟩ := JournalReader.place_iterate dir hb (l + (j + 1))
  rw [← hpk]
  refine JournalReader.nothing_of_returns dir hbk fun hs => ?_
  have hlt : ((pass dir)^[l + (j + 1)] r).currentSegmentIndex < (path :: rest).length :=
    (JournalReader.index_lt_or_end hb (Nat.succ_pos _) (l + (j + 1))).resolve_right hs
  obtain ⟨fuel', r₄, hlast⟩ := h {} r r₁ fuel r₂ r₃ hopen h₁ hcall (hr₂ ▸ h₃) (by omega)
  rw [JournalReader.readNext_of_isOpen dir ho₃] at hlast
  exact ⟨r₄, (hreturns₃ _).mp ⟨fuel', hlast⟩⟩

/-- The end of the journal is final exactly if there is nothing to read behind it. -/
theorem endIsFinal_iff {dir : Directory} {paths : List String} (hpaths : paths.length < 2 ^ 64) :
    EndIsFinal dir paths ↔ NothingBehindEnd dir paths :=
  ⟨nothingBehindEnd_of_endIsFinal hpaths, endIsFinal_of_nothingBehindEnd⟩

/-- A segment without records, and a file behind it that opens but is no segment. -/
theorem exists_invalid_behind (bytes : List UInt8) (hlen : bytes.length < 2 ^ 63)
    (hne : bytes ≠ []) (hinvalid : validSegment bytes = false) : ∃ dir data,
      JournalReader.segmentPathsOf dir = [buildSegmentPath 0, buildSegmentPath 1] ∧
      loadSegment dir (buildSegmentPath 0) = some data ∧ data.length = segmentHeaderSize ∧
      MmapFile.openReadOnly dir (buildSegmentPath 1) = .ok bytes ∧
      loadSegment dir (buildSegmentPath 1) = none := by
  have hdata : (segmentHeader ⟨fun _ => 0, fun _ => none⟩ 0 1048576).toBytes.length =
      segmentHeaderSize := JournalSegmentHeader.length_toBytes _
  obtain ⟨dir, hr, hp⟩ := exists_represents_pair (hdata.trans_lt (by decide)) hlen
  have hvalid := validSegment_append (segmentHeader_valid ⟨fun _ => 0, fun _ => none⟩ 0 1048576) []
  rw [List.append_nil] at hvalid
  obtain ⟨entry, hl, hbytes, -, hfault⟩ := hr.present 1 bytes rfl
  refine ⟨dir, _, hp, hr.loadSegment (j := 0) rfl hvalid, hdata, ?_,
    hr.loadSegment_of_invalid (j := 1) rfl hinvalid⟩
  subst hbytes
  simp only [MmapFile.openReadOnly, hl, hfault, if_neg hne]

/-- A file of one byte is the end of the journal for all later calls. -/
theorem endIsFinal_before_byte : ∃ dir,
    JournalReader.segmentPathsOf dir = [buildSegmentPath 0, buildSegmentPath 1] ∧
      (loadSegment dir (buildSegmentPath 0)).isSome ∧
      EndIsFinal dir [buildSegmentPath 0, buildSegmentPath 1] := by
  obtain ⟨dir, data, hp, hl, hlen, hopen, hbad⟩ :=
    exists_invalid_behind [0] (by decide) (by decide) (by decide)
  have hshort (d : List UInt8) (hd : d.length ≤ 64) : stride d segmentHeaderSize = none :=
    stride_eq_none_iff.mpr (verdict_endOfSegment_of_size (by
      unfold segmentHeaderSize totalRecordSize
      omega))
  refine ⟨dir, hp, by rw [hl]; rfl, (endIsFinal_iff (by decide)).mpr ?_⟩
  intro path rest data' hpaths hl' j k hjk _
  obtain ⟨rfl, rfl⟩ := List.cons.inj hpaths
  obtain rfl := Option.some.inj (hl.symm.trans hl')
  obtain ⟨k, rfl⟩ : ∃ m, k = m + 1 := ⟨k - 1, by omega⟩
  have hnext : Place.next dir ⟨[buildSegmentPath 1], data, segmentHeaderSize⟩ =
      ⟨[], [0], segmentHeaderSize⟩ := by
    simp only [Place.next, hshort data hlen.le, hopen]
    rfl
  have hfixed : Place.next dir ⟨[], [0], segmentHeaderSize⟩ = ⟨[], [0], segmentHeaderSize⟩ := by
    simp only [Place.next, hshort [0] (by decide)]
  rw [Function.iterate_succ_apply, hnext, Function.iterate_fixed hfixed]
  exact ⟨fun h => absurd h.1.1 (by decide), fun h => absurd h.1.1 (by decide)⟩

/-- The file of a segment whose header is lost, but not the record behind it. -/
def lostHeader : List UInt8 := List.replicate 64 0 ++ recordBytes 1 {}

/-- The first call reports the end of the journal, and the next one returns the record. -/
theorem lostHeader_read_after_end : ∃ dir r r₁ r₂,
    JournalReader.segmentPathsOf dir = [buildSegmentPath 0, buildSegmentPath 1] ∧
      MmapFile.openReadOnly dir (buildSegmentPath 1) = .ok lostHeader ∧
      JournalReader.openDirectory dir {} = (.kOk, r) ∧
      readNext dir 1 r = some ⟨.kNotFound, none, r₁⟩ ∧
      readNext dir 1 r₁ = some ⟨.kOk, some {}, r₂⟩ := by
  have hlen : lostHeader.length < 2 ^ 63 := by decide +kernel
  have hinvalid : validSegment lostHeader = false := by decide +kernel
  obtain ⟨dir, data, hp, hl, hsize, hopen, -⟩ :=
    exists_invalid_behind lostHeader hlen (by decide +kernel) hinvalid
  let r := JournalReader.opened (buildSegmentPath 0) [buildSegmentPath 1] data
  let r₁ : JournalReader := { r.nextSegment with currentMmap := some lostHeader }
  have hend : verdict r.data r.currentOffset = .endOfSegment :=
    verdict_endOfSegment_of_size
      (hsize.trans_lt (show segmentHeaderSize < segmentHeaderSize + totalRecordSize by decide))
  have hfirst : readNextStep dir r = .inr ⟨.kNotFound, none, r₁⟩ := by
    rw [JournalReader.readNextStep_of_end dir (JournalReader.opened_bounded _ hl) hend,
      JournalReader.advanceSegment,
      JournalReader.loadCurrentSegment_of_invalid (r := r.nextSegment) rfl hopen hinvalid]
  have hrecord : verdict r₁.data r₁.currentOffset = .deliver {} 160 := by
    have hdrop : lostHeader.drop 64 = recordBytes 1 {} ++ [] := by
      rw [List.append_nil]
      exact List.drop_left' List.length_replicate
    have hv := verdict_record hdrop
    rwa [if_pos EventSerializer.accepts_blank] at hv
  have hbound : r₁.Bounded := ⟨hlen, show segmentHeaderSize < 2 ^ 63 + 2 ^ 33 by decide⟩
  have hsecond := (JournalReader.readNextStep_of_deliver dir hbound hrecord).1
  have hread := JournalReader.readNext_of_isOpen dir (r := r₁) rfl 1
  rw [Loop.run, hsecond] at hread
  refine ⟨dir, r, r₁, _, hp, hopen, ?_, ?_, hread⟩
  · rw [JournalReader.openDirectory_of_cons hp]
    exact openPaths_of_loadSegment _ hl
  · rw [JournalReader.readNext_of_isOpen dir rfl, Loop.run, hfirst]

end Ume
