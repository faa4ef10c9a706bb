import Mathlib.Logic.Function.Iterate
import Ume.Event.SegmentStore

/-! When reading comes to an end. The reader moves by what a record header says,
so a record of size zero holds it in place for ever; nothing else does. -/

namespace Ume

open ByteString

/-- How far a pass moves in the mapped bytes, none at the end of the segment. -/
def stride (data : List UInt8) (off : Nat) : Option Nat :=
  match verdict data off with
  | .endOfSegment => none
  | .skip n => some n
  | .deliver _ recordSize => some recordSize.toNat

/-- A header at this offset that passes its checks and gives the size zero. -/
def ZeroSized (data : List UInt8) (off : Nat) : Prop :=
  ValidHeader data off ∧ (JournalRecordHeader.ofBytes (data.drop off)).recordSize = 0

theorem stride_of_validHeader {data : List UInt8} {off : Nat} (h : ValidHeader data off) :
    stride data off = some (JournalRecordHeader.ofBytes (data.drop off)).recordSize.toNat := by
  rw [stride, verdict_of_validHeader h]
  dsimp only
  split_ifs
  · rfl
  · cases EventSerializer.deserialize (some (slice (data.drop off) 32 128)) <;> rfl

theorem stride_ne_zero_of_not_validHeader {data : List UInt8} {off : Nat}
    (h : ¬ ValidHeader data off) : stride data off ≠ some 0 := by
  by_cases hl : off + totalRecordSize ≤ data.length
  · rw [stride, verdict_of_not_validHeader hl h]
    split_ifs <;> simp
  · rw [stride, verdict_endOfSegment_of_size (by omega)]
    simp

theorem stride_eq_zero_iff {data : List UInt8} {off : Nat} :
    stride data off = some 0 ↔ ZeroSized data off := by
  by_cases h : ValidHeader data off
  · have hz (n : UInt32) : n.toNat = 0 ↔ n = 0 := by
      rw [← UInt32.toNat_inj]
      rfl
    rw [stride_of_validHeader h, Option.some.injEq, hz]
    exact ⟨fun hs => ⟨h, hs⟩, fun hs => hs.2⟩
  · exact ⟨fun hs => False.elim (stride_ne_zero_of_not_validHeader h hs),
      fun hs => False.elim (h hs.1)⟩

/-- A place in a list of files: the files still to come, the bytes that are mapped,
and the offset in them. -/
structure Place where
  rest : List String
  data : List UInt8
  offset : Nat

/-- The next place that is looked at. A file that opens but is no segment is read
from the offset where the last segment ended. -/
def Place.next (dir : Directory) (p : Place) : Place :=
  match stride p.data p.offset, p.rest with
  | some n, _ => { p with offset := p.offset + n }
  | none, [] => p
  | none, path :: rest =>
    match MmapFile.openReadOnly dir path with
    | .error _ => ⟨rest, [], p.offset⟩
    | .ok bytes => ⟨rest, bytes, if validSegment bytes then segmentHeaderSize else p.offset⟩

namespace JournalReader

def place (r : JournalReader) : Place :=
  ⟨r.segmentPaths.drop (r.currentSegmentIndex + 1), r.data, r.currentOffset⟩

/-- The reader after one more pass of the loop of `read_next`, in the same call or a new one. -/
def pass (dir : Directory) (r : JournalReader) : JournalReader := passReader (readNextStep dir r)

theorem loadCurrentSegment_fixed (dir : Directory) (r : JournalReader) :
    (loadCurrentSegment dir r).2.currentSegmentIndex = r.currentSegmentIndex ∧
      (loadCurrentSegment dir r).2.segmentPaths = r.segmentPaths := by
  unfold loadCurrentSegment
  split
  · exact ⟨rfl, rfl⟩
  · split
    · exact ⟨rfl, rfl⟩
    · dsimp only
      split_ifs <;> exact ⟨rfl, rfl⟩

theorem lt_of_loadCurrentSegment {dir : Directory} {r : JournalReader}
    (h : (loadCurrentSegment dir r).1 = .kOk) : r.currentSegmentIndex < r.segmentPaths.length := by
  by_contra hn
  rw [loadCurrentSegment_of_none dir (List.getElem?_eq_none (Nat.le_of_not_lt hn))] at h
  cases h

theorem passReader_advanceSegment (dir : Directory) (r : JournalReader) :
    passReader (advanceSegment dir r) = (loadCurrentSegment dir r.nextSegment).2 := by
  rcases advanceSegment_cases dir r with ⟨_, ha⟩ | ⟨_, ha⟩ <;> rw [ha] <;> rfl

theorem place_advanceSegment (dir : Directory) {r : JournalReader} (hr : r.Bounded)
    (hv : verdict r.data r.currentOffset = .endOfSegment) :
    (passReader (advanceSegment dir r)).place = r.place.next dir ∧
      (passReader (advanceSegment dir r)).Bounded := by
  have hs : stride r.place.data r.place.offset = none := by
    simp only [stride, place, hv]
  have hrest : r.nextSegment.segmentPaths[r.nextSegment.currentSegmentIndex]? =
      r.place.rest.head? := nextSegment_path rfl rfl
  have hdrop : r.segmentPaths.drop (r.currentSegmentIndex + 1 + 1) = r.place.rest.tail := by
    rw [← List.drop_drop, place, List.drop_one]
  cases hp : r.place.rest with
  | nil =>
    rw [hp] at hrest hdrop
    rw [passReader_advanceSegment, loadCurrentSegment_of_none dir hrest]
    refine ⟨?_, hr⟩
    simp only [Place.next, hs, hp]
    exact congrArg (Place.mk · r.data r.currentOffset) (hdrop.trans hp.symm)
  | cons path rest =>
    rw [hp] at hrest hdrop
    cases ho : MmapFile.openReadOnly dir path with
    | error status =>
      rw [passReader_advanceSegment, loadCurrentSegment_of_error hrest ho]
      refine ⟨?_, by simp [data], hr.2⟩
      simp only [Place.next, hs, hp, ho]
      exact congrArg (Place.mk · [] r.currentOffset) hdrop
    | ok bytes =>
      have hlen := length_lt_of_openReadOnly ho
      cases hvalid : validSegment bytes with
      | true =>
        have hl : loadSegment dir path = some bytes := by simp [loadSegment, ho, hvalid]
        rw [passReader_advanceSegment, loadCurrentSegment_of_some hrest hl]
        refine ⟨?_, loaded_bounded hlen⟩
        simp only [Place.next, hs, hp, ho, hvalid, if_true]
        exact congrArg (Place.mk · bytes segmentHeaderSize) hdrop
      | false =>
        rw [passReader_advanceSegment, loadCurrentSegment_of_invalid hrest ho hvalid]
        refine ⟨?_, hlen, hr.2⟩
        simp only [Place.next, hs, hp, ho, hvalid, Bool.false_eq_true, if_false]
        exact congrArg (Place.mk · bytes r.currentOffset) hdrop

theorem place_pass (dir : Directory) {r : JournalReader} (hr : r.Bounded) :
    (pass dir r).place = r.place.next dir ∧ (pass dir r).Bounded := by
  cases hv : verdict r.data r.currentOffset with
  | endOfSegment =>
    rw [pass, readNextStep_of_end dir hr hv]
    exact place_advanceSegment dir hr hv
  | skip n =>
    obtain ⟨hstep, hb⟩ := readNextStep_of_skip dir hr hv
    have hs : stride r.place.data r.place.offset = some n := by simp only [stride, place, hv]
    rw [pass, hstep]
    exact ⟨by simp only [Place.next, hs]; rfl, hb⟩
  | deliver e size =>
    obtain ⟨hstep, hb⟩ := readNextStep_of_deliver dir hr hv
    have hs : stride r.place.data r.place.offset = some size.toNat := by
      simp only [stride, place, hv]
    rw [pass, hstep]
    exact ⟨by simp only [Place.next, hs]; rfl, hb⟩

theorem place_iterate (dir : Directory) {r : JournalReader} (hr : r.Bounded) (k : Nat) :
    ((pass dir)^[k] r).place = (Place.next dir)^[k] r.place ∧ ((pass dir)^[k] r).Bounded := by
  induction k with
  | zero => exact ⟨rfl, hr⟩
  | succ k ih =>
    rw [Function.iterate_succ_apply', Function.iterate_succ_apply', ← ih.1]
    exact place_pass dir ih.2

/-- The position at which a pass delivers a record. -/
def deliversAt (dir : Directory) (r : JournalReader) : Option (Nat × Nat) :=
  match readNextStep dir r with
  | .inr ⟨.kOk, some _, _⟩ => some (r.currentSegmentIndex, r.currentOffset)
  | _ => none

def Behind (r : JournalReader) (x : Nat × Nat) : Prop :=
  x.1 < r.currentSegmentIndex ∨ x.1 = r.currentSegmentIndex ∧ x.2 < r.currentOffset

/-- A pass stays in the segment and moves by the stride, or goes on to the next one. -/
theorem pass_position (dir : Directory) {r : JournalReader} (hr : r.Bounded) :
    (∃ n, stride r.data r.currentOffset = some n ∧
        (pass dir r).currentSegmentIndex = r.currentSegmentIndex ∧
        (pass dir r).currentOffset = r.currentOffset + n) ∨
      stride r.data r.currentOffset = none ∧
        (pass dir r).currentSegmentIndex = r.currentSegmentIndex + 1 := by
  cases hv : verdict r.data r.currentOffset with
  | endOfSegment =>
    refine .inr ⟨by simp only [stride, hv], ?_⟩
    rw [pass, readNextStep_of_end dir hr hv, passReader_advanceSegment]
    exact (loadCurrentSegment_fixed dir r.nextSegment).1
  | skip n =>
    refine .inl ⟨n, by simp only [stride, hv], ?_⟩
    rw [pass, (readNextStep_of_skip dir hr hv).1]
    exact ⟨rfl, rfl⟩
  | deliver e size =>
    refine .inl ⟨size.toNat, by simp only [stride, hv], ?_⟩
    rw [pass, (readNextStep_of_deliver dir hr hv).1]
    exact ⟨rfl, rfl⟩

theorem Behind.pass {dir : Directory} {r : JournalReader} {x : Nat × Nat} (h : r.Behind x)
    (hr : r.Bounded) : (r.pass dir).Behind x := by
  unfold Behind at h ⊢
  rcases pass_position dir hr with ⟨n, -, hi, ho⟩ | ⟨-, hi⟩ <;> omega

theorem Behind.iterate {dir : Directory} {r : JournalReader} {x : Nat × Nat} (h : r.Behind x)
    (hr : r.Bounded) (k : Nat) : ((JournalReader.pass dir)^[k] r).Behind x := by
  induction k with
  | zero => exact h
  | succ k ih =>
    rw [Function.iterate_succ_apply']
    exact ih.pass (place_iterate dir hr k).2

/-- No place from here on holds the reader. -/
structure Moves (dir : Directory) (r : JournalReader) : Prop where
  bounded : r.Bounded
  stride_ne : ∀ k, stride ((Place.next dir)^[k] r.place).data
    ((Place.next dir)^[k] r.place).offset ≠ some 0

theorem Moves.pass {dir : Directory} {r : JournalReader} (h : r.Moves dir) :
    (r.pass dir).Moves dir := by
  obtain ⟨hp, hb⟩ := place_pass dir h.bounded
  refine ⟨hb, fun k => ?_⟩
  rw [hp, ← Function.iterate_succ_apply]
  exact h.stride_ne (k + 1)

theorem Moves.iterate {dir : Directory} {r : JournalReader} (h : r.Moves dir) (k : Nat) :
    ((JournalReader.pass dir)^[k] r).Moves dir := by
  induction k with
  | zero => exact h
  | succ k ih =>
    rw [Function.iterate_succ_apply']
    exact ih.pass

/-- What is left to read: segments first, then bytes. -/
def budget (r : JournalReader) : Nat :=
  (r.segmentPaths.length - r.currentSegmentIndex) * 2 ^ 64 + (2 ^ 64 - r.currentOffset)

theorem budget_scanned_lt {r : JournalReader} (t : Tally) {n : Nat} (hn : 0 < n)
    (hb : (r.scanned t (r.currentOffset + n)).Bounded) :
    (r.scanned t (r.currentOffset + n)).budget < r.budget := by
  have h2 : r.currentOffset + n < 2 ^ 63 + 2 ^ 33 := hb.2
  have h3 : 2 ^ 64 - (r.currentOffset + n) < 2 ^ 64 - r.currentOffset := by omega
  exact Nat.add_lt_add_left h3 _

theorem budget_next_lt {n i off off' : Nat} (hi : i + 1 < n) (ho : off < 2 ^ 64) :
    (n - (i + 1)) * 2 ^ 64 + (2 ^ 64 - off') < (n - i) * 2 ^ 64 + (2 ^ 64 - off) := by
  have h : n - i = n - (i + 1) + 1 := by omega
  rw [h, Nat.add_mul, Nat.one_mul, Nat.add_assoc]
  apply Nat.add_lt_add_left
  omega

/-- Every pass that does not find the end of the journal uses some of it up. -/
theorem Moves.budget_lt {dir : Directory} {r : JournalReader} (h : r.Moves dir)
    (hne : ∀ r', readNextStep dir r ≠ .inr ⟨.kNotFound, none, r'⟩) :
    (r.pass dir).budget < r.budget := by
  have hpos : ∀ n, stride r.data r.currentOffset = some n → 0 < n := by
    intro n hn
    apply Nat.pos_of_ne_zero
    rintro rfl
    exact h.stride_ne 0 hn
  cases hv : verdict r.data r.currentOffset with
  | endOfSegment =>
    have hstep := readNextStep_of_end dir h.bounded hv
    rcases advanceSegment_cases dir r with ⟨hok, ha⟩ | ⟨_, ha⟩
    · have hlt : r.currentSegmentIndex + 1 < r.segmentPaths.length := lt_of_loadCurrentSegment hok
      have hfix := loadCurrentSegment_fixed dir r.nextSegment
      rw [JournalReader.pass, hstep, passReader_advanceSegment, budget, budget, hfix.1, hfix.2]
      exact budget_next_lt hlt (h.bounded.2.trans (by decide))
    · exact False.elim (hne _ (hstep.trans ha))
  | skip n =>
    obtain ⟨hstep, hb⟩ := readNextStep_of_skip dir h.bounded hv
    rw [JournalReader.pass, hstep]
    exact budget_scanned_lt _ (hpos n (by simp only [stride, hv])) hb
  | deliver e size =>
    obtain ⟨hstep, hb⟩ := readNextStep_of_deliver dir h.bounded hv
    rw [JournalReader.pass, hstep]
    exact budget_scanned_lt _ (hpos size.toNat (by simp only [stride, hv])) hb

theorem Moves.returns {dir : Directory} {r : JournalReader} (h : r.Moves dir) :
    ∃ res, Loop.Returns (readNextStep dir) r res := by
  refine Loop.exists_returns_of_measure (Moves dir) budget (fun s s' hs he => ?_) r h
  have hp : s.pass dir = s' := by rw [JournalReader.pass, he]; rfl
  have hlt := hs.budget_lt (fun r' hr' => by rw [he] at hr'; cases hr')
  rw [hp] at hlt
  exact ⟨hp ▸ hs.pass, hlt⟩

theorem Moves.reads {dir : Directory} {r : JournalReader} (h : r.Moves dir) :
    ∃ ds r', Reads dir r ds r' := by
  induction hn : r.budget using Nat.strong_induction_on generalizing r with
  | _ n ih =>
    cases he : readNextStep dir r with
    | inl r₁ =>
      have hp : r.pass dir = r₁ := by rw [JournalReader.pass, he]; rfl
      have hlt := h.budget_lt (fun r' hr' => by rw [he] at hr'; cases hr')
      rw [hp, hn] at hlt
      obtain ⟨ds, r', hr'⟩ := ih r₁.budget hlt (hp ▸ h.pass) rfl
      exact ⟨ds, r', .pass he hr'⟩
    | inr res =>
      rcases readNextStep_result he with ⟨e, r₁, rfl⟩ | ⟨r₁, rfl⟩
      · have hp : r.pass dir = r₁ := by rw [JournalReader.pass, he]; rfl
        have hlt := h.budget_lt (fun r' hr' => by rw [he] at hr'; cases hr')
        rw [hp, hn] at hlt
        obtain ⟨ds, r', hr'⟩ := ih r₁.budget hlt (hp ▸ h.pass) rfl
        exact ⟨_, r', .deliver he hr'⟩
      · exact ⟨[], r₁, .stop he⟩

theorem deliversAt_eq_some {dir : Directory} {r : JournalReader} {x : Nat × Nat}
    (hr : r.Bounded) (h : r.deliversAt dir = some x) :
    x = (r.currentSegmentIndex, r.currentOffset) ∧
      ∃ e size, verdict r.data r.currentOffset = .deliver e size := by
  cases hv : verdict r.data r.currentOffset with
  | endOfSegment =>
    rw [deliversAt, readNextStep_of_end dir hr hv] at h
    rcases advanceSegment_cases dir r with ⟨_, ha⟩ | ⟨_, ha⟩
    · rw [ha] at h
      cases h
    · rw [ha] at h
      cases h
  | skip n =>
    rw [deliversAt, (readNextStep_of_skip dir hr hv).1] at h
    cases h
  | deliver e size =>
    rw [deliversAt, (readNextStep_of_deliver dir hr hv).1] at h
    cases h
    exact ⟨rfl, e, size, rfl⟩

/-- A record that moves the reader on is not delivered again. -/
theorem Moves.deliversAt_ne {dir : Directory} {r : JournalReader} (h : r.Moves dir) {x : Nat × Nat}
    (hx : r.deliversAt dir = some x) (k : Nat) :
    ((JournalReader.pass dir)^[k] (r.pass dir)).deliversAt dir ≠ some x := by
  obtain ⟨rfl, e, size, hv⟩ := deliversAt_eq_some h.bounded hx
  have hs : stride r.data r.currentOffset = some size.toNat := by simp only [stride, hv]
  have hpos : 0 < size.toNat := by
    apply Nat.pos_of_ne_zero
    intro h0
    exact h.stride_ne 0 (hs.trans (congrArg some h0))
  have hbehind : (r.pass dir).Behind (r.currentSegmentIndex, r.currentOffset) := by
    rcases pass_position dir h.bounded with ⟨n, hn, hi, ho⟩ | ⟨hn, -⟩
    · rw [hs] at hn
      cases hn
      exact .inr ⟨hi.symm, by rw [ho]; exact Nat.lt_add_of_pos_right hpos⟩
    · rw [hs] at hn
      cases hn
  have hb := h.pass.bounded
  intro hy
  obtain ⟨he, -⟩ := deliversAt_eq_some (place_iterate dir hb k).2 hy
  have hk : ((JournalReader.pass dir)^[k] (r.pass dir)).Behind _ := hbehind.iterate hb k
  rw [he] at hk
  rcases hk with hk | ⟨-, hk⟩
  · exact Nat.lt_irrefl _ hk
  · exact Nat.lt_irrefl _ hk

theorem iterate_isOpen (dir : Directory) {r : JournalReader} (h : r.isOpen = true) (k : Nat) :
    ((pass dir)^[k] r).isOpen = true := by
  induction k with
  | zero => exact h
  | succ k ih =>
    rw [Function.iterate_succ_apply']
    exact readNextStep_isOpen dir ih

theorem readNext_of_isOpen (dir : Directory) {r : JournalReader} (h : r.isOpen = true)
    (fuel : Nat) : readNext dir fuel r = Loop.run (readNextStep dir) fuel r := by
  rw [readNext, if_neg (by simp [h])]

theorem not_returns_of_skip_zero (dir : Directory) {r : JournalReader} (hr : r.Bounded)
    (hv : verdict r.data r.currentOffset = .skip 0) (res : ReadResult) :
    ¬ Loop.Returns (readNextStep dir) r res := by
  refine Loop.not_returns_of_trap
    (fun s => s.Bounded ∧ s.data = r.data ∧ s.currentOffset = r.currentOffset) ?_ r ⟨hr, rfl, rfl⟩
    res
  rintro s ⟨hs, hd, ho⟩
  obtain ⟨hstep, hb⟩ := readNextStep_of_skip dir hs (hd ▸ ho ▸ hv)
  exact ⟨_, hstep, hb, hd, ho⟩

theorem deliversAt_pass_of_deliver_zero (dir : Directory) {r : JournalReader} {e : Event}
    {size : UInt32} (hr : r.Bounded) (hv : verdict r.data r.currentOffset = .deliver e size)
    (h0 : size.toNat = 0) :
    r.deliversAt dir = some (r.currentSegmentIndex, r.currentOffset) ∧
      (r.pass dir).deliversAt dir = some (r.currentSegmentIndex, r.currentOffset) := by
  have hstep := (readNextStep_of_deliver dir hr hv).1
  have hp : r.pass dir = r.scanned { records := 1, bytes := size.toNat } r.currentOffset := by
    rw [pass, hstep, h0]
    rfl
  have hb : (r.scanned { records := 1, bytes := size.toNat } r.currentOffset).Bounded := hr
  refine ⟨by rw [deliversAt, hstep], ?_⟩
  rw [hp, deliversAt, (readNextStep_of_deliver dir hb hv).1]
  rfl

/-- The loop over `read_next` does not end either. -/
theorem not_reads_of_deliver_zero {dir : Directory} {r r' : JournalReader} {ds : List Delivery}
    {e : Event} {size : UInt32} (hr : r.Bounded)
    (hv : verdict r.data r.currentOffset = .deliver e size) (h0 : size.toNat = 0) :
    ¬ Reads dir r ds r' := by
  intro h
  induction h with
  | stop h =>
    rw [(readNextStep_of_deliver dir hr hv).1] at h
    cases h
  | pass h =>
    rw [(readNextStep_of_deliver dir hr hv).1] at h
    cases h
  | deliver h _ ih =>
    rw [(readNextStep_of_deliver dir hr hv).1, h0, Nat.add_zero] at h
    cases h
    exact ih hr hv

end JournalReader

open JournalReader (openPaths readNext pass deliversAt)

/-- Reading a list of segment files comes to an end: every call of `read_next`
returns, no record is delivered twice, and the replay loop ends. -/
structure ReadingTerminates (dir : Directory) (paths : List String) : Prop where
  returns : ∀ r, openPaths dir {} paths = (.kOk, r) →
    ∀ k, ∃ fuel res, readNext dir fuel ((pass dir)^[k] r) = some res
  once : ∀ r, openPaths dir {} paths = (.kOk, r) → ∀ j k x, j < k →
    ((pass dir)^[j] r).deliversAt dir = some x → ((pass dir)^[k] r).deliversAt dir ≠ some x
  ends : ∀ (δ : Type) (dispatch : δ → Event → δ) (d : δ), ∃ fuel out,
    ReplayEngine.replayOpened dispatch dir fuel (openPaths dir {} paths) d = some out

/-- No place that reading comes to holds a header of size zero. -/
def NeverZeroSized (dir : Directory) (paths : List String) : Prop :=
  ∀ path rest data, paths = path :: rest → loadSegment dir path = some data → ∀ k,
    ¬ ZeroSized ((Place.next dir)^[k] ⟨rest, data, segmentHeaderSize⟩).data
      ((Place.next dir)^[k] ⟨rest, data, segmentHeaderSize⟩).offset

/-- The reader that `open` gives back when the first file loads. -/
def JournalReader.opened (path : String) (rest : List String) (data : List UInt8) :
    JournalReader :=
  JournalReader.loaded { JournalReader.close {} with segmentPaths := path :: rest } data

theorem openPaths_of_loadSegment {dir : Directory} {path : String} {data : List UInt8}
    (rest : List String) (hl : loadSegment dir path = some data) :
    openPaths dir {} (path :: rest) = (.kOk, JournalReader.opened path rest data) :=
  JournalReader.loadCurrentSegment_of_some rfl hl

theorem JournalReader.opened_bounded {dir : Directory} {path : String} {data : List UInt8}
    (rest : List String) (hl : loadSegment dir path = some data) :
    (JournalReader.opened path rest data).Bounded :=
  JournalReader.loaded_bounded (length_lt_of_loadSegment hl)

theorem openPaths_eq_ok {dir : Directory} {paths : List String} {r₀ r : JournalReader}
    (h : openPaths dir r₀ paths = (.kOk, r)) :
    ∃ path rest data, paths = path :: rest ∧ loadSegment dir path = some data ∧
      r.place = ⟨rest, data, segmentHeaderSize⟩ ∧ r.Bounded ∧ r.isOpen = true := by
  cases paths with
  | nil => simp [openPaths, JournalReader.loadCurrentSegment] at h
  | cons path rest =>
    cases hl : loadSegment dir path with
    | none =>
      obtain ⟨status, m, hne, hload⟩ := JournalReader.loadCurrentSegment_of_bad
        (r := { r₀.close with segmentPaths := path :: rest }) rfl hl
      rw [openPaths, hload] at h
      exact False.elim (hne (congrArg Prod.fst h))
    | some data =>
      rw [openPaths, JournalReader.loadCurrentSegment_of_some rfl hl] at h
      cases h
      exact ⟨path, rest, data, rfl, hl, rfl,
        JournalReader.loaded_bounded (length_lt_of_loadSegment hl), rfl⟩

theorem readingTerminates_of_neverZeroSized {dir : Directory} {paths : List String}
    (h : NeverZeroSized dir paths) : ReadingTerminates dir paths := by
  have hmoves : ∀ r, openPaths dir {} paths = (.kOk, r) → r.Moves dir ∧ r.isOpen = true := by
    intro r hr
    obtain ⟨path, rest, data, hp, hl, hplace, hb, ho⟩ := openPaths_eq_ok hr
    refine ⟨⟨hb, fun k hz => ?_⟩, ho⟩
    rw [hplace] at hz
    exact h path rest data hp hl k (stride_eq_zero_iff.mp hz)
  refine ⟨fun r hr k => ?_, fun r hr j k x hjk hx => ?_, fun δ dispatch d => ?_⟩
  · obtain ⟨hm, ho⟩ := hmoves r hr
    obtain ⟨res, fuel, hrun⟩ := (hm.iterate k).returns
    refine ⟨fuel, res, ?_⟩
    rw [JournalReader.readNext_of_isOpen dir (JournalReader.iterate_isOpen dir ho k)]
    exact hrun
  · obtain ⟨n, rfl⟩ : ∃ n, k = n + 1 + j := ⟨k - j - 1, by omega⟩
    rw [Function.iterate_add_apply, Function.iterate_succ_apply]
    exact ((hmoves r hr).1.iterate j).deliversAt_ne hx n
  · rcases hopen : openPaths dir {} paths with ⟨status, r⟩
    by_cases hok : status = .kOk
    · subst hok
      obtain ⟨hm, ho⟩ := hmoves r hopen
      obtain ⟨ds, r', hreads⟩ := hm.reads
      obtain ⟨fuel, hf⟩ := ReplayEngine.replayLoop_of_reads dispatch hreads ho d 0
      exact ⟨fuel, _, by rw [ReplayEngine.replayOpened, hf]; rfl⟩
    · exact ⟨0, (.error status, d), by rw [ReplayEngine.replayOpened]; exact hok⟩

theorem neverZeroSized_of_readingTerminates {dir : Directory} {paths : List String}
    (h : ReadingTerminates dir paths) : NeverZeroSized dir paths := by
  rintro path rest data rfl hl k hz
  let r := JournalReader.opened path rest data
  have hopen : openPaths dir {} (path :: rest) = (.kOk, r) := openPaths_of_loadSegment rest hl
  have hb : r.Bounded := JournalReader.opened_bounded rest hl
  obtain ⟨hplace, hbk⟩ : ((pass dir)^[k] r).place =
      (Place.next dir)^[k] ⟨rest, data, segmentHeaderSize⟩ ∧ ((pass dir)^[k] r).Bounded :=
    JournalReader.place_iterate dir hb k
  rw [← hplace, ← stride_eq_zero_iff] at hz
  have hstride : stride ((pass dir)^[k] r).data ((pass dir)^[k] r).currentOffset = some 0 := hz
  cases hv : verdict ((pass dir)^[k] r).data ((pass dir)^[k] r).currentOffset with
  | endOfSegment =>
    simp only [stride, hv] at hstride
    cases hstride
  | skip n =>
    simp only [stride, hv, Option.some.injEq] at hstride
    subst hstride
    obtain ⟨fuel, res, hrun⟩ := h.returns r hopen k
    rw [JournalReader.readNext_of_isOpen dir (JournalReader.iterate_isOpen dir rfl k)] at hrun
    exact JournalReader.not_returns_of_skip_zero dir hbk hv res ⟨fuel, hrun⟩
  | deliver e size =>
    simp only [stride, hv, Option.some.injEq] at hstride
    obtain ⟨h₁, h₂⟩ := JournalReader.deliversAt_pass_of_deliver_zero dir hbk hv hstride
    rw [← Function.iterate_succ_apply' (pass dir)] at h₂
    exact h.once r hopen k (k + 1) _ (Nat.lt_succ_self k) h₁ h₂

/-- Reading terminates exactly if it meets no record of size zero. -/
theorem readingTerminates_iff (dir : Directory) (paths : List String) :
    ReadingTerminates dir paths ↔ NeverZeroSized dir paths :=
  ⟨neverZeroSized_of_readingTerminates, readingTerminates_of_neverZeroSized⟩

/-- The header of a record that claims the size zero, with its checksums. -/
def zeroSizedHeader (event : Event) : JournalRecordHeader :=
  let header : JournalRecordHeader :=
    { recordSize := 0, sequenceNum := 1, payloadCrc32 := computeCrc32 event.toBytes }
  { header with headerCrc32 := computeCrc32 (header.toBytes.take 20) }

theorem verdict_zeroSizedHeader {e : Event} (ha : EventSerializer.accepts e = true)
    {data : List UInt8} {off : Nat} (h : data.drop off = (zeroSizedHeader e).toBytes ++ e.toBytes) :
    verdict data off = .deliver e 0 := by
  rw [← List.append_nil e.toBytes] at h
  have hm : (zeroSizedHeader e).magic = 0x52454344 := rfl
  have hc : computeCrc32 ((zeroSizedHeader e).toBytes.take 20) = (zeroSizedHeader e).headerCrc32 :=
    congrArg computeCrc32 (JournalRecordHeader.take_toBytes_setCrc _ _)
  have hp : (zeroSizedHeader e).payloadCrc32 = computeCrc32 e.toBytes := rfl
  have hs : (zeroSizedHeader e).recordSize = 0 := rfl
  rw [verdict_header h hm hc hp, if_pos ha, hs]

/-- A replay that begins with a valid record of size zero never ends. -/
theorem replaySegment_of_deliver_zero {δ : Type*} (dispatch : δ → Event → δ) {dir : Directory}
    {path : String} {data : List UInt8} {e : Event} (hl : loadSegment dir path = some data)
    (hv : verdict data segmentHeaderSize = .deliver e 0) (fuel : Nat) (d : δ) :
    ReplayEngine.replaySegment dispatch dir fuel path d = none := by
  let r := JournalReader.opened path [] data
  have hopen : JournalReader.openSegment dir {} path = (.kOk, r) := openPaths_of_loadSegment [] hl
  have hb : r.Bounded := JournalReader.opened_bounded [] hl
  cases hloop : ReplayEngine.replayLoop dispatch dir fuel r d 0 with
  | none =>
    rw [ReplayEngine.replaySegment, hopen, ReplayEngine.replayOpened, hloop]
    rfl
  | some out =>
    obtain ⟨ds, r', hreads⟩ := ReplayEngine.reads_of_replayLoop (r := r) rfl hloop
    exact False.elim (JournalReader.not_reads_of_deliver_zero hb hv rfl hreads)

/-- A segment file with one record of size zero: its replay does not end. -/
theorem zero_sized_record_never_ends : ∃ dir data,
    data = (JournalWriter.segmentHeader ⟨fun _ => 0, fun _ => none⟩ 0 1048576).toBytes ++
        ((zeroSizedHeader {}).toBytes ++ Event.toBytes {}) ∧
      loadSegment dir "segment_000000.umej" = some data ∧
      ¬ ReadingTerminates dir ["segment_000000.umej"] ∧
      ∀ fuel, ReplayEngine.replaySegment (fun log e => log ++ [e]) dir fuel
        "segment_000000.umej" [] = none := by
  let header := JournalWriter.segmentHeader ⟨fun _ => 0, fun _ => none⟩ 0 1048576
  let data := header.toBytes ++ ((zeroSizedHeader {}).toBytes ++ Event.toBytes {})
  have hlen : data.length < 2 ^ 63 := by
    rw [List.length_append, List.length_append, JournalSegmentHeader.length_toBytes,
      JournalRecordHeader.length_toBytes, Event.length_toBytes]
    decide
  have hpath : JournalWriter.buildSegmentPath 0 = "segment_000000.umej" := by decide
  have hr := represents_empty.insert 0 { file := ⟨data, hlen⟩ } rfl rfl
  have hl := hr.loadSegment (j := 0) (Function.update_self ..)
    (validSegment_append (segmentHeader_valid _ _ _) _)
  rw [hpath] at hl
  have hv : verdict data segmentHeaderSize = .deliver {} 0 :=
    verdict_zeroSizedHeader EventSerializer.accepts_blank
      (List.drop_left' (JournalSegmentHeader.length_toBytes header))
  refine ⟨_, data, rfl, hl, fun ht => ?_, fun fuel => ?_⟩
  · have hz : stride data segmentHeaderSize = some 0 := by simp only [stride, hv]; rfl
    exact neverZeroSized_of_readingTerminates ht _ [] data rfl hl 0 (stride_eq_zero_iff.mp hz)
  · exact replaySegment_of_deliver_zero _ hl hv fuel []

end Ume
