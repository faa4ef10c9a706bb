import Ume.Event.ReplayEngine

/-! What the reader does at one position depends on the mapped bytes alone.
`verdict` says what that is, `Scan` runs it over one segment, and `Reads` is
the sequence of passes that a loop of `read_next` calls makes. -/

namespace Ume

open ByteString

inductive Verdict where
  | endOfSegment
  | skip (n : Nat)
  | deliver (event : Event) (recordSize : UInt32)

def verdict (data : List UInt8) (off : Nat) : Verdict :=
  if off + totalRecordSize > data.length then .endOfSegment
  else
    let record := data.drop off
    let header := JournalRecordHeader.ofBytes record
    if header.magic = 0 ∧ header.recordSize = 0 then .endOfSegment
    else if header.magic ≠ 0x52454344 then .skip 1
    else if computeCrc32 (record.take 20) ≠ header.headerCrc32 then .skip 8
    else if computeCrc32 (slice record 32 128) ≠ header.payloadCrc32 then
      .skip header.recordSize.toNat
    else
      match EventSerializer.deserialize (some (slice record 32 128)) with
      | .error _ => .skip header.recordSize.toNat
      | .ok event => .deliver event header.recordSize

theorem verdict_endOfSegment_of_size {data : List UInt8} {off : Nat}
    (h : data.length < off + totalRecordSize) : verdict data off = .endOfSegment := by
  rw [verdict, if_pos h]

/-- A verdict other than the end needs a whole record, and moves the position
by a 32-bit amount. -/
theorem verdict_skip {data : List UInt8} {off n : Nat} (h : verdict data off = .skip n) :
    off + totalRecordSize ≤ data.length ∧ n < 2 ^ 32 := by
  unfold verdict at h
  split at h
  · cases h
  · refine ⟨by omega, ?_⟩
    have hs := (JournalRecordHeader.ofBytes (data.drop off)).recordSize.toNat_lt
    simp only at h
    split at h
    · cases h
    · split at h
      · cases h; omega
      · split at h
        · cases h; omega
        · split at h
          · cases h; exact hs
          · split at h
            · cases h; exact hs
            · cases h

theorem verdict_deliver {data : List UInt8} {off : Nat} {e : Event} {size : UInt32}
    (h : verdict data off = .deliver e size) : off + totalRecordSize ≤ data.length := by
  by_contra hn
  rw [verdict_endOfSegment_of_size (by omega)] at h
  cases h

/-- The record magic and a header checksum that matches, where a record fits. -/
def ValidHeader (data : List UInt8) (off : Nat) : Prop :=
  off + totalRecordSize ≤ data.length ∧
    (JournalRecordHeader.ofBytes (data.drop off)).magic = 0x52454344 ∧
    computeCrc32 ((data.drop off).take 20) =
      (JournalRecordHeader.ofBytes (data.drop off)).headerCrc32

/-- Without a valid header the reader goes on by one byte or by eight, or takes
eight zero bytes for the end. -/
theorem verdict_of_not_validHeader {data : List UInt8} {off : Nat}
    (hl : off + totalRecordSize ≤ data.length) (h : ¬ ValidHeader data off) :
    verdict data off =
      if (JournalRecordHeader.ofBytes (data.drop off)).magic = 0 ∧
          (JournalRecordHeader.ofBytes (data.drop off)).recordSize = 0 then .endOfSegment
      else if (JournalRecordHeader.ofBytes (data.drop off)).magic = 0x52454344 then .skip 8
      else .skip 1 := by
  rw [verdict, if_neg (Nat.not_lt.mpr hl)]
  dsimp only
  by_cases hm : (JournalRecordHeader.ofBytes (data.drop off)).magic = 0x52454344
  · have hc : computeCrc32 ((data.drop off).take 20) ≠
        (JournalRecordHeader.ofBytes (data.drop off)).headerCrc32 := fun hc => h ⟨hl, hm, hc⟩
    rw [if_neg (not_not.mpr hm), if_pos hc, if_pos hm]
  · rw [if_pos hm, if_neg hm]

/-- At a valid header the reader goes by the payload and the size it gives. -/
theorem verdict_of_validHeader {data : List UInt8} {off : Nat} (h : ValidHeader data off) :
    verdict data off =
      let header := JournalRecordHeader.ofBytes (data.drop off)
      if computeCrc32 (slice (data.drop off) 32 128) ≠ header.payloadCrc32 then
        .skip header.recordSize.toNat
      else
        match EventSerializer.deserialize (some (slice (data.drop off) 32 128)) with
        | .error _ => .skip header.recordSize.toNat
        | .ok event => .deliver event header.recordSize := by
  obtain ⟨hl, hm, hc⟩ := h
  have h0 : ¬ ((JournalRecordHeader.ofBytes (data.drop off)).magic = 0 ∧
      (JournalRecordHeader.ofBytes (data.drop off)).recordSize = 0) := by
    rw [hm]
    exact fun h => absurd h.1 (by decide)
  rw [verdict, if_neg (Nat.not_lt.mpr hl)]
  dsimp only
  rw [if_neg h0, if_neg (not_not.mpr hm), if_neg (not_not.mpr hc)]

namespace JournalReader

/-- Offsets stay so far below `2 ^ 64` that no sum wraps. -/
def Bounded (r : JournalReader) : Prop :=
  r.data.length < 2 ^ 63 ∧ r.currentOffset < 2 ^ 63 + 2 ^ 33

theorem readNextStep_eq (dir : Directory) {r : JournalReader} (hr : r.Bounded) :
    readNextStep dir r =
      match verdict r.data r.currentOffset with
      | .endOfSegment => advanceSegment dir r
      | .skip n => .inl (r.skip n)
      | .deliver event recordSize => .inr ⟨.kOk, some event, r.deliver recordSize⟩ := by
  have hu : u64 (r.currentOffset + totalRecordSize) = r.currentOffset + totalRecordSize := by
    apply u64_of_lt
    have := hr.2
    unfold totalRecordSize
    omega
  simp only [readNextStep, verdict, hu]
  split_ifs
  · rfl
  · rfl
  · rfl
  · rfl
  · rfl
  · cases EventSerializer.deserialize (some (slice (r.data.drop r.currentOffset) 32 128)) <;> rfl

end JournalReader

/-- A record handed to the caller: where it was read, and the event in it. -/
structure Delivery where
  segment : Nat
  offset : Nat
  event : Event
  deriving DecidableEq

/-- The passes of a reader that is asked for records until there are no more. -/
inductive Reads (dir : Directory) : JournalReader → List Delivery → JournalReader → Prop where
  | stop {r r' : JournalReader}
      (h : JournalReader.readNextStep dir r = .inr ⟨.kNotFound, none, r'⟩) : Reads dir r [] r'
  | pass {r r₁ r' : JournalReader} {ds : List Delivery}
      (h : JournalReader.readNextStep dir r = .inl r₁) (hr : Reads dir r₁ ds r') :
      Reads dir r ds r'
  | deliver {r r₁ r' : JournalReader} {ds : List Delivery} {e : Event}
      (h : JournalReader.readNextStep dir r = .inr ⟨.kOk, some e, r₁⟩) (hr : Reads dir r₁ ds r') :
      Reads dir r (⟨r.currentSegmentIndex, r.currentOffset, e⟩ :: ds) r'

namespace JournalReader

theorem readNextStep_cases (dir : Directory) (r : JournalReader) :
    readNextStep dir r = advanceSegment dir r ∨ (∃ n, readNextStep dir r = .inl (r.skip n)) ∨
      ∃ e size, readNextStep dir r = .inr ⟨.kOk, some e, r.deliver size⟩ := by
  unfold readNextStep
  dsimp only
  split_ifs
  · exact .inl rfl
  · exact .inl rfl
  · exact .inr (.inl ⟨_, rfl⟩)
  · exact .inr (.inl ⟨_, rfl⟩)
  · exact .inr (.inl ⟨_, rfl⟩)
  · split
    · exact .inr (.inl ⟨_, rfl⟩)
    · exact .inr (.inr ⟨_, _, rfl⟩)

theorem advanceSegment_cases (dir : Directory) (r : JournalReader) :
    let loaded := loadCurrentSegment dir r.nextSegment
    (loaded.1 = .kOk ∧ advanceSegment dir r = .inl loaded.2) ∨
      (loaded.1 ≠ .kOk ∧ advanceSegment dir r = .inr ⟨.kNotFound, none, loaded.2⟩) := by
  unfold advanceSegment
  split
  · rename_i h
    exact .inl ⟨by rw [h], by rw [h]⟩
  · rename_i hne h
    exact .inr ⟨by rw [h]; exact hne, by rw [h]⟩

theorem loadCurrentSegment_isOpen (dir : Directory) {r : JournalReader} (hr : r.isOpen = true) :
    (loadCurrentSegment dir r).2.isOpen = true := by
  unfold loadCurrentSegment
  split
  · exact hr
  · split
    · exact hr
    · dsimp only
      split_ifs <;> first | exact hr | rfl

def passReader : JournalReader ⊕ ReadResult → JournalReader :=
  Sum.elim id ReadResult.reader

theorem readNextStep_isOpen (dir : Directory) {r : JournalReader} (hr : r.isOpen = true) :
    (passReader (readNextStep dir r)).isOpen = true := by
  rcases readNextStep_cases dir r with h | ⟨n, h⟩ | ⟨e, size, h⟩
  · have hl := loadCurrentSegment_isOpen dir (r := r.nextSegment) hr
    rcases advanceSegment_cases dir r with ⟨_, ha⟩ | ⟨_, ha⟩ <;> rw [h, ha] <;> exact hl
  · rw [h]; exact hr
  · rw [h]; exact hr

theorem run_isOpen {dir : Directory} {fuel : Nat} {r : JournalReader} {res : ReadResult}
    (h : Loop.run (readNextStep dir) fuel r = some res) (hr : r.isOpen = true) :
    res.reader.isOpen = true := by
  obtain ⟨s, hs, he⟩ := Loop.run_invariant (fun s : JournalReader => s.isOpen = true)
    (fun s s' hs he => by
      have := readNextStep_isOpen dir hs
      rwa [he] at this) h hr
  have := readNextStep_isOpen dir hs
  rwa [he] at this

theorem readNextStep_result {dir : Directory} {r : JournalReader} {res : ReadResult}
    (h : readNextStep dir r = .inr res) :
    (∃ e r₁, res = ⟨.kOk, some e, r₁⟩) ∨ ∃ r₁, res = ⟨.kNotFound, none, r₁⟩ := by
  rcases readNextStep_cases dir r with hc | ⟨n, hc⟩ | ⟨e, size, hc⟩
  · rcases advanceSegment_cases dir r with ⟨_, ha⟩ | ⟨_, ha⟩
    · rw [hc, ha] at h; cases h
    · rw [hc, ha] at h; cases h; exact .inr ⟨_, rfl⟩
  · rw [hc] at h; cases h
  · rw [hc] at h; cases h; exact .inl ⟨_, _, rfl⟩

/-- Only a record whose payload has the checksum in its header and passes validation is
handed out. -/
theorem readNextStep_eq_ok {dir : Directory} {r r' : JournalReader} {e : Event}
    (h : readNextStep dir r = .inr ⟨.kOk, some e, r'⟩) :
    computeCrc32 (slice (r.data.drop r.currentOffset) 32 128) =
        (JournalRecordHeader.ofBytes (r.data.drop r.currentOffset)).payloadCrc32 ∧
      EventSerializer.deserialize (some (slice (r.data.drop r.currentOffset) 32 128)) = .ok e := by
  have hadvance : advanceSegment dir r ≠ .inr ⟨.kOk, some e, r'⟩ := by
    rcases advanceSegment_cases dir r with ⟨_, ha⟩ | ⟨_, ha⟩
    · rw [ha]; exact Sum.inl_ne_inr
    · rw [ha]; exact fun he => by cases he
  unfold readNextStep at h
  dsimp only at h
  split_ifs at h with hsize hzero hmagic hheader hpayload
  · exact absurd h hadvance
  · exact absurd h hadvance
  · cases hd : EventSerializer.deserialize (some (slice (r.data.drop r.currentOffset) 32 128)) with
    | error status => rw [hd] at h; cases h
    | ok event =>
      rw [hd] at h
      cases h
      exact ⟨not_not.mp hpayload, rfl⟩

end JournalReader

namespace ReplayEngine

variable {δ : Type*} {dispatch : δ → Event → δ} {dir : Directory}

theorem replayLoop_mono {fuel fuel' : Nat} {r : JournalReader} {d : δ} {k : UInt64}
    {out : JournalReader × δ × UInt64} (h : replayLoop dispatch dir fuel r d k = some out)
    (hle : fuel ≤ fuel') : replayLoop dispatch dir fuel' r d k = some out := by
  induction fuel generalizing fuel' r d k with
  | zero => simp [replayLoop] at h
  | succ fuel ih =>
    obtain ⟨more, rfl⟩ : ∃ more, fuel' = more + 1 := ⟨fuel' - 1, by omega⟩
    cases hn : JournalReader.readNext dir fuel r with
    | none => simp [replayLoop, hn] at h
    | some res =>
      have hm : JournalReader.readNext dir more r = some res := by
        unfold JournalReader.readNext at hn ⊢
        split_ifs at hn ⊢
        · exact hn
        · exact Loop.run_mono hn (by omega)
      simp only [replayLoop, hn, hm] at h ⊢
      split_ifs at h ⊢
      · exact ih h (by omega)
      · exact h

theorem replayLoop_pass {fuel : Nat} {r r₁ : JournalReader} {d : δ} {k : UInt64}
    {out : JournalReader × δ × UInt64} (hr : r.isOpen = true)
    (hs : JournalReader.readNextStep dir r = .inl r₁)
    (h : replayLoop dispatch dir fuel r₁ d k = some out) :
    replayLoop dispatch dir (fuel + 1) r d k = some out := by
  have hr₁ : r₁.isOpen = true := by
    have := JournalReader.readNextStep_isOpen dir hr
    rwa [hs] at this
  cases fuel with
  | zero => simp [replayLoop] at h
  | succ fuel =>
    have hn : JournalReader.readNext dir (fuel + 1) r = JournalReader.readNext dir fuel r₁ := by
      simp [JournalReader.readNext, hr, hr₁, Loop.run, hs]
    cases he : JournalReader.readNext dir fuel r₁ with
    | none => simp [replayLoop, he] at h
    | some res =>
      rw [replayLoop]
      simp only [hn, he]
      simp only [replayLoop, he] at h
      split_ifs at h ⊢
      · exact replayLoop_mono h (Nat.le_succ fuel)
      · exact h

/-- The replay loop dispatches what the reader delivers, in that order. -/
theorem replayLoop_of_reads (dispatch : δ → Event → δ) {r r' : JournalReader} {ds : List Delivery}
    (h : Reads dir r ds r') (hr : r.isOpen = true) (d : δ) (k : UInt64) :
    ∃ fuel, replayLoop dispatch dir fuel r d k =
      some (r', (ds.map fun x => x.event.replayed).foldl dispatch d,
        k + UInt64.ofNat ds.length) := by
  induction h generalizing d k with
  | stop h =>
    refine ⟨2, ?_⟩
    simp [replayLoop, JournalReader.readNext, hr, Loop.run, h]
  | pass h _ ih =>
    have hr₁ := JournalReader.readNextStep_isOpen dir hr
    rw [h] at hr₁
    obtain ⟨fuel, hf⟩ := ih hr₁ d k
    exact ⟨fuel + 1, replayLoop_pass hr h hf⟩
  | @deliver r r₁ r' ds e h _ ih =>
    have hr₁ := JournalReader.readNextStep_isOpen dir hr
    rw [h] at hr₁
    obtain ⟨fuel, hf⟩ := ih hr₁ (dispatch d e.replayed) (k + 1)
    refine ⟨fuel + 2, ?_⟩
    have hn : JournalReader.readNext dir (fuel + 1) r = some ⟨.kOk, some e, r₁⟩ := by
      simp [JournalReader.readNext, hr, Loop.run, h]
    have hk : k + 1 + UInt64.ofNat ds.length = k + UInt64.ofNat (ds.length + 1) := by
      rw [UInt64.ofNat_add, UInt64.add_assoc, UInt64.add_comm 1]
      rfl
    rw [replayLoop, hn]
    simp only [if_true, Option.getD_some, List.map_cons, List.foldl_cons, List.length_cons]
    rw [← hk]
    exact replayLoop_mono hf (by omega)

theorem reads_of_replayLoop {fuel : Nat} {r : JournalReader} {d : δ} {k : UInt64}
    {out : JournalReader × δ × UInt64} (hr : r.isOpen = true)
    (h : replayLoop dispatch dir fuel r d k = some out) : ∃ ds r', Reads dir r ds r' := by
  induction fuel generalizing r d k with
  | zero => simp [replayLoop] at h
  | succ fuel ih =>
    cases hn : JournalReader.readNext dir fuel r with
    | none => simp [replayLoop, hn] at h
    | some res =>
      have hl : Loop.run (JournalReader.readNextStep dir) fuel r = some res := by
        simpa [JournalReader.readNext, hr] using hn
      have ho : res.reader.isOpen = true := JournalReader.run_isOpen hl hr
      have hrest : res.status = .kOk → ∃ ds r', Reads dir res.reader ds r' := by
        intro hok
        simp only [replayLoop, hn, hok, if_true] at h
        exact ih ho h
      refine Loop.run_induction (motive := fun s => ∃ ds r', Reads dir s ds r') ?_ ?_ hl
      · intro s hs
        rcases JournalReader.readNextStep_result hs with ⟨e, s₁, rfl⟩ | ⟨s₁, rfl⟩
        · obtain ⟨ds, r', hh⟩ := hrest rfl
          exact ⟨_, r', .deliver hs hh⟩
        · exact ⟨[], s₁, .stop hs⟩
      · rintro s s₁ hs ⟨ds, r', hh⟩
        exact ⟨ds, r', .pass hs hh⟩

end ReplayEngine

end Ume
