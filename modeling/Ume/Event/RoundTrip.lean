import Ume.Event.JournalReplay

/-! Journaling events into a fresh directory and replaying it gives the events back. -/

namespace Ume

open ByteString JournalWriter

theorem endMark_replicate (n : Nat) : EndMark (List.replicate n 0) := by
  by_cases h : n < totalRecordSize
  · exact .inl (by rwa [List.length_replicate])
  · refine .inr ?_
    rw [List.take_replicate, Nat.min_eq_left]
    unfold totalRecordSize at h
    omega

theorem holdsRecords_writtenSegment {env : SessionEnv} {segs : Segments} {size j : Nat}
    {recs : List (UInt64 × Event)}
    (h : EndMark ((staleBytes segs size j).drop (totalRecordSize * recs.length))) :
    HoldsRecords (writtenSegment env segs size j recs) recs :=
  ⟨segmentHeader env j size, _, segmentHeader_valid env j size, h, List.append_assoc ..⟩

theorem afterSession_isSome_iff {env : SessionEnv} {segs : Segments} {size : Nat}
    {recs : List (UInt64 × Event)} (j : Nat) :
    (afterSession env segs size recs j).isSome ↔
      j < Blocks.count (segmentCapacity size) recs ∨ (segs j).isSome := by
  by_cases hj : j < Blocks.count (segmentCapacity size) recs
  · simp [afterSession, hj]
  · simp [afterSession, hj]

theorem afterSession_fresh_holdsRecords {env : SessionEnv} {size : Nat}
    {recs : List (UInt64 × Event)} {j : Nat} {data : List UInt8}
    (h : afterSession env (fun _ => none) size recs j = some data) :
    HoldsRecords data (Blocks.block (segmentCapacity size) recs j) := by
  unfold afterSession at h
  split_ifs at h with hj
  cases h
  apply holdsRecords_writtenSegment
  rw [staleBytes_fresh rfl, List.drop_replicate]
  exact endMark_replicate _

theorem accepts_of_mem_numbered {seq : UInt64} {events : List Event}
    (h : ∀ e ∈ events, EventSerializer.accepts e = true) :
    ∀ r ∈ numbered seq events, EventSerializer.accepts r.2 = true := by
  intro r hr
  apply h
  rw [← map_snd_numbered seq events]
  exact List.mem_map_of_mem hr

/-- Replaying a directory that one session has filled, in its first million segments. -/
theorem replayDirectory_fresh {δ : Type*} (dispatch : δ → Event → δ) {env : SessionEnv}
    {size : Nat} {dir : Directory} {recs : List (UInt64 × Event)}
    (hr : Represents dir (afterSession env (fun _ => none) size recs))
    (hmin : 1024 * 1024 ≤ size) (ha : ∀ r ∈ recs, EventSerializer.accepts r.2 = true)
    (hlen : recs.length ≤ 1000000 * segmentCapacity size) (d : δ) :
    ∃ fuel, ∀ more ≥ fuel, ∃ stats, ReplayEngine.replayDirectory dispatch dir more d =
        some (.ok stats, ((recs.map (·.2)).map Event.replayed).foldl dispatch d) ∧
      stats.eventsReplayed = UInt64.ofNat recs.length ∧
      stats.corruptedRecordsSkipped = 0 ∧
      stats.bytesRead = UInt64.ofNat (totalRecordSize * recs.length) := by
  have hcap := segmentCapacity_pos hmin
  have hall : (pathOrder (Blocks.count (segmentCapacity size) recs)).flatMap
      (Blocks.block (segmentCapacity size) recs) = recs := by
    rw [pathOrder_eq_range (Blocks.count_le hcap (by decide) hlen),
      Blocks.flatMap_range_block_of_count_le hcap (Nat.le_refl _)]
  obtain ⟨fuel, hf⟩ := ReplayEngine.replayDirectory_of_holdsRecords dispatch hr
    (Blocks.count_pos (segmentCapacity size) recs)
    (fun j => (afterSession_isSome_iff j).trans (by simp))
    (fun j data hd => afterSession_fresh_holdsRecords hd) d
  rw [hall, acceptedEvents_eq ha, recordsTally_of_accepted ha] at hf
  refine ⟨fuel, fun more hmore => ⟨_, hf more hmore, ?_⟩⟩
  simp [ReplayStats.ofTally, Tally.add_def]

/-- Every event of a session in a fresh directory comes back, once, in order and
with nothing changed but the replay flag. -/
theorem replay_of_session {δ : Type*} (dispatch : δ → Event → δ) {env : SessionEnv} {size : Nat}
    {events : List Event} (hopen : OpensAll env size) (hmin : 1024 * 1024 ≤ size)
    (ha : ∀ e ∈ events, EventSerializer.validate (some e.toBytes) = .kOk)
    (hlen : events.length ≤ 1000000 * segmentCapacity size) (d : δ) :
    ∃ w dir,
      session env {} ∅ size events = some (.kOk,
        (List.range events.length).map (fun i => .ok (UInt64.ofNat (i + 1))), w, dir) ∧
      ∃ fuel, ∀ more ≥ fuel, ∃ stats, ReplayEngine.replayDirectory dispatch dir more d =
          some (.ok stats, (events.map Event.replayed).foldl dispatch d) ∧
        stats.eventsReplayed = UInt64.ofNat events.length ∧
        stats.corruptedRecordsSkipped = 0 ∧
        stats.bytesRead = UInt64.ofNat (160 * events.length) := by
  have ha' : ∀ e ∈ events, EventSerializer.accepts e = true :=
    fun e he => decide_eq_true (ha e he)
  obtain ⟨w, dir, hs, -, hr⟩ := session_laid hopen hmin (w := {}) rfl represents_empty events
  have hreplay := replayDirectory_fresh dispatch hr hmin (accepts_of_mem_numbered ha')
    (by rwa [length_numbered]) d
  rw [map_snd_numbered, length_numbered] at hreplay
  refine ⟨w, dir, ?_, hreplay⟩
  rw [hs, map_fst_numbered]
  simp

theorem replay_of_session_blank : ∃ w dir,
    session ⟨fun _ => 0, fun _ => none⟩ {} ∅ (1024 * 1024) [{}, {}] =
        some (.kOk, [.ok 1, .ok 2], w, dir) ∧
      ∃ fuel, ∀ more ≥ fuel, ∃ stats,
        ReplayEngine.replayDirectory (fun log e => log ++ [e]) dir more [] =
          some (.ok stats, [Event.replayed {}, Event.replayed {}]) := by
  have hopen : OpensAll ⟨fun _ => 0, fun _ => none⟩ (1024 * 1024) :=
    opensAll_mebibyte _
  obtain ⟨w, dir, hs, fuel, hf⟩ := replay_of_session (fun log e => log ++ [e]) hopen (Nat.le_refl _)
    (show ∀ e ∈ [({} : Event), {}], _ by simp [EventSerializer.validate_blank]) (by decide) []
  refine ⟨w, dir, hs, fuel, fun more hm => ?_⟩
  obtain ⟨stats, hr, -⟩ := hf more hm
  exact ⟨stats, hr⟩

end Ume
