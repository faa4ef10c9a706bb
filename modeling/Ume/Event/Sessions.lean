import Ume.Event.RoundTrip

/-! A second writer session over the segments of an earlier one. It starts again
at segment 0, so its records lie over the earlier ones, and what it does not
reach is still read. -/

namespace Ume

open ByteString JournalWriter Blocks

theorem takeD_append_add {α : Type*} (a b : List α) (r : Nat) (x : α) :
    (a ++ b).takeD (a.length + r) x = a ++ b.takeD r x := by
  induction a with
  | nil => rw [List.nil_append, List.length_nil, Nat.zero_add, List.nil_append]
  | cons y a ih =>
    rw [List.length_cons, Nat.add_right_comm, List.cons_append, List.takeD_succ, List.tail_cons,
      ih]
    rfl

theorem takeD_replicate {α : Type*} (k r : Nat) (x : α) :
    (List.replicate k x).takeD r x = List.replicate r x := by
  induction r generalizing k with
  | zero => rfl
  | succ r ih =>
    rw [List.takeD_succ, List.tail_replicate, ih, List.replicate_succ]
    cases k <;> rfl

/-- What ends a segment however much of it is cut off at the front. -/
def Blank (tail : List UInt8) : Prop :=
  tail.length < totalRecordSize ∨ ∃ n, tail = List.replicate n 0

theorem Blank.endMark_drop {tail : List UInt8} (h : Blank tail) (n : Nat) :
    EndMark (tail.drop n) := by
  rcases h with h | ⟨k, rfl⟩
  · left
    rw [List.length_drop]
    omega
  · rw [List.drop_replicate]
    exact endMark_replicate _

section Segment

variable {env env₁ : SessionEnv} {size size₁ : Nat} {recs recs₁ : List (UInt64 × Event)}

theorem drop_recordsBytes_append (recs : List (UInt64 × Event)) (tail : List UInt8) (n : Nat) :
    (recordsBytes recs ++ tail).drop (totalRecordSize * n) =
      recordsBytes (recs.drop n) ++ tail.drop (totalRecordSize * (n - recs.length)) := by
  rw [List.drop_append, drop_recordsBytes, length_recordsBytes, Nat.mul_sub]

theorem takeD_recordsBytes (size : Nat) (recs : List (UInt64 × Event)) (k : Nat) :
    ∃ tail, Blank tail ∧
      (recordsBytes recs ++ List.replicate k 0).takeD (size - segmentHeaderSize) 0 =
        recordsBytes (recs.take (segmentCapacity size)) ++ tail := by
  set cap := segmentCapacity size with hcap
  have hroom : totalRecordSize * cap ≤ size - segmentHeaderSize := Nat.mul_div_le ..
  have hrest : size - segmentHeaderSize - totalRecordSize * cap < totalRecordSize := by
    unfold segmentCapacity at hcap
    unfold totalRecordSize at hcap ⊢
    omega
  have hlen : (recordsBytes (recs.take cap)).length ≤ size - segmentHeaderSize := by
    rw [length_recordsBytes, List.length_take]
    exact (Nat.mul_le_mul_left _ (Nat.min_le_left ..)).trans hroom
  refine ⟨(recordsBytes (recs.drop cap) ++ List.replicate k 0).takeD
    (size - segmentHeaderSize - (recordsBytes (recs.take cap)).length) 0, ?_, ?_⟩
  · by_cases hle : recs.length ≤ cap
    · rw [List.drop_of_length_le hle, recordsBytes_nil, List.nil_append, takeD_replicate]
      exact .inr ⟨_, rfl⟩
    · left
      rw [List.takeD_length, length_recordsBytes, List.length_take, Nat.min_eq_left (by omega)]
      exact hrest
  · conv_lhs => rw [← List.take_append_drop cap recs, recordsBytes_append, List.append_assoc,
      ← Nat.add_sub_of_le hlen]
    exact takeD_append_add ..

theorem staleBytes_afterSession (env₁ : SessionEnv) (recs₁ : List (UInt64 × Event))
    (hmin₁ : 1024 * 1024 ≤ size₁) (hmin : 1024 * 1024 ≤ size) (j : Nat) :
    ∃ tail, Blank tail ∧
      staleBytes (afterSession env₁ (fun _ => none) size₁ recs₁) size j =
        recordsBytes ((block (segmentCapacity size₁) recs₁ j).take (segmentCapacity size)) ++
          tail := by
  by_cases hj : j < count (segmentCapacity size₁) recs₁
  · have hs : staleBytes (afterSession env₁ (fun _ => none) size₁ recs₁) size j =
        (recordsBytes (block (segmentCapacity size₁) recs₁ j) ++ List.replicate
          (size₁ - segmentHeaderSize -
            totalRecordSize * (block (segmentCapacity size₁) recs₁ j).length) 0).takeD
              (size - segmentHeaderSize) 0 := by
      have h64 : segmentHeaderSize ≤ size := by unfold segmentHeaderSize; omega
      rw [staleBytes, afterSession, if_pos hj, Option.getD_some, writtenSegment,
        staleBytes_fresh rfl, List.drop_replicate, List.append_assoc]
      have hh : (segmentHeader env₁ j size₁).toBytes.length = segmentHeaderSize :=
        JournalSegmentHeader.length_toBytes _
      conv_lhs => rw [← Nat.add_sub_of_le h64, ← hh, takeD_append_add, List.drop_left, hh]
    rw [hs]
    exact takeD_recordsBytes size _ _
  · have hs : afterSession env₁ (fun _ => none) size₁ recs₁ j = none := if_neg hj
    rw [staleBytes_fresh hs, block_of_count_le (segmentCapacity_pos hmin₁) (Nat.le_of_not_lt hj),
      List.take_nil, recordsBytes_nil]
    exact ⟨_, .inr ⟨_, rfl⟩, rfl⟩

/-- The records in a segment after the second session. -/
def overwritten {α : Type*} (cap₁ cap₂ : Nat) (xs ys : List α) (j : Nat) : List α :=
  if j < count cap₂ ys then
    block cap₂ ys j ++ ((block cap₁ xs j).take cap₂).drop (block cap₂ ys j).length
  else block cap₁ xs j

theorem afterSessions_holdsRecords (hmin₁ : 1024 * 1024 ≤ size₁) (hmin : 1024 * 1024 ≤ size)
    {j : Nat} {data : List UInt8}
    (h : afterSession env (afterSession env₁ (fun _ => none) size₁ recs₁) size recs j =
      some data) :
    HoldsRecords data
      (overwritten (segmentCapacity size₁) (segmentCapacity size) recs₁ recs j) := by
  by_cases hj : j < count (segmentCapacity size) recs
  · rw [afterSession, if_pos hj] at h
    cases h
    obtain ⟨tail, hb, hs⟩ := staleBytes_afterSession env₁ recs₁ hmin₁ hmin j
    rw [overwritten, if_pos hj, writtenSegment, hs, drop_recordsBytes_append, List.append_assoc,
      ← List.append_assoc (recordsBytes _), ← recordsBytes_append]
    exact ⟨_, _, segmentHeader_valid env j size, hb.endMark_drop _, rfl⟩
  · rw [afterSession, if_neg hj] at h
    rw [overwritten, if_neg hj]
    exact afterSession_fresh_holdsRecords h

theorem dispatches_afterSessions {dir : Directory} (hmin₁ : 1024 * 1024 ≤ size₁)
    (hmin : 1024 * 1024 ≤ size)
    (hr : Represents dir
      (afterSession env (afterSession env₁ (fun _ => none) size₁ recs₁) size recs)) :
    ReplayEngine.Dispatches dir ((acceptedEvents
      ((pathOrder (max (count (segmentCapacity size) recs)
        (count (segmentCapacity size₁) recs₁))).flatMap
          (overwritten (segmentCapacity size₁) (segmentCapacity size) recs₁ recs))).map
            Event.replayed) := by
  apply ReplayEngine.dispatches_of_holdsRecords hr
  · exact Nat.lt_of_lt_of_le (count_pos _ _) (Nat.le_max_left ..)
  · intro j
    rw [afterSession_isSome_iff, afterSession_isSome_iff, lt_max_iff]
    simp
  · exact fun j data hd => afterSessions_holdsRecords hmin₁ hmin hd

end Segment

/-- The events are in order when their segments are read by file name. -/
def InPathOrder (cap : Nat) (events : List Event) : Prop :=
  ((pathOrder (count cap events)).flatMap (block cap events)).map Event.replayed =
    events.map Event.replayed

theorem inPathOrder_of_le {cap : Nat} {events : List Event} (hc : 0 < cap)
    (h : events.length ≤ 1000000 * cap) : InPathOrder cap events := by
  rw [InPathOrder, pathOrder_eq_range (count_le hc (by decide) h),
    flatMap_range_block_of_count_le hc (Nat.le_refl _)]

section Overwritten

variable {α β : Type*} {cap₁ cap₂ : Nat} {xs ys : List α}

theorem map_overwritten (f : α → β) (j : Nat) :
    (overwritten cap₁ cap₂ xs ys j).map f = overwritten cap₁ cap₂ (xs.map f) (ys.map f) j := by
  rw [overwritten, overwritten, count_map, ← map_block, ← map_block, List.length_map]
  split_ifs
  · rw [List.map_append, List.map_drop, List.map_take]
  · rfl

theorem overwritten_nil_left (hc : 0 < cap₂) (j : Nat) :
    overwritten cap₁ cap₂ [] ys j = block cap₂ ys j := by
  unfold overwritten
  split_ifs with hj
  · simp
  · rw [block_nil, block_of_count_le hc (Nat.le_of_not_lt hj)]

theorem overwritten_nil_right (h : min xs.length cap₁ ≤ cap₂) (j : Nat) :
    overwritten cap₁ cap₂ xs [] j = block cap₁ xs j := by
  unfold overwritten
  split_ifs with hj
  · have h0 : j = 0 := by rw [count_nil] at hj; omega
    rw [block_nil, List.nil_append, List.length_nil, List.drop_zero, List.take_of_length_le]
    rw [h0, block_zero, List.length_take, Nat.min_comm]
    exact h
  · rfl

theorem length_overwritten_le (j : Nat) :
    (overwritten cap₁ cap₂ xs ys j).length ≤
      (block cap₂ ys j).length + (block cap₁ xs j).length := by
  unfold overwritten
  split_ifs with hj
  · rw [List.length_append, List.length_drop, List.length_take]
    omega
  · exact Nat.le_add_left ..

/-- In the first segment something is lost, unless one session has written nothing
and the file has not become too small. -/
theorem length_overwritten_zero_lt (hc₁ : 0 < cap₁) (hc₂ : 0 < cap₂)
    (h : ¬ (xs = [] ∨ ys = [] ∧ min xs.length cap₁ ≤ cap₂)) :
    (overwritten cap₁ cap₂ xs ys 0).length <
      (block cap₂ ys 0).length + (block cap₁ xs 0).length := by
  rw [overwritten, if_pos (count_pos cap₂ ys)]
  simp only [block_zero, List.length_append, List.length_drop, List.length_take]
  have hx : 0 < xs.length := List.length_pos_iff.mpr fun he => h (.inl he)
  rcases Nat.eq_zero_or_pos ys.length with hy | hy
  · have hlt : ¬ min xs.length cap₁ ≤ cap₂ :=
      fun hle => h (.inr ⟨List.eq_nil_of_length_eq_zero hy, hle⟩)
    omega
  · omega

theorem length_flatMap_overwritten_lt {order : List Nat} (hc₁ : 0 < cap₁) (hc₂ : 0 < cap₂)
    (ho : order.Perm (List.range (max (count cap₂ ys) (count cap₁ xs))))
    (h : ¬ (xs = [] ∨ ys = [] ∧ min xs.length cap₁ ≤ cap₂)) :
    (order.flatMap (overwritten cap₁ cap₂ xs ys)).length < xs.length + ys.length := by
  have hpos : 0 < max (count cap₂ ys) (count cap₁ xs) :=
    Nat.lt_of_lt_of_le (count_pos _ _) (Nat.le_max_left ..)
  rw [(ho.flatMap_right _).length_eq, List.length_flatMap]
  calc ((List.range _).map fun j => (overwritten cap₁ cap₂ xs ys j).length).sum
    _ < ((List.range _).map fun j => (block cap₂ ys j).length + (block cap₁ xs j).length).sum :=
        List.sum_lt_sum _ _ (fun j _ => length_overwritten_le j)
          ⟨0, List.mem_range.mpr hpos, length_overwritten_zero_lt hc₁ hc₂ h⟩
    _ = xs.length + ys.length := by
        rw [List.sum_map_add, sum_length_block hc₂ (Nat.le_max_left ..),
          sum_length_block hc₁ (Nat.le_max_right ..), Nat.add_comm]

end Overwritten

theorem pathOrder_flatMap_block_perm {α : Type*} {cap : Nat} (hc : 0 < cap) (l : List α) :
    ((pathOrder (count cap l)).flatMap (block cap l)).Perm l := by
  have hp := (pathOrder_perm (count cap l)).flatMap_right (block cap l)
  rwa [flatMap_range_block_of_count_le hc (Nat.le_refl _)] at hp

section TwoSessions

variable {env₁ env₂ : SessionEnv} {size₁ size₂ : Nat} {xs ys : List Event}

/-- The events in the segments after both sessions, in the order they are read. -/
def remaining (size₁ size₂ : Nat) (xs ys : List Event) : List Event :=
  (pathOrder (max (count (segmentCapacity size₂) ys) (count (segmentCapacity size₁) xs))).flatMap
    (overwritten (segmentCapacity size₁) (segmentCapacity size₂) xs ys)

theorem remaining_nil_left (hmin : 1024 * 1024 ≤ size₂) :
    remaining size₁ size₂ [] ys = (pathOrder (count (segmentCapacity size₂) ys)).flatMap
      (block (segmentCapacity size₂) ys) := by
  have ho : overwritten (segmentCapacity size₁) (segmentCapacity size₂) [] ys =
      block (segmentCapacity size₂) ys :=
    funext (overwritten_nil_left (segmentCapacity_pos hmin))
  rw [remaining, count_nil, Nat.max_eq_left (count_pos _ _), ho]

theorem remaining_nil_right (h : min xs.length (segmentCapacity size₁) ≤ segmentCapacity size₂) :
    remaining size₁ size₂ xs [] = (pathOrder (count (segmentCapacity size₁) xs)).flatMap
      (block (segmentCapacity size₁) xs) := by
  have ho : overwritten (segmentCapacity size₁) (segmentCapacity size₂) xs [] =
      block (segmentCapacity size₁) xs := funext (overwritten_nil_right h)
  rw [remaining, count_nil, Nat.max_eq_right (count_pos _ _), ho]

theorem dispatches_remaining {c₁ c₂ : UInt64} {dir : Directory} (hmin₁ : 1024 * 1024 ≤ size₁)
    (hmin₂ : 1024 * 1024 ≤ size₂)
    (hr : Represents dir (afterSession env₂
      (afterSession env₁ (fun _ => none) size₁ (numbered c₁ xs)) size₂ (numbered c₂ ys))) :
    ReplayEngine.Dispatches dir
      (((remaining size₁ size₂ xs ys).filter EventSerializer.accepts).map Event.replayed) := by
  have h := dispatches_afterSessions hmin₁ hmin₂ hr
  rw [acceptedEvents, List.map_flatMap] at h
  simp only [map_overwritten, map_snd_numbered] at h
  have hx := count_map (segmentCapacity size₁) (fun r => r.2) (numbered c₁ xs)
  have hy := count_map (segmentCapacity size₂) (fun r => r.2) (numbered c₂ ys)
  rw [map_snd_numbered] at hx hy
  rwa [← hx, ← hy] at h

/-- The exact condition under which both sessions are read back. -/
theorem accepts_remaining_iff (hmin₁ : 1024 * 1024 ≤ size₁) (hmin₂ : 1024 * 1024 ≤ size₂)
    (hxs : ∀ x ∈ xs, EventSerializer.accepts x = true) :
    ((remaining size₁ size₂ xs ys).filter EventSerializer.accepts).map Event.replayed =
        (xs ++ ys).map Event.replayed ↔
      (∀ y ∈ ys, EventSerializer.accepts y = true) ∧
        (xs = [] ∧ InPathOrder (segmentCapacity size₂) ys ∨
          ys = [] ∧ min xs.length (segmentCapacity size₁) ≤ segmentCapacity size₂ ∧
            InPathOrder (segmentCapacity size₁) xs) := by
  have hc₁ := segmentCapacity_pos hmin₁
  have hc₂ := segmentCapacity_pos hmin₂
  have hpx := pathOrder_flatMap_block_perm hc₁ xs
  have hpy := pathOrder_flatMap_block_perm hc₂ ys
  constructor
  · intro he
    have hlen := congrArg List.length he
    rw [List.length_map, List.length_map, List.length_append] at hlen
    have hle := List.length_filter_le EventSerializer.accepts (remaining size₁ size₂ xs ys)
    by_cases hcase : xs = [] ∨ ys = [] ∧ min xs.length (segmentCapacity size₁) ≤
        segmentCapacity size₂
    · rcases hcase with rfl | ⟨rfl, hmin⟩
      · rw [remaining_nil_left hmin₂] at he hlen
        rw [List.length_nil, Nat.zero_add, ← hpy.length_eq] at hlen
        have hall := List.length_filter_eq_length_iff.mp hlen
        rw [List.filter_eq_self.mpr hall] at he
        exact ⟨fun y hy => hall y (hpy.mem_iff.mpr hy), .inl ⟨rfl, he⟩⟩
      · rw [remaining_nil_right hmin, List.filter_eq_self.mpr
          (fun x hx => hxs x (hpx.mem_iff.mp hx)), List.append_nil] at he
        exact ⟨by simp, .inr ⟨rfl, hmin, he⟩⟩
    · have hlt := length_flatMap_overwritten_lt hc₁ hc₂ (pathOrder_perm _) hcase
      rw [remaining] at hle hlen
      omega
  · rintro ⟨hys, ⟨rfl, ho⟩ | ⟨rfl, hmin, ho⟩⟩
    · rw [remaining_nil_left hmin₂, List.filter_eq_self.mpr
        (fun y hy => hys y (hpy.mem_iff.mp hy))]
      exact ho
    · rw [remaining_nil_right hmin, List.filter_eq_self.mpr
        (fun x hx => hxs x (hpx.mem_iff.mp hx)), List.append_nil]
      exact ho

theorem represents_of_session {env : SessionEnv} {size : Nat} (hopen : OpensAll env size)
    (hmin : 1024 * 1024 ≤ size) {w w' : JournalWriter} {dir dir' : Directory} {segs : Segments}
    (hc : w.isOpen = false) (hr : Represents dir segs) {es : List Event} {status : Status}
    {results : List (Except Status UInt64)}
    (hs : session env w dir size es = some (status, results, w', dir')) :
    Represents dir' (afterSession env segs size (numbered w.sequenceCounter es)) := by
  obtain ⟨_, _, hs', -, hr'⟩ := session_laid hopen hmin hc hr es
  rw [hs] at hs'
  cases hs'
  exact hr'

/-- Both sessions are read back, in order, exactly if one of them appended
nothing: the second writes over the first from segment 0 on. -/
theorem sessions_append_only_iff {w₁ w₁' w₂ w₂' : JournalWriter} {dir₁ dir₂ : Directory}
    {status₁ status₂ : Status} {results₁ results₂ : List (Except Status UInt64)}
    (hopen₁ : OpensAll env₁ size₁) (hopen₂ : OpensAll env₂ size₂)
    (hmin₁ : 1024 * 1024 ≤ size₁) (hmin₂ : 1024 * 1024 ≤ size₂)
    (hw₁ : w₁.isOpen = false) (hw₂ : w₂.isOpen = false)
    (hs₁ : session env₁ w₁ ∅ size₁ xs = some (status₁, results₁, w₁', dir₁))
    (hs₂ : session env₂ w₂ dir₁ size₂ ys = some (status₂, results₂, w₂', dir₂))
    (hxs : ∀ x ∈ xs, EventSerializer.accepts x = true) :
    ReplayEngine.Dispatches dir₂ ((xs ++ ys).map Event.replayed) ↔
      (∀ y ∈ ys, EventSerializer.accepts y = true) ∧
        (xs = [] ∧ InPathOrder (segmentCapacity size₂) ys ∨
          ys = [] ∧ min xs.length (segmentCapacity size₁) ≤ segmentCapacity size₂ ∧
            InPathOrder (segmentCapacity size₁) xs) := by
  have hr₁ := represents_of_session hopen₁ hmin₁ hw₁ represents_empty hs₁
  have hr₂ := represents_of_session hopen₂ hmin₂ hw₂ hr₁ hs₂
  rw [(dispatches_remaining hmin₁ hmin₂ hr₂).iff_eq]
  exact accepts_remaining_iff hmin₁ hmin₂ hxs

end TwoSessions

theorem two_sessions_run (xs ys : List Event) : ∃ results₁ w₁ dir₁ results₂ w₂ dir₂,
    session ⟨fun _ => 0, fun _ => none⟩ {} ∅ 1048576 xs = some (.kOk, results₁, w₁, dir₁) ∧
      session ⟨fun _ => 0, fun _ => none⟩ w₁ dir₁ 1048576 ys =
        some (.kOk, results₂, w₂, dir₂) ∧ w₁.isOpen = false ∧
      Represents dir₂ (afterSession ⟨fun _ => 0, fun _ => none⟩
        (afterSession ⟨fun _ => 0, fun _ => none⟩ (fun _ => none) 1048576 (numbered 0 xs)) 1048576
          (numbered w₁.sequenceCounter ys)) := by
  have hopen : OpensAll ⟨fun _ => 0, fun _ => none⟩ 1048576 :=
    opensAll_mebibyte _
  obtain ⟨w₁, dir₁, hs₁, hc₁, hr₁⟩ := session_laid hopen (by decide) (w := {}) rfl
    represents_empty xs
  obtain ⟨w₂, dir₂, hs₂, -, hr₂⟩ := session_laid hopen (by decide) hc₁ hr₁ ys
  exact ⟨_, w₁, dir₁, _, w₂, dir₂, hs₁, hs₂, hc₁, hr₂⟩

theorem sessions_append_only_empty : ∃ results₁ w₁ dir₁ results₂ w₂ dir₂,
    session ⟨fun _ => 0, fun _ => none⟩ {} ∅ 1048576 [{}] = some (.kOk, results₁, w₁, dir₁) ∧
      session ⟨fun _ => 0, fun _ => none⟩ w₁ dir₁ 1048576 [] =
        some (.kOk, results₂, w₂, dir₂) ∧
      ReplayEngine.Dispatches dir₂ [Event.replayed {}] := by
  obtain ⟨results₁, w₁, dir₁, results₂, w₂, dir₂, hs₁, hs₂, hc₁, -⟩ := two_sessions_run [{}] []
  have hopen : OpensAll ⟨fun _ => 0, fun _ => none⟩ 1048576 :=
    opensAll_mebibyte _
  have ha := EventSerializer.accepts_blank
  refine ⟨results₁, w₁, dir₁, results₂, w₂, dir₂, hs₁, hs₂, ?_⟩
  exact (sessions_append_only_iff hopen hopen (by decide) (by decide) rfl hc₁ hs₁ hs₂
    (by simp [ha])).mpr ⟨by simp, .inr ⟨rfl, by decide, inPathOrder_of_le (by decide) (by decide)⟩⟩

/-- One event in each session: only the second is read back. -/
theorem second_session_overwrites : ∃ results₁ w₁ dir₁ results₂ w₂ dir₂,
    session ⟨fun _ => 0, fun _ => none⟩ {} ∅ 1048576 [{}] = some (.kOk, results₁, w₁, dir₁) ∧
      session ⟨fun _ => 0, fun _ => none⟩ w₁ dir₁ 1048576 [{ header := { timestamp := 1 } }] =
        some (.kOk, results₂, w₂, dir₂) ∧
      ReplayEngine.Dispatches dir₂ [Event.replayed { header := { timestamp := 1 } }] ∧
      ¬ ReplayEngine.Dispatches dir₂
        [Event.replayed {}, Event.replayed { header := { timestamp := 1 } }] := by
  obtain ⟨results₁, w₁, dir₁, results₂, w₂, dir₂, hs₁, hs₂, -, hr₂⟩ :=
    two_sessions_run [{}] [{ header := { timestamp := 1 } }]
  have hd := dispatches_remaining (by decide) (by decide) hr₂
  have ha : EventSerializer.accepts { header := { timestamp := 1 } } = true :=
    (EventSerializer.accepts_iff _).mpr (by decide)
  have hrem : remaining 1048576 1048576 [{}] [{ header := { timestamp := 1 } }] =
      [{ header := { timestamp := 1 } }] := by
    rw [remaining, pathOrder_eq_range (by decide)]
    rfl
  rw [hrem, List.filter_cons_of_pos ha] at hd
  refine ⟨results₁, w₁, dir₁, results₂, w₂, dir₂, hs₁, hs₂, hd, ?_⟩
  rw [hd.iff_eq]
  intro he
  exact absurd (congrArg List.length he) (by decide)

end Ume
