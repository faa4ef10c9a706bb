import Ume.Event.PrefetchEngine
import Ume.Lib.Counter
import Ume.Lib.Table

/-! The accesses at which the engine asks for a prefetch. It looks at a window of five
addresses; the requests are those for the progressions in the whole history. -/

namespace Ume

namespace PrefetchEngine

/-- The history ends with three addresses in arithmetic progression, in the arithmetic of 64
bits. -/
def Progresses (history : List UInt64) : Prop :=
  ∃ before a stride, stride ≠ 0 ∧ history = before ++ [a, a + stride, a + stride + stride]

theorem progresses_rtake {history : List UInt64} :
    Progresses (history.rtake 5) ↔ Progresses history := by
  have hwindow (a stride : UInt64) :=
    Window.exists_append_iff (n := 5) (l := history) (s := [a, a + stride, a + stride + stride])
      (by simp)
  unfold Progresses
  constructor
  · rintro ⟨before, a, stride, hne, h⟩
    obtain ⟨before, h⟩ := (hwindow a stride).mp ⟨before, h⟩
    exact ⟨before, a, stride, hne, h⟩
  · rintro ⟨before, a, stride, hne, h⟩
    obtain ⟨before, h⟩ := (hwindow a stride).mpr ⟨before, h⟩
    exact ⟨before, a, stride, hne, h⟩

theorem strideBack_append (before : List UInt64) (a b c : UInt64) :
    strideBack (before ++ [a, b, c]) 1 = (c - b).toInt64 ∧
      strideBack (before ++ [a, b, c]) 2 = (b - a).toInt64 := by
  simp [strideBack, UInt64.toInt64_sub]

theorem exists_append_three {history : List UInt64} (h : ¬ history.length < 3) :
    ∃ before a b c, history = before ++ [a, b, c] := by
  have hlength : (history.rtake 3).length = 3 := by
    rw [List.rtake, List.length_drop]
    omega
  obtain ⟨a, b, c, habc⟩ := List.length_eq_three.mp hlength
  refine ⟨history.take (history.length - 3), a, b, c, ?_⟩
  rw [← habc, List.rtake, List.take_append_drop]

theorem toInt64_inj {a b : UInt64} (h : a.toInt64 = b.toInt64) : a = b := by
  rw [← UInt64.toUInt64_toInt64 a, h, UInt64.toUInt64_toInt64]

theorem progresses_iff {history : List UInt64} :
    Progresses history ↔ ¬ history.length < 3 ∧
      strideBack history 1 = strideBack history 2 ∧ strideBack history 1 ≠ 0 := by
  constructor
  · rintro ⟨before, a, stride, hne, rfl⟩
    obtain ⟨hlast, hfirst⟩ := strideBack_append before a (a + stride) (a + stride + stride)
    have hcancel (x : UInt64) : x + stride - x = stride := by
      rw [UInt64.add_comm, UInt64.add_sub_cancel]
    rw [hlast, hfirst, hcancel, hcancel]
    exact ⟨by simp, rfl, fun hzero => hne (toInt64_inj hzero)⟩
  · rintro ⟨hlong, hsame, hne⟩
    obtain ⟨before, a, b, c, rfl⟩ := exists_append_three hlong
    obtain ⟨hlast, hfirst⟩ := strideBack_append before a b c
    rw [hlast, hfirst] at hsame
    rw [hlast] at hne
    have hstride : c - b = b - a := toInt64_inj hsame
    refine ⟨before, a, b - a, fun hzero => hne (hstride.trans hzero ▸ rfl), ?_⟩
    rw [UInt64.add_comm a, UInt64.sub_add_cancel, ← hstride, UInt64.add_comm b,
      UInt64.sub_add_cancel]

instance : DecidablePred Progresses := fun _ => decidable_of_iff _ progresses_iff.symm

theorem analyzeLocality_eq (e : PrefetchEngine) (id : ObjectId) (now : UInt64) :
    e.analyzeLocality id now =
      if Progresses ((e.accessHistory.lookup id).getD []) then
        { e with
          requestIdCounter := e.requestIdCounter + 1
          prefetchQueue :=
            e.prefetchQueue ++ [strideRequest (e.requestIdCounter + 1) id now] }
      else e := by
  simp only [analyzeLocality]
  generalize (e.accessHistory.lookup id).getD [] = history
  by_cases hshort : history.length < 3
  · have hnot : ¬ Progresses history := fun h => (progresses_iff.mp h).1 hshort
    rw [if_pos hshort, if_neg hnot]
  rw [if_neg hshort]
  by_cases hstride : strideBack history 1 = strideBack history 2 ∧ strideBack history 1 ≠ 0
  · rw [if_pos hstride, if_pos (progresses_iff.mpr ⟨hshort, hstride⟩)]
  · rw [if_neg hstride, if_neg fun h => hstride (progresses_iff.mp h).2]

/-- An access to an object, with the clock showing `now`. -/
structure Access where
  objectId : ObjectId
  address : UInt64
  now : UInt64
  deriving DecidableEq

def access (e : PrefetchEngine) (a : Access) : PrefetchEngine :=
  e.recordAccess a.objectId a.address a.now

/-- The engine after these accesses, which no worker takes requests from. -/
def afterAccesses (accesses : List Access) : PrefetchEngine := accesses.foldl access {}

def addresses (id : ObjectId) (accesses : List Access) : List UInt64 :=
  (accesses.filter (·.objectId = id)).map (·.address)

theorem addresses_snoc (id : ObjectId) (accesses : List Access) (a : Access) :
    addresses id (accesses ++ [a]) =
      if a.objectId = id then addresses id accesses ++ [a.address] else addresses id accesses := by
  by_cases hid : a.objectId = id
  · simp [addresses, hid]
  · simp [addresses, hid]

theorem addresses_filter (id : ObjectId) (accesses : List Access) :
    addresses id (accesses.filter (·.objectId = id)) = addresses id accesses := by
  rw [addresses, List.filter_filter, addresses]
  simp only [Bool.and_self]

/-- The windows show the ends of the histories, and the requests are numbered. -/
structure Follows (accesses : List Access) (e : PrefetchEngine) : Prop where
  window : ∀ id, (e.accessHistory.lookup id).getD [] = (addresses id accesses).rtake 5
  counter : Counter.Counts e.requestIdCounter e.prefetchQueue.length

def added (before : List Access) (a : Access) (e : PrefetchEngine) : List PrefetchRequest :=
  if Progresses (addresses a.objectId (before ++ [a])) then
    [strideRequest (.ofNat (e.prefetchQueue.length + 1)) a.objectId a.now]
  else []

theorem Follows.access {before : List Access} {e : PrefetchEngine} (h : Follows before e)
    (a : Access) :
    Follows (before ++ [a]) (e.access a) ∧
      (e.access a).prefetchQueue = e.prefetchQueue ++ added before a e := by
  have hwindow (id : ObjectId) :
      ((e.accessHistory.insert a.objectId (Window.push 5
        ((e.accessHistory.lookup a.objectId).getD []) a.address)).lookup id).getD [] =
          (addresses id (before ++ [a])).rtake 5 := by
    rw [Table.getD_lookup_insert, addresses_snoc, h.window]
    split_ifs with hid
    · rw [hid, Window.push_rtake (by decide)]
    · exact h.window id
  rw [PrefetchEngine.access, recordAccess, analyzeLocality_eq, hwindow]
  simp only [progresses_rtake, added]
  by_cases hprogresses : Progresses (addresses a.objectId (before ++ [a]))
  · rw [if_pos hprogresses, if_pos hprogresses]
    have hnext := h.counter.add_one
    refine ⟨⟨hwindow, ?_⟩, ?_⟩
    · rwa [List.length_append]
    · exact congrArg (fun n => e.prefetchQueue ++ [strideRequest n a.objectId a.now]) hnext
  · rw [if_neg hprogresses, if_neg hprogresses]
    exact ⟨⟨hwindow, h.counter⟩, (List.append_nil _).symm⟩

theorem afterAccesses_snoc (before : List Access) (a : Access) :
    afterAccesses (before ++ [a]) = (afterAccesses before).access a := by
  rw [afterAccesses, List.foldl_append]
  rfl

theorem follows_afterAccesses (accesses : List Access) :
    Follows accesses (afterAccesses accesses) := by
  induction accesses using List.reverseRecOn with
  | nil => exact ⟨fun _ => rfl, rfl⟩
  | append_singleton accesses a ih =>
    rw [afterAccesses_snoc]
    exact (ih.access a).1

theorem prefetchQueue_snoc (before : List Access) (a : Access) :
    (afterAccesses (before ++ [a])).prefetchQueue =
      (afterAccesses before).prefetchQueue ++ added before a (afterAccesses before) := by
  rw [afterAccesses_snoc]
  exact ((follows_afterAccesses before).access a).2

def unnumbered (req : PrefetchRequest) : PrefetchRequest := { req with requestId := 0 }

theorem unnumbered_filter (accesses : List Access) (id : ObjectId) :
    ((afterAccesses accesses).prefetchQueue.filter (·.objectId = id)).map unnumbered =
      (afterAccesses (accesses.filter (·.objectId = id))).prefetchQueue.map unnumbered := by
  induction accesses using List.reverseRecOn with
  | nil => rfl
  | append_singleton accesses a ih =>
    rw [prefetchQueue_snoc, List.filter_append, List.map_append, ih, List.filter_append]
    by_cases hid : a.objectId = id
    · have hsame : addresses a.objectId (accesses.filter (·.objectId = id) ++ [a]) =
          addresses a.objectId (accesses ++ [a]) := by
        rw [addresses_snoc, addresses_snoc, hid, addresses_filter]
      have hkept : [a].filter (·.objectId = id) = [a] := by simp [hid]
      rw [hkept, prefetchQueue_snoc, List.map_append, added, added, hsame]
      split_ifs
      · simp [strideRequest, unnumbered, hid]
      · rfl
    · have hother : (added accesses a (afterAccesses accesses)).filter (·.objectId = id) = [] := by
        rw [added]
        split_ifs
        · simp [strideRequest, hid]
        · rfl
      have hdropped : [a].filter (·.objectId = id) = [] := by simp [hid]
      rw [hother, hdropped, List.map_nil, List.append_nil, List.append_nil]

theorem requestIds_afterAccesses (accesses : List Access) :
    (afterAccesses accesses).prefetchQueue.map (·.requestId) =
      (List.range (afterAccesses accesses).prefetchQueue.length).map fun k => .ofNat (k + 1) := by
  induction accesses using List.reverseRecOn with
  | nil => rfl
  | append_singleton accesses a ih =>
    rw [prefetchQueue_snoc, List.map_append, ih, added]
    split_ifs
    · rw [List.length_append, List.length_singleton, List.range_succ, List.map_append]
      rfl
    · rw [List.map_nil, List.append_nil, List.append_nil]

/-- An access adds one request if it completes a progression in the whole history of its object,
and none otherwise. The requests are numbered as they come, and those for an object are the
same without the accesses to the others. -/
theorem strides_detected :
    (∀ before a,
      (afterAccesses (before ++ [a])).prefetchQueue = (afterAccesses before).prefetchQueue ++
        if Progresses (addresses a.objectId (before ++ [a])) then
          [strideRequest (.ofNat ((afterAccesses before).prefetchQueue.length + 1)) a.objectId
            a.now]
        else []) ∧
    ∀ accesses,
      (afterAccesses accesses).prefetchQueue.map (·.requestId) =
        (List.range (afterAccesses accesses).prefetchQueue.length).map (fun k => .ofNat (k + 1)) ∧
      ∀ id, ((afterAccesses accesses).prefetchQueue.filter (·.objectId = id)).map unnumbered =
        (afterAccesses (accesses.filter (·.objectId = id))).prefetchQueue.map unnumbered :=
  ⟨prefetchQueue_snoc, fun accesses =>
    ⟨requestIds_afterAccesses accesses, unnumbered_filter accesses⟩⟩

end PrefetchEngine

end Ume
