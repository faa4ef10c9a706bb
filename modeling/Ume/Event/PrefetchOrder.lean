import Ume.Event.PrefetchBalance

/-! The order of the prefetch requests. A request gets its number when it is put on the
queue, and the worker takes requests from the front, so that it takes them in the order
of their numbers, whatever is submitted and cancelled meanwhile. -/

namespace Ume

namespace PrefetchEngine

open Counter

def queueIds (e : PrefetchEngine) : List Nat := e.prefetchQueue.map (·.requestId.toNat)

/-- The request that a step of the worker takes from the queue. -/
def takenBy (s : System) : Action → List PrefetchRequest
  | .worker _ _ =>
    match s.worker with
    | some .entering => s.engine.prefetchQueue.take 1
    | _ => []
  | _ => []

/-- Requests are put on the queue with the next numbers. -/
structure Numbers (n k : Nat) (e e' : PrefetchEngine) : Prop where
  ids : queueIds e' = queueIds e ++ List.range' (n + 1) k
  counter : Counts e'.requestIdCounter (n + k)

theorem Numbers.trans {n k l : Nat} {e e' e'' : PrefetchEngine} (h : Numbers n k e e')
    (h' : Numbers (n + k) l e' e'') : Numbers n (k + l) e e'' where
  ids := by
    rw [h'.ids, h.ids, List.append_assoc, ← List.range'_append_1]
    congr 3
    omega
  counter := by
    rw [← Nat.add_assoc]
    exact h'.counter

section Numbers

variable {e : PrefetchEngine} {n : Nat}

theorem numbers_none (hcount : Counts e.requestIdCounter n) {e' : PrefetchEngine}
    (hqueue : e'.prefetchQueue = e.prefetchQueue)
    (hcounter : e'.requestIdCounter = e.requestIdCounter) : Numbers n 0 e e' where
  ids := by simp [queueIds, hqueue]
  counter := hcounter ▸ hcount

theorem numbers_one (hcount : Counts e.requestIdCounter n) (hlt : n + 1 < 2 ^ 64)
    {e' : PrefetchEngine} {req : PrefetchRequest}
    (hqueue : e'.prefetchQueue = e.prefetchQueue ++ [req])
    (hcounter : e'.requestIdCounter = e.requestIdCounter + 1)
    (hid : req.requestId = e.requestIdCounter + 1) : Numbers n 1 e e' where
  ids := by
    have hnat : req.requestId.toNat = n + 1 := by
      rw [hid]
      exact hcount.add_one.toNat_eq hlt
    simp [queueIds, hqueue, hnat]
  counter := hcounter ▸ hcount.add_one

theorem numbers_recordAccess (hcount : Counts e.requestIdCounter n) (id : ObjectId)
    (address now : UInt64)
    (hlt : n + ((e.recordAccess id address now).prefetchQueue.length - e.prefetchQueue.length) <
      2 ^ 64) : ∃ k, Numbers n k e (e.recordAccess id address now) := by
  rw [recordAccess, analyzeLocality] at hlt ⊢
  dsimp only at hlt ⊢
  split_ifs at hlt ⊢ with hshort hstride
  · exact ⟨0, numbers_none hcount rfl rfl⟩
  · rw [List.length_append, List.length_singleton, Nat.add_sub_cancel_left] at hlt
    exact ⟨1, numbers_one hcount hlt rfl rfl rfl⟩
  · exact ⟨0, numbers_none hcount rfl rfl⟩

theorem numbers_submitPrefetches (hcount : Counts e.requestIdCounter n)
    (requests : List PrefetchRequest) (hlt : n + requests.length < 2 ^ 64) :
    Numbers n requests.length e (e.submitPrefetches requests) := by
  induction requests generalizing e n with
  | nil => exact numbers_none hcount rfl rfl
  | cons req requests ih =>
    rw [List.length_cons] at hlt
    have hfirst : Numbers n 1 e (e.submitPrefetch req) :=
      numbers_one hcount (by omega) rfl rfl rfl
    have hrest := ih hfirst.counter (by omega)
    rw [List.length_cons, Nat.add_comm]
    exact hfirst.trans hrest

end Numbers

/-- The requests taken so far and those still on the queue are some of those created, in
the order in which they were. -/
def InOrder (taken : List PrefetchRequest) (s : System) : Prop :=
  (taken.map (·.requestId.toNat) ++ queueIds s.engine).Sublist (List.range' 1 s.created)

theorem InOrder.enqueue {taken : List PrefetchRequest} {s : System} {e : PrefetchEngine} {k : Nat}
    (h : InOrder taken s) (hnumbers : Numbers s.created k s.engine e) :
    InOrder taken (s.setEngine e) := by
  have hlen : e.prefetchQueue.length = s.engine.prefetchQueue.length + k := by
    have hids := congrArg List.length hnumbers.ids
    simpa [queueIds] using hids
  have hcreated : (s.setEngine e).created = s.created + k := by
    simp only [System.setEngine]
    omega
  unfold InOrder at h ⊢
  rw [hcreated, show (s.setEngine e).engine = e from rfl, hnumbers.ids, ← List.append_assoc,
    ← List.range'_append_1, Nat.add_comm 1]
  exact h.append (List.Sublist.refl _)

theorem InOrder.worker {taken : List PrefetchRequest} {s s' : System} {now unspecified : UInt64}
    (h : InOrder taken s) (hs : step s (.worker now unspecified) = some s') :
    InOrder (taken ++ takenBy s (.worker now unspecified)) s' := by
  obtain ⟨w, hw, hstep⟩ := Option.bind_eq_some_iff.mp hs
  unfold InOrder at h ⊢
  cases w with
  | entering =>
    rw [workerStep] at hstep
    cases hqueue : s.engine.prefetchQueue with
    | nil =>
      rw [hqueue] at hstep
      obtain rfl := Option.some.inj hstep
      simpa [takenBy, hw, hqueue] using h
    | cons req queue =>
      rw [hqueue] at hstep
      obtain rfl := Option.some.inj hstep
      simpa [takenBy, hw, hqueue, queueIds] using h
  | testing =>
    obtain rfl := Option.some.inj hstep
    simpa [takenBy, hw] using h
  | popped req =>
    rw [workerStep] at hstep
    split_ifs at hstep <;> obtain rfl := Option.some.inj hstep
    · simpa [takenBy, hw, System.setMetrics, queueIds] using h
    · simpa [takenBy, hw] using h
  | checked req =>
    obtain rfl := Option.some.inj hstep
    simpa [takenBy, hw] using h
  | placed req ok =>
    cases ok <;> obtain rfl := Option.some.inj hstep <;>
      simpa [takenBy, hw, System.setMetrics, queueIds] using h
  | issued req =>
    obtain rfl := Option.some.inj hstep
    simpa [takenBy, hw, System.setMetrics, queueIds] using h
  | hit req =>
    obtain rfl := Option.some.inj hstep
    simpa [takenBy, hw, System.setMetrics, queueIds] using h
  | exited => cases hstep

theorem created_le_step {s s' : System} {a : Action} (hs : step s a = some s') :
    s.created ≤ s'.created := by
  cases a with
  | recordAccess id address now | submitPrefetches requests =>
    obtain rfl := Option.some.inj hs
    exact Nat.le_add_right _ _
  | worker now unspecified =>
    obtain ⟨w, -, hstep⟩ := Option.bind_eq_some_iff.mp hs
    simp only [workerStep] at hstep
    repeat' split at hstep
    all_goals cases hstep
    all_goals exact Nat.le_refl _
  | _ =>
    simp only [step] at hs
    repeat' split at hs
    all_goals cases hs
    all_goals exact Nat.le_refl _

theorem inOrder_step {taken : List PrefetchRequest} {s s' : System} {a : Action}
    (haccounted : s.Accounted) (h : InOrder taken s) (hlt : s'.created < 2 ^ 64)
    (hs : step s a = some s') : InOrder (taken ++ takenBy s a) s' := by
  obtain ⟨t, ht⟩ := haccounted
  by_cases hworker : ∃ now unspecified, a = .worker now unspecified
  · obtain ⟨now, unspecified, rfl⟩ := hworker
    exact h.worker hs
  · have hnone : takenBy s a = [] := by
      cases a with
      | worker now unspecified => exact absurd ⟨now, unspecified, rfl⟩ hworker
      | _ => rfl
    rw [hnone, List.append_nil]
    cases a with
    | worker now unspecified => exact absurd ⟨now, unspecified, rfl⟩ hworker
    | recordAccess id address now =>
      obtain rfl := Option.some.inj hs
      obtain ⟨k, hnumbers⟩ := numbers_recordAccess ht.counter id address now hlt
      exact h.enqueue hnumbers
    | submitPrefetches requests =>
      obtain rfl := Option.some.inj hs
      have hlen := (enqueues_submitPrefetches s.engine requests).length
      have hroom : s.created + requests.length < 2 ^ 64 := by
        simp only [System.setEngine] at hlt
        omega
      exact h.enqueue (numbers_submitPrefetches ht.counter requests hroom)
    | cancelPrefetch id =>
      obtain rfl := Option.some.inj hs
      refine List.Sublist.trans ((List.Sublist.refl _).append ?_) h
      simp only [queueIds, prefetchQueue_cancelPrefetch]
      exact List.filter_sublist.map _
    | start =>
      simp only [step] at hs
      split_ifs at hs <;> obtain rfl := Option.some.inj hs <;> exact h
    | stop =>
      obtain rfl := Option.some.inj hs
      exact h
    | join =>
      simp only [step] at hs
      split at hs <;> cases hs <;> exact h
    | others placement =>
      obtain rfl := Option.some.inj hs
      exact h

/-- In every interleaving the worker takes the requests in the order in which they were
created, each one at most once: what it has taken and what is still on the queue are
among the numbers given out, in increasing order. -/
theorem requests_taken_in_order (placement : MemoryPlacementEngine) {actions : List Action}
    {s : System} (h : Runs.run step { placement } actions = some s) (hlt : s.created < 2 ^ 64) :
    ((Runs.outputs step takenBy { placement } actions).map (·.requestId.toNat) ++
      queueIds s.engine).Sublist (List.range' 1 s.created) := by
  have hkeep (taken : List PrefetchRequest) (u : System) (a : Action) (u' : System)
      (hu : u.Accounted ∧ (u.created < 2 ^ 64 → InOrder taken u)) (ha : step u a = some u') :
      u'.Accounted ∧ (u'.created < 2 ^ 64 → InOrder (taken ++ takenBy u a) u') := by
    refine ⟨accounted_step hu.1 ha, fun hlt => ?_⟩
    have hle := created_le_step ha
    exact inOrder_step hu.1 (hu.2 (by omega)) hlt ha
  have hstart : System.Accounted { placement } ∧
      (({ placement } : System).created < 2 ^ 64 → InOrder [] { placement }) :=
    ⟨⟨{}, rfl, rfl, rfl, rfl, rfl⟩, fun _ => List.Sublist.refl _⟩
  exact (Runs.invariant_outputs hkeep [] hstart h).2 hlt

/-- Of three requests the second is cancelled while the worker has the first. -/
def cancelling : List Action :=
  [.submitPrefetches [{ objectId := 7 }, { objectId := 8 }, { objectId := 9 }], .start,
    .worker 0 0, .worker 0 0, .cancelPrefetch 8, .worker 0 0, .worker 0 0, .worker 0 0,
    .worker 0 0, .worker 0 0]

theorem requests_taken_in_order_cancelling :
    ∃ s, Runs.run step { placement := { maxRam := 0, maxVram := 0, maxSsd := 0 } } cancelling =
        some s ∧
      ((Runs.outputs step takenBy { placement := { maxRam := 0, maxVram := 0, maxSsd := 0 } }
        cancelling).map (·.requestId.toNat) ++ queueIds s.engine).Sublist [1, 2, 3] := by
  have hlog : (Runs.run step { placement := { maxRam := 0, maxVram := 0, maxSsd := 0 } }
      cancelling).map (·.created) = some 3 := rfl
  obtain ⟨s, hs, hcreated⟩ := Option.map_eq_some_iff.mp hlog
  have horder := requests_taken_in_order _ hs (by rw [hcreated]; decide)
  rw [hcreated] at horder
  exact ⟨s, hs, horder⟩

end PrefetchEngine

end Ume
