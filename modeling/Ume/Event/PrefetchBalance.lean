import Ume.Event.PrefetchEngine
import Ume.Lib.Counter
import Ume.Lib.Runs

/-! The prefetch engine with its worker, which holds one request at a time outside of the lock.
Every request that was created is in the queue, held by the worker, or counted once as issued,
cancelled or missed. -/

namespace Ume

namespace PrefetchEngine

open Counter

/-- Where the worker is. It holds a request from the pop until it has counted it. -/
inductive Worker where
  | testing
  | entering
  | popped (req : PrefetchRequest)
  | checked (req : PrefetchRequest)
  | placed (req : PrefetchRequest) (ok : Bool)
  | issued (req : PrefetchRequest)
  | hit (req : PrefetchRequest)
  | exited

def Worker.held : Worker → Nat
  | popped _ | checked _ | placed _ _ => 1
  | _ => 0

/-- The thread is there from `start` to the join in `stop`. -/
structure System where
  engine : PrefetchEngine := {}
  isRunning : Bool := false
  worker : Option Worker := none
  placement : MemoryPlacementEngine
  created : Nat := 0

namespace System

def held (s : System) : Nat := s.worker.elim 0 Worker.held

/-- The engine, with the requests that were put on the queue counted. -/
def setEngine (s : System) (engine : PrefetchEngine) : System :=
  { s with
    engine := engine
    created := s.created + (engine.prefetchQueue.length - s.engine.prefetchQueue.length) }

def setMetrics (s : System) (metrics : PrefetchMetrics) (worker : Worker) : System :=
  { s with engine := { s.engine with metrics := metrics }, worker := some worker }

end System

def decisionFor (req : PrefetchRequest) : SchedulingDecision where
  objectId := req.objectId
  preferredTier := req.targetTier
  allocationSizeBytes := 4096
  priorityScore := req.priority

/-- A confidence outside the range of the counter is converted to any value. -/
def scaledConfidence (req : PrefetchRequest) (unspecified : UInt64) : UInt64 :=
  match Binary64.mul req.confidence (Binary64.ofNat 1000) with
  | .finite false units _ =>
    if units / Binary64.one < 2 ^ 64 then .ofNat (units / Binary64.one) else unspecified
  | _ => unspecified

/-- One step of `worker_loop`, with the clock showing `now`. -/
def workerStep (s : System) (now unspecified : UInt64) : Worker → Option System
  | .testing => some { s with worker := some (if s.isRunning then .entering else .exited) }
  | .entering =>
    match s.engine.prefetchQueue with
    | [] => some { s with worker := some .testing }
    | req :: queue =>
      some
        { s with
          engine := { s.engine with prefetchQueue := queue }
          worker := some (.popped req) }
  | .popped req =>
    if req.expiration > 0 ∧ now > req.expiration then
      some (s.setMetrics
        { s.engine.metrics with requestsCancelled := s.engine.metrics.requestsCancelled + 1 }
        .testing)
    else some { s with worker := some (.checked req) }
  | .checked req =>
    let (result, placement) := s.placement.enqueueRequest (decisionFor req) now
    some { s with placement := placement, worker := some (.placed req result.isOk) }
  | .placed req true =>
    some (s.setMetrics
      { s.engine.metrics with requestsIssued := s.engine.metrics.requestsIssued + 1 }
      (.issued req))
  | .placed _ false =>
    some (s.setMetrics
      { s.engine.metrics with prefetchMisses := s.engine.metrics.prefetchMisses + 1 } .testing)
  | .issued req =>
    some (s.setMetrics
      { s.engine.metrics with prefetchHits := s.engine.metrics.prefetchHits + 1 } (.hit req))
  | .hit req =>
    some (s.setMetrics
      { s.engine.metrics with
        totalConfidenceSumScaled :=
          s.engine.metrics.totalConfidenceSumScaled + scaledConfidence req unspecified }
      .testing)
  | .exited => none

/-- The calls of the engine, the steps of its worker, and anything that others do with the
placement engine. -/
inductive Action where
  | start
  | stop
  | join
  | recordAccess (objectId : ObjectId) (virtualAddress now : UInt64)
  | submitPrefetches (requests : List PrefetchRequest)
  | cancelPrefetch (objectId : ObjectId)
  | worker (now unspecified : UInt64)
  | others (placement : MemoryPlacementEngine)

/-- A thread that is started before the last one was joined terminates the program. -/
def step (s : System) : Action → Option System
  | .start =>
    if s.isRunning then some s
    else if s.worker.isSome then none
    else some { s with isRunning := true, worker := some .testing }
  | .stop => some { s with isRunning := false }
  | .join =>
    match s.worker with
    | some .exited | none => some { s with worker := none }
    | _ => none
  | .recordAccess objectId virtualAddress now =>
    some (s.setEngine (s.engine.recordAccess objectId virtualAddress now))
  | .submitPrefetches requests => some (s.setEngine (s.engine.submitPrefetches requests))
  | .cancelPrefetch objectId => some { s with engine := s.engine.cancelPrefetch objectId }
  | .worker now unspecified => s.worker.bind (workerStep s now unspecified)
  | .others placement => some { s with placement := placement }

/-- The counters as numbers that do not wrap. -/
structure Tally where
  issued : Nat := 0
  cancelled : Nat := 0
  misses : Nat := 0

/-- The requests are accounted for, with so many outside of the queue. -/
structure Balanced (t : Tally) (created held : Nat) (e : PrefetchEngine) : Prop where
  counter : Counts e.requestIdCounter created
  issued : Counts e.metrics.requestsIssued t.issued
  cancelled : Counts e.metrics.requestsCancelled t.cancelled
  misses : Counts e.metrics.prefetchMisses t.misses
  total : created = e.prefetchQueue.length + t.issued + t.cancelled + t.misses + held

/-- Requests are put on the queue, each with a number of its own. -/
structure Enqueues (k : Nat) (e e' : PrefetchEngine) : Prop where
  length : e'.prefetchQueue.length = e.prefetchQueue.length + k
  counter : e'.requestIdCounter = e.requestIdCounter + .ofNat k
  metrics : e'.metrics = e.metrics

section Calls

variable {e e' : PrefetchEngine} {t : Tally} {created held k : Nat}

theorem Enqueues.trans {e'' : PrefetchEngine} {l : Nat} (h : Enqueues k e e')
    (h' : Enqueues l e' e'') : Enqueues (k + l) e e'' where
  length := by rw [h'.length, h.length, Nat.add_assoc]
  counter := by rw [h'.counter, h.counter, UInt64.ofNat_add, UInt64.add_assoc]
  metrics := h'.metrics.trans h.metrics

theorem enqueues_recordAccess (e : PrefetchEngine) (id : ObjectId) (address now : UInt64) :
    ∃ k, Enqueues k e (e.recordAccess id address now) := by
  rw [recordAccess, analyzeLocality]
  dsimp only
  split_ifs with hshort hstride
  · exact ⟨0, rfl, (UInt64.add_zero _).symm, rfl⟩
  · exact ⟨1, List.length_append, rfl, rfl⟩
  · exact ⟨0, rfl, (UInt64.add_zero _).symm, rfl⟩

theorem enqueues_submitPrefetches (e : PrefetchEngine) (requests : List PrefetchRequest) :
    Enqueues requests.length e (e.submitPrefetches requests) := by
  induction requests generalizing e with
  | nil => exact ⟨rfl, (UInt64.add_zero _).symm, rfl⟩
  | cons req requests ih =>
    have hfirst : Enqueues 1 e (e.submitPrefetch req) := ⟨List.length_append, rfl, rfl⟩
    rw [List.length_cons, Nat.add_comm]
    exact hfirst.trans (ih _)

theorem Balanced.enqueues (h : Balanced t created held e) (henq : Enqueues k e e') :
    Balanced t (created + (e'.prefetchQueue.length - e.prefetchQueue.length)) held e' where
  counter := by
    rw [henq.counter, henq.length, Nat.add_sub_cancel_left]
    exact h.counter.add_ofNat k
  issued := henq.metrics ▸ h.issued
  cancelled := henq.metrics ▸ h.cancelled
  misses := henq.metrics ▸ h.misses
  total := by
    have htotal := h.total
    have hlength := henq.length
    omega

/-- A cancellation keeps the requests for other objects, in their order. -/
theorem prefetchQueue_cancelPrefetch (e : PrefetchEngine) (id : ObjectId) :
    (e.cancelPrefetch id).prefetchQueue = e.prefetchQueue.filter (·.objectId ≠ id) := by
  rw [cancelPrefetch]
  dsimp only
  split_ifs with hcancelled
  · rfl
  · have hle := List.length_filter_le (fun req => decide (req.objectId ≠ id)) e.prefetchQueue
    exact (List.filter_sublist.eq_of_length (by omega)).symm

theorem metrics_cancelPrefetch (e : PrefetchEngine) (id : ObjectId) :
    (e.cancelPrefetch id).metrics =
      { e.metrics with
        requestsCancelled := e.metrics.requestsCancelled +
          .ofNat (e.prefetchQueue.length - (e.cancelPrefetch id).prefetchQueue.length) } := by
  rw [prefetchQueue_cancelPrefetch, cancelPrefetch]
  dsimp only
  split_ifs with hcancelled
  · rfl
  · rw [not_not.mp hcancelled]
    exact congrArg (fun n => { e.metrics with requestsCancelled := n }) (UInt64.add_zero _).symm

theorem requestIdCounter_cancelPrefetch (e : PrefetchEngine) (id : ObjectId) :
    (e.cancelPrefetch id).requestIdCounter = e.requestIdCounter := by
  rw [cancelPrefetch]
  dsimp only
  split_ifs <;> rfl

theorem Balanced.cancelPrefetch (h : Balanced t created held e) (id : ObjectId) :
    ∃ t', Balanced t' created held (e.cancelPrefetch id) := by
  have hle : (e.cancelPrefetch id).prefetchQueue.length ≤ e.prefetchQueue.length := by
    rw [prefetchQueue_cancelPrefetch]
    exact List.length_filter_le ..
  have htotal := h.total
  have hmetrics := metrics_cancelPrefetch e id
  refine ⟨{ t with
    cancelled :=
      t.cancelled + (e.prefetchQueue.length - (e.cancelPrefetch id).prefetchQueue.length) }, ?_⟩
  exact
    { counter := requestIdCounter_cancelPrefetch e id ▸ h.counter
      issued := by rw [hmetrics]; exact h.issued
      cancelled := by rw [hmetrics]; exact h.cancelled.add_ofNat _
      misses := by rw [hmetrics]; exact h.misses
      total := by dsimp only; omega }

end Calls

def System.Accounted (s : System) : Prop := ∃ t, Balanced t s.created s.held s.engine

section Steps

variable {s s' : System} {t : Tally}

theorem Balanced.settle {t' : Tally} {created : Nat} {e : PrefetchEngine}
    {metrics : PrefetchMetrics} (h : Balanced t created 1 e)
    (hissued : Counts metrics.requestsIssued t'.issued)
    (hcancelled : Counts metrics.requestsCancelled t'.cancelled)
    (hmisses : Counts metrics.prefetchMisses t'.misses)
    (hone : t'.issued + t'.cancelled + t'.misses = t.issued + t.cancelled + t.misses + 1) :
    Balanced t' created 0 { e with metrics := metrics } where
  counter := h.counter
  issued := hissued
  cancelled := hcancelled
  misses := hmisses
  total := by
    have htotal := h.total
    dsimp only
    omega

/-- Every step of the worker leaves its request where it was, or counts it once. -/
theorem accounted_workerStep {w : Worker} {now unspecified : UInt64}
    (h : Balanced t s.created w.held s.engine) (hs : workerStep s now unspecified w = some s') :
    s'.Accounted := by
  have htotal := h.total
  cases w with
  | testing =>
    obtain rfl := Option.some.inj hs
    refine ⟨t, ?_⟩
    cases s.isRunning <;> exact h
  | entering =>
    rw [workerStep] at hs
    cases hqueue : s.engine.prefetchQueue with
    | nil =>
      rw [hqueue] at hs
      obtain rfl := Option.some.inj hs
      exact ⟨t, h⟩
    | cons req queue =>
      rw [hqueue] at hs htotal
      obtain rfl := Option.some.inj hs
      refine ⟨t, { h with total := ?_ }⟩
      rw [List.length_cons] at htotal
      dsimp only [System.held, Option.elim, Worker.held] at htotal ⊢
      omega
  | popped req =>
    rw [workerStep] at hs
    split_ifs at hs with hexpired
    · obtain rfl := Option.some.inj hs
      exact ⟨{ t with cancelled := t.cancelled + 1 },
        h.settle h.issued h.cancelled.add_one h.misses (by dsimp only; omega)⟩
    · obtain rfl := Option.some.inj hs
      exact ⟨t, h⟩
  | checked req =>
    obtain rfl := Option.some.inj hs
    exact ⟨t, h⟩
  | placed req ok =>
    cases ok with
    | true =>
      obtain rfl := Option.some.inj hs
      exact ⟨{ t with issued := t.issued + 1 },
        h.settle h.issued.add_one h.cancelled h.misses (by dsimp only; omega)⟩
    | false =>
      obtain rfl := Option.some.inj hs
      exact ⟨{ t with misses := t.misses + 1 },
        h.settle h.issued h.cancelled h.misses.add_one (by dsimp only; omega)⟩
  | issued req =>
    obtain rfl := Option.some.inj hs
    exact ⟨t, { h with }⟩
  | hit req =>
    obtain rfl := Option.some.inj hs
    exact ⟨t, { h with }⟩
  | exited => exact absurd hs (Option.some_ne_none s').symm

theorem accounted_step {a : Action} (h : s.Accounted) (hs : step s a = some s') :
    s'.Accounted := by
  obtain ⟨t, ht⟩ := h
  cases a with
  | start =>
    rw [step] at hs
    split_ifs at hs with hrunning hthread
    · obtain rfl := Option.some.inj hs
      exact ⟨t, ht⟩
    · obtain rfl := Option.some.inj hs
      have hnone : s.worker = none := by simpa using hthread
      rw [System.held, hnone] at ht
      exact ⟨t, ht⟩
  | stop =>
    obtain rfl := Option.some.inj hs
    exact ⟨t, ht⟩
  | join =>
    rw [step] at hs
    split at hs
    · next hexited =>
      obtain rfl := Option.some.inj hs
      rw [System.held, hexited] at ht
      exact ⟨t, ht⟩
    · next hnone =>
      obtain rfl := Option.some.inj hs
      rw [System.held, hnone] at ht
      exact ⟨t, ht⟩
    · cases hs
  | recordAccess id address now =>
    obtain rfl := Option.some.inj hs
    obtain ⟨k, henq⟩ := enqueues_recordAccess s.engine id address now
    exact ⟨t, ht.enqueues henq⟩
  | submitPrefetches requests =>
    obtain rfl := Option.some.inj hs
    exact ⟨t, ht.enqueues (enqueues_submitPrefetches s.engine requests)⟩
  | cancelPrefetch id =>
    obtain rfl := Option.some.inj hs
    exact ht.cancelPrefetch id
  | worker now unspecified =>
    obtain ⟨w, hw, hstep⟩ := Option.bind_eq_some_iff.mp hs
    rw [System.held, hw] at ht
    exact accounted_workerStep ht hstep
  | others placement =>
    obtain rfl := Option.some.inj hs
    exact ⟨t, ht⟩

theorem held_le_one (s : System) : s.held ≤ 1 := by
  rw [System.held]
  cases s.worker with
  | none => exact Nat.zero_le 1
  | some w =>
    show w.held ≤ 1
    cases w <;> simp [Worker.held]

end Steps

/-- At every point of every interleaving, the requests created are those in the queue, at most
one that the worker holds, and those counted as issued, cancelled or missed. A cancellation
removes the requests for its object and leaves the others in their order. -/
theorem requests_conserved (placement : MemoryPlacementEngine) {actions : List Action}
    {s : System} (h : Runs.run step { placement } actions = some s) :
    let m := s.engine.metrics
    let queueSize := s.engine.prefetchQueue.length
    s.engine.requestIdCounter = .ofNat s.created ∧
    s.engine.requestIdCounter = .ofNat queueSize + m.requestsIssued + m.requestsCancelled +
      m.prefetchMisses + .ofNat s.held ∧
    (s.created < 2 ^ 64 → s.engine.requestIdCounter.toNat = queueSize + m.requestsIssued.toNat +
      m.requestsCancelled.toNat + m.prefetchMisses.toNat + s.held) ∧
    s.held ≤ 1 ∧
    ∀ id, ∃ s', step s (.cancelPrefetch id) = some s' ∧
      s'.engine.prefetchQueue = s.engine.prefetchQueue.filter (·.objectId ≠ id) ∧
      ∀ req ∈ s'.engine.prefetchQueue, req.objectId ≠ id := by
  intro m queueSize
  have hstart : System.Accounted { placement } := ⟨{}, rfl, rfl, rfl, rfl, rfl⟩
  obtain ⟨t, ht⟩ : s.Accounted := Runs.invariant (fun _ _ _ => accounted_step) hstart h
  have htotal := ht.total
  refine ⟨ht.counter, ?_, fun hlt => ?_, held_le_one s, fun id => ?_⟩
  · have hcounted := (((counts_ofNat queueSize).add ht.issued).add ht.cancelled).add ht.misses
    have hall := hcounted.add_ofNat s.held
    rw [← htotal] at hall
    exact ht.counter.eq hall
  · rw [ht.counter.toNat_eq hlt, ht.issued.toNat_eq (by omega), ht.cancelled.toNat_eq (by omega),
      ht.misses.toNat_eq (by omega)]
    exact htotal
  · refine ⟨_, rfl, prefetchQueue_cancelPrefetch s.engine id, fun req hreq => ?_⟩
    rw [prefetchQueue_cancelPrefetch] at hreq
    simpa using (List.mem_filter.mp hreq).2

/-- Of two requests the first is held by the worker, the other in the queue. -/
theorem requests_conserved_popped :
    ∃ s, Runs.run step { placement := { maxRam := 0, maxVram := 0, maxSsd := 0 } }
        [.submitPrefetches [{ objectId := 7 }, { objectId := 8 }], .start, .worker 0 0,
          .worker 0 0] = some s ∧
      s.engine.requestIdCounter.toNat = 2 ∧ s.engine.prefetchQueue.length = 1 ∧ s.held = 1 ∧
      s.engine.requestIdCounter = .ofNat s.engine.prefetchQueue.length +
        s.engine.metrics.requestsIssued + s.engine.metrics.requestsCancelled +
          s.engine.metrics.prefetchMisses + .ofNat s.held := by
  obtain ⟨s, hs, hcounter, hqueue, hheld⟩ : ∃ s, Runs.run step
      { placement := { maxRam := 0, maxVram := 0, maxSsd := 0 } }
        [.submitPrefetches [{ objectId := 7 }, { objectId := 8 }], .start, .worker 0 0,
          .worker 0 0] = some s ∧
      s.engine.requestIdCounter.toNat = 2 ∧ s.engine.prefetchQueue.length = 1 ∧ s.held = 1 :=
    ⟨_, rfl, rfl, rfl, rfl⟩
  exact ⟨s, hs, hcounter, hqueue, hheld, (requests_conserved _ hs).2.1⟩

end PrefetchEngine

end Ume
