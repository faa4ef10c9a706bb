import Mathlib.Algebra.BigOperators.Group.List.Basic
import Mathlib.Algebra.GroupWithZero.Nat
import Mathlib.Data.List.Infix
import Ume.Event.MemoryPlacement

/-! Any sequence of calls on one placement engine: what its plans commit of each
capacity, and its queue of requests as a first-in first-out queue in which no
object is twice. -/

namespace Ume

namespace MemoryPlacementEngine

/-- The capacities that the tiers count against. -/
inductive Capacity where
  | ram | vram | ssd
  deriving DecidableEq, Repr

def Capacity.ofTier (tier : TierClass) : Capacity :=
  if tier = TierClass.kVram then .vram else if tier = TierClass.kNvme then .ssd else .ram

def maximum (engine : MemoryPlacementEngine) : Capacity → UInt64
  | .ram => engine.maxRam
  | .vram => engine.maxVram
  | .ssd => engine.maxSsd

def used (engine : MemoryPlacementEngine) : Capacity → UInt64
  | .ram => engine.currentRam
  | .vram => engine.currentVram
  | .ssd => engine.currentSsd

/-- The plan for a decision that is not refused. -/
def planFor (engine : MemoryPlacementEngine) (decision : SchedulingDecision) : PlacementPlan where
  planId := engine.planIdCounter + 1
  objectId := decision.objectId
  sourceTier := TierClass.kRam
  targetTier := decision.preferredTier
  sizeBytes := decision.allocationSizeBytes
  isValid := true

/-- The three branches of the switch are one check, of the capacity the preferred
tier counts against. -/
theorem planPlacement_eq (engine : MemoryPlacementEngine) (d : SchedulingDecision) :
    engine.planPlacement d =
      if d.objectId = ObjectId.kNull ∨ d.allocationSizeBytes = 0 then
        (.error .kInvalidArgument, engine)
      else if engine.used (.ofTier d.preferredTier) + d.allocationSizeBytes >
          engine.maximum (.ofTier d.preferredTier) then
        (.error .kCapacityExceeded, { engine with planIdCounter := engine.planIdCounter + 1 })
      else
        (.ok (engine.planFor d), { engine with planIdCounter := engine.planIdCounter + 1 }) := by
  by_cases harg : d.objectId = ObjectId.kNull ∨ d.allocationSizeBytes = 0
  · rw [planPlacement, if_pos harg, if_pos harg]
  rw [planPlacement, if_neg harg, if_neg harg]
  by_cases hv : d.preferredTier = TierClass.kVram
  · rw [if_pos hv, Capacity.ofTier, if_pos hv]
    rfl
  · rw [if_neg hv, Capacity.ofTier, if_neg hv]
    by_cases hn : d.preferredTier = TierClass.kNvme
    · rw [if_pos hn, if_pos hn]
      rfl
    · rw [if_neg hn, if_neg hn]
      rfl

/-- A decision that fits its capacity on its own. -/
def Admissible (engine : MemoryPlacementEngine) (d : SchedulingDecision) : Prop :=
  d.objectId ≠ ObjectId.kNull ∧ d.allocationSizeBytes ≠ 0 ∧
    d.allocationSizeBytes ≤ engine.maximum (.ofTier d.preferredTier)

instance (engine : MemoryPlacementEngine) (d : SchedulingDecision) :
    Decidable (engine.Admissible d) :=
  inferInstanceAs (Decidable (_ ∧ _ ∧ _))

section Unused

variable {engine : MemoryPlacementEngine} {d : SchedulingDecision}

theorem planPlacement_of_admissible (hused : ∀ c, engine.used c = 0) (h : engine.Admissible d) :
    engine.planPlacement d =
      (.ok (engine.planFor d), { engine with planIdCounter := engine.planIdCounter + 1 }) := by
  obtain ⟨hid, hsize, hle⟩ := h
  rw [planPlacement_eq, if_neg (by simp [hid, hsize]), hused, UInt64.zero_add,
    if_neg (UInt64.not_lt.mpr hle)]

theorem planPlacement_of_not_admissible (hused : ∀ c, engine.used c = 0)
    (h : ¬engine.Admissible d) :
    ∃ status planId, engine.planPlacement d =
      (.error status, { engine with planIdCounter := planId }) := by
  rw [planPlacement_eq]
  by_cases harg : d.objectId = ObjectId.kNull ∨ d.allocationSizeBytes = 0
  · exact ⟨.kInvalidArgument, engine.planIdCounter, if_pos harg⟩
  · have hgt : engine.used (.ofTier d.preferredTier) + d.allocationSizeBytes >
        engine.maximum (.ofTier d.preferredTier) := by
      rw [hused, UInt64.zero_add]
      rw [not_or] at harg
      exact UInt64.not_le.mp fun hle => h ⟨harg.1, harg.2, hle⟩
    rw [if_neg harg, if_pos hgt]
    exact ⟨.kCapacityExceeded, engine.planIdCounter + 1, rfl⟩

theorem exists_plan_iff (hused : ∀ c, engine.used c = 0) :
    (∃ plan, (engine.planPlacement d).1 = .ok plan) ↔ engine.Admissible d := by
  by_cases had : engine.Admissible d
  · rw [planPlacement_of_admissible hused had]
    exact iff_of_true ⟨_, rfl⟩ had
  · obtain ⟨status, planId, h⟩ := planPlacement_of_not_admissible hused had
    rw [h]
    exact iff_of_false (by simp) had

end Unused

inductive Call where
  | plan (decision : SchedulingDecision)
  | enqueue (decision : SchedulingDecision) (now : UInt64)
  | dequeue
  | clear

/-- The engine with what its calls have returned: the plans and accepted requests
of the whole run, and since the last clear the requests accepted and dequeued. -/
structure Service where
  engine : MemoryPlacementEngine
  plans : List PlacementPlan := []
  accepted : List PlacementRequest := []
  entered : List PlacementRequest := []
  served : List PlacementRequest := []
  deriving DecidableEq

namespace Service

def step (s : Service) : Call → Service
  | .plan d =>
    match s.engine.planPlacement d with
    | (.ok plan, engine) => { s with engine := engine, plans := s.plans ++ [plan] }
    | (.error _, engine) => { s with engine := engine }
  | .enqueue d now =>
    match s.engine.enqueueRequest d now with
    | (.ok requestId, engine) =>
      let req : PlacementRequest := ⟨requestId, d, now⟩
      { s with
        engine := engine
        accepted := s.accepted ++ [req]
        entered := s.entered ++ [req] }
    | (.error _, engine) => { s with engine := engine }
  | .dequeue =>
    match s.engine.dequeueRequest with
    | (.ok req, engine) => { s with engine := engine, served := s.served ++ [req] }
    | (.error _, engine) => { s with engine := engine }
  | .clear => { s with engine := s.engine.clearQueue, entered := [], served := [] }

/-- The calls of a run on an engine that starts as its constructor leaves it. -/
def run (maxRam maxVram maxSsd : UInt64) (calls : List Call) : Service :=
  calls.foldl step { engine := { maxRam := maxRam, maxVram := maxVram, maxSsd := maxSsd } }

theorem run_snoc (maxRam maxVram maxSsd : UInt64) (calls : List Call) (call : Call) :
    run maxRam maxVram maxSsd (calls ++ [call]) = (run maxRam maxVram maxSsd calls).step call := by
  rw [run, List.foldl_append]
  rfl

/-- What the valid plans returned so far commit of a capacity. -/
def committed (s : Service) (c : Capacity) : Nat :=
  ((s.plans.filter fun p => p.isValid ∧ Capacity.ofTier p.targetTier = c).map
    fun p => p.sizeBytes.toNat).sum

end Service

/-- What a call asks of a capacity, if its decision fits that capacity on its own. -/
def Call.demand (engine : MemoryPlacementEngine) (c : Capacity) : Call → Nat
  | .plan d =>
    if engine.Admissible d ∧ Capacity.ofTier d.preferredTier = c then
      d.allocationSizeBytes.toNat
    else 0
  | _ => 0

def demand (engine : MemoryPlacementEngine) (c : Capacity) (calls : List Call) : Nat :=
  (calls.map (Call.demand engine c)).sum

theorem demand_append (engine : MemoryPlacementEngine) (c : Capacity) (calls calls' : List Call) :
    demand engine c (calls ++ calls') = demand engine c calls + demand engine c calls' := by
  rw [demand, List.map_append, List.sum_append]
  rfl

namespace Service

/-! What one call does to the engine and the record of its answers. -/

variable (s : Service) (d : SchedulingDecision) (now : UInt64)

theorem step_plan :
    ∃ planId plans, s.step (.plan d) =
      { s with engine := { s.engine with planIdCounter := planId }, plans := plans } := by
  rw [step, planPlacement_eq]
  split_ifs with harg hfull
  · exact ⟨s.engine.planIdCounter, s.plans, rfl⟩
  · exact ⟨s.engine.planIdCounter + 1, s.plans, rfl⟩
  · exact ⟨s.engine.planIdCounter + 1, s.plans ++ [s.engine.planFor d], rfl⟩

theorem step_enqueue :
    s.step (.enqueue d now) = s ∨
      ∃ req : PlacementRequest, req.requestId = s.engine.requestIdCounter + 1 ∧ req.decision = d ∧
        ¬s.engine.Refuses d.objectId ∧
        s.step (.enqueue d now) =
          { s with
            engine := s.engine.accept req
            accepted := s.accepted ++ [req]
            entered := s.entered ++ [req] } := by
  by_cases href : s.engine.Refuses d.objectId
  · left
    obtain ⟨status, h⟩ := enqueueRequest_of_refuses href now
    rw [step, h]
  · right
    refine ⟨⟨s.engine.requestIdCounter + 1, d, now⟩, rfl, rfl, href, ?_⟩
    rw [step, enqueueRequest_of_not_refuses href]

theorem step_dequeue :
    s.step .dequeue = s ∨
      ∃ req queue, s.engine.queue = req :: queue ∧
        s.step .dequeue =
          { s with
            engine :=
              { s.engine with
                queue := queue
                pendingObjects := s.engine.pendingObjects.erase req.decision.objectId }
            served := s.served ++ [req] } := by
  cases hq : s.engine.queue with
  | nil =>
    left
    rw [step, dequeueRequest, hq]
  | cons req queue =>
    right
    refine ⟨req, queue, rfl, ?_⟩
    rw [step, dequeueRequest, hq]

/-- No call touches the capacities or the counters they are compared with. -/
theorem capacities_step (call : Call) (c : Capacity) :
    (s.step call).engine.maximum c = s.engine.maximum c ∧
      (s.step call).engine.used c = s.engine.used c := by
  cases call with
  | plan d =>
    obtain ⟨planId, plans, h⟩ := s.step_plan d
    rw [h]
    cases c <;> exact ⟨rfl, rfl⟩
  | enqueue d now =>
    obtain h | ⟨req, -, -, -, h⟩ := s.step_enqueue d now
    · rw [h]
      exact ⟨rfl, rfl⟩
    · rw [h]
      cases c <;> exact ⟨rfl, rfl⟩
  | dequeue =>
    obtain h | ⟨req, queue, -, h⟩ := s.step_dequeue
    · rw [h]
      exact ⟨rfl, rfl⟩
    · rw [h]
      cases c <;> exact ⟨rfl, rfl⟩
  | clear => cases c <;> exact ⟨rfl, rfl⟩

/-- A call commits what its decision asks for, whatever is committed already. -/
theorem committed_step (hused : ∀ c, s.engine.used c = 0) (call : Call) (c : Capacity) :
    (s.step call).committed c = s.committed c + call.demand s.engine c := by
  cases call with
  | plan d =>
    by_cases had : s.engine.Admissible d
    · rw [step, planPlacement_of_admissible hused had]
      by_cases hc : Capacity.ofTier d.preferredTier = c
      · simp [committed, planFor, Call.demand, had, hc]
      · simp [committed, planFor, Call.demand, hc]
    · obtain ⟨status, planId, h⟩ := planPlacement_of_not_admissible hused had
      rw [step, h]
      simp [committed, Call.demand, had]
  | enqueue d now =>
    obtain h | ⟨req, -, -, -, h⟩ := s.step_enqueue d now
    · rw [h]
      rfl
    · rw [h]
      rfl
  | dequeue =>
    obtain h | ⟨req, queue, -, h⟩ := s.step_dequeue
    · rw [h]
      rfl
    · rw [h]
      rfl
  | clear => rfl

end Service

section Committed

variable (maxRam maxVram maxSsd : UInt64) (calls : List Call)

theorem capacities_run (c : Capacity) :
    (Service.run maxRam maxVram maxSsd calls).engine.maximum c =
        (Service.run maxRam maxVram maxSsd []).engine.maximum c ∧
      (Service.run maxRam maxVram maxSsd calls).engine.used c = 0 := by
  induction calls using List.reverseRecOn with
  | nil => cases c <;> exact ⟨rfl, rfl⟩
  | append_singleton calls call ih =>
    rw [Service.run_snoc, ((Service.run maxRam maxVram maxSsd calls).capacities_step call c).1,
      ((Service.run maxRam maxVram maxSsd calls).capacities_step call c).2]
    exact ih

theorem demand_run (call : Call) (c : Capacity) :
    call.demand (Service.run maxRam maxVram maxSsd calls).engine c =
      call.demand (Service.run maxRam maxVram maxSsd []).engine c := by
  cases call with
  | plan d =>
    have hiff : (Service.run maxRam maxVram maxSsd calls).engine.Admissible d ↔
        (Service.run maxRam maxVram maxSsd []).engine.Admissible d := by
      rw [Admissible, Admissible, (capacities_run maxRam maxVram maxSsd calls _).1]
    simp only [Call.demand, hiff]
  | enqueue d now => rfl
  | dequeue => rfl
  | clear => rfl

theorem committed_run (c : Capacity) :
    (Service.run maxRam maxVram maxSsd calls).committed c =
      demand (Service.run maxRam maxVram maxSsd []).engine c calls := by
  induction calls using List.reverseRecOn with
  | nil => rfl
  | append_singleton calls call ih =>
    have hused := fun c => (capacities_run maxRam maxVram maxSsd calls c).2
    rw [Service.run_snoc, Service.committed_step _ hused, ih, demand_run, demand_append]
    simp [demand]

/-- The counters of what is in use stay at zero, so each decision is checked as if
it were the only one: the plans keep within every capacity exactly if all the
decisions that fit on their own also fit together. -/
theorem committed_le_maximum_iff :
    (∀ before, before <+: calls → ∀ c,
        (Service.run maxRam maxVram maxSsd before).committed c ≤
          ((Service.run maxRam maxVram maxSsd before).engine.maximum c).toNat) ↔
      ∀ c, demand (Service.run maxRam maxVram maxSsd []).engine c calls ≤
        ((Service.run maxRam maxVram maxSsd []).engine.maximum c).toNat := by
  constructor
  · intro h c
    rw [← committed_run, ← (capacities_run maxRam maxVram maxSsd calls c).1]
    exact h calls List.prefix_rfl c
  · rintro h before ⟨after, rfl⟩ c
    rw [committed_run, (capacities_run maxRam maxVram maxSsd before c).1]
    refine le_trans ?_ (h c)
    rw [demand_append]
    exact Nat.le_add_right _ _

/-- Two plans for the whole of the video memory. -/
def planTwice : List Call :=
  [.plan { objectId := 1, preferredTier := TierClass.kVram, allocationSizeBytes := 1024 },
    .plan { objectId := 2, preferredTier := TierClass.kVram, allocationSizeBytes := 1024 }]

theorem planTwice_overcommits :
    (Service.run 4096 1024 4096 planTwice).committed .vram = 2048 ∧
      (Service.run 4096 1024 4096 planTwice).engine.maximum .vram = 1024 := by
  decide +kernel

end Committed

def queuedIds (engine : MemoryPlacementEngine) : List ObjectId :=
  engine.queue.map fun req => req.decision.objectId

namespace Service

/-- The set of objects follows the queue, no object is queued twice, and the queue
is what is left of the requests accepted since the last clear. The ids of all
accepted requests are counted up from one, up to the width of the counter. -/
structure Queued (s : Service) : Prop where
  pending : s.engine.pendingObjects = s.engine.queuedIds.toFinset
  nodup : s.engine.queuedIds.Nodup
  fifo : s.entered = s.served ++ s.engine.queue
  recent : s.entered <:+ s.accepted
  counter : s.engine.requestIdCounter = UInt64.ofNat s.accepted.length
  ids : s.accepted.map PlacementRequest.requestId =
    (List.range' 1 s.accepted.length).map UInt64.ofNat
  nonNull : ObjectId.kNull ∉ s.engine.queuedIds

namespace Queued

variable {s : Service}

theorem enqueue (h : s.Queued) (d : SchedulingDecision) (now : UInt64) :
    (s.step (.enqueue d now)).Queued := by
  obtain hs | ⟨req, hid, rfl, href, hs⟩ := s.step_enqueue d now
  · rwa [hs]
  obtain ⟨hnull, hmem⟩ := not_or.mp href
  have hids : (s.engine.accept req).queuedIds = s.engine.queuedIds ++ [req.decision.objectId] := by
    rw [queuedIds, accept, List.map_append]
    rfl
  have hnew : req.decision.objectId ∉ s.engine.queuedIds := by
    rwa [h.pending, List.mem_toFinset] at hmem
  have hcount : UInt64.ofNat (s.accepted.length + 1) = req.requestId := by
    rw [hid, h.counter, UInt64.ofNat_add]
    rfl
  rw [hs]
  constructor
  case pending =>
    rw [hids, accept, h.pending]
    ext id
    simp only [Finset.mem_insert, List.mem_toFinset, List.mem_append, List.mem_singleton, or_comm]
  case nodup =>
    rw [hids, List.nodup_append]
    refine ⟨h.nodup, List.nodup_singleton _, ?_⟩
    rintro id hmem' _ hsing rfl
    exact hnew (List.mem_singleton.mp hsing ▸ hmem')
  case fifo => rw [h.fifo, accept, List.append_assoc]
  case recent =>
    obtain ⟨earlier, he⟩ := h.recent
    exact ⟨earlier, by rw [← he, List.append_assoc]⟩
  case counter => rw [List.length_append, List.length_singleton, hcount, accept]
  case ids =>
    rw [List.map_append, h.ids, List.length_append, List.length_singleton, List.range'_concat,
      List.map_append, List.map_singleton, List.map_singleton, one_mul, Nat.add_comm 1, hcount]
  case nonNull =>
    rw [hids, List.mem_append, List.mem_singleton, not_or]
    exact ⟨h.nonNull, fun he => hnull he.symm⟩

theorem dequeue (h : s.Queued) : (s.step .dequeue).Queued := by
  obtain hs | ⟨req, queue, hq, hs⟩ := s.step_dequeue
  · rwa [hs]
  have hids : s.engine.queuedIds =
      req.decision.objectId :: queue.map fun req => req.decision.objectId := by
    rw [queuedIds, hq]
    rfl
  have hnodup := h.nodup
  rw [hids, List.nodup_cons] at hnodup
  have hnull := h.nonNull
  rw [hids, List.mem_cons, not_or] at hnull
  rw [hs]
  exact { h with
    pending := by
      rw [queuedIds, h.pending, hids, List.toFinset_cons,
        Finset.erase_insert (by rw [List.mem_toFinset]; exact hnodup.1)]
    nodup := hnodup.2
    fifo := by rw [h.fifo, hq, List.append_assoc]; rfl
    nonNull := hnull.2 }

theorem step (h : s.Queued) (call : Call) : (s.step call).Queued := by
  cases call with
  | plan d =>
    obtain ⟨planId, plans, hs⟩ := s.step_plan d
    rw [hs]
    exact { h with }
  | enqueue d now => exact h.enqueue d now
  | dequeue => exact h.dequeue
  | clear =>
    exact { h with
      pending := rfl
      nodup := List.nodup_nil
      fifo := rfl
      recent := List.nil_suffix
      nonNull := List.not_mem_nil }

end Queued

theorem queued_run (maxRam maxVram maxSsd : UInt64) (calls : List Call) :
    (run maxRam maxVram maxSsd calls).Queued := by
  induction calls using List.reverseRecOn with
  | nil => exact ⟨rfl, List.nodup_nil, rfl, List.nil_suffix, rfl, rfl, List.not_mem_nil⟩
  | append_singleton calls call ih =>
    rw [run_snoc]
    exact ih.step call

theorem Queued.accepted_increasing {s : Service} (h : s.Queued) (hlt : s.accepted.length < 2 ^ 64) :
    (s.accepted.map PlacementRequest.requestId).Pairwise (· < ·) := by
  rw [h.ids, List.pairwise_map]
  refine (List.pairwise_lt_range' 1 Nat.zero_lt_one).imp_of_mem ?_
  intro i j hi hj hij
  rw [List.mem_range'_1] at hi hj
  have hi' : i < 2 ^ 64 := by omega
  have hj' : j < 2 ^ 64 := by omega
  rw [UInt64.lt_iff_toNat_lt, UInt64.toNat_ofNat_of_lt' hi', UInt64.toNat_ofNat_of_lt' hj']
  exact hij

theorem Queued.queue_suffix {s : Service} (h : s.Queued) : s.engine.queue <:+ s.accepted :=
  List.IsSuffix.trans ⟨s.served, h.fifo.symm⟩ h.recent

theorem Queued.enqueueRequest_refused {s : Service} (h : s.Queued) (d : SchedulingDecision)
    (now : UInt64) :
    ((s.engine.enqueueRequest d now).1 = .error .kAlreadyExists ↔
        d.objectId ∈ s.engine.queuedIds) ∧
      ((s.engine.enqueueRequest d now).1 = .error .kInvalidArgument ↔
        d.objectId = ObjectId.kNull) ∧
      ∀ status, (s.engine.enqueueRequest d now).1 = .error status →
        (s.engine.enqueueRequest d now).2 = s.engine := by
  have hpending : d.objectId ∈ s.engine.pendingObjects ↔ d.objectId ∈ s.engine.queuedIds := by
    rw [h.pending, List.mem_toFinset]
  by_cases hnull : d.objectId = ObjectId.kNull
  · have hnot : d.objectId ∉ s.engine.queuedIds := hnull ▸ h.nonNull
    simp [enqueueRequest, hnull, hnull ▸ hnot]
  · by_cases hmem : d.objectId ∈ s.engine.pendingObjects
    · simp [enqueueRequest, hnull, hmem, hpending.mp hmem]
    · simp [enqueueRequest, hnull, hmem, hpending.not.mp hmem]

/-- The queue of requests is a first-in first-out queue without duplicates after
any sequence of calls. The request ids increase, and so are never used again, for
as long as the 64-bit counter has not come around. -/
theorem queue_duplicateFree (maxRam maxVram maxSsd : UInt64) (calls : List Call) :
    let s := run maxRam maxVram maxSsd calls
    s.engine.pendingObjects = s.engine.queuedIds.toFinset ∧
      s.engine.queuedIds.Nodup ∧
      (s.accepted.length < 2 ^ 64 →
        (s.engine.queue.map PlacementRequest.requestId).Pairwise (· < ·) ∧
          (s.accepted.map PlacementRequest.requestId).Pairwise (· < ·)) ∧
      (∀ d now,
        ((s.engine.enqueueRequest d now).1 = .error .kAlreadyExists ↔
            d.objectId ∈ s.engine.queuedIds) ∧
          ((s.engine.enqueueRequest d now).1 = .error .kInvalidArgument ↔
            d.objectId = ObjectId.kNull) ∧
          ∀ status, (s.engine.enqueueRequest d now).1 = .error status →
            (s.engine.enqueueRequest d now).2 = s.engine) ∧
      s.entered = s.served ++ s.engine.queue := by
  intro s
  have h : s.Queued := queued_run maxRam maxVram maxSsd calls
  refine ⟨h.pending, h.nodup, fun hlt => ⟨?_, h.accepted_increasing hlt⟩,
    h.enqueueRequest_refused, h.fifo⟩
  exact (h.accepted_increasing hlt).sublist (h.queue_suffix.sublist.map _)

theorem engine_enqueue (s : Service) (d : SchedulingDecision) (now : UInt64) :
    (s.step (.enqueue d now)).engine = (s.engine.enqueueRequest d now).2 := by
  rw [step]
  split <;> simp_all

theorem engine_dequeue (s : Service) : (s.step .dequeue).engine = s.engine.dequeueRequest.2 := by
  rw [step]
  split <;> simp_all

/-- A request is accepted and taken off the queue again, many times over. -/
def churn (n : Nat) : List Call :=
  (List.replicate n [Call.enqueue { objectId := 1 } 0, Call.dequeue]).flatten

theorem run_churn (n : Nat) :
    (run 0 0 0 (churn n)).engine =
      { maxRam := 0, maxVram := 0, maxSsd := 0, requestIdCounter := UInt64.ofNat n } := by
  induction n with
  | zero => rfl
  | succ n ih =>
    have hsplit : churn (n + 1) =
        churn n ++ [Call.enqueue { objectId := 1 } 0] ++ [Call.dequeue] := by
      rw [churn, List.replicate_succ', List.flatten_append]
      simp [churn]
    rw [hsplit, run_snoc, run_snoc, engine_dequeue, engine_enqueue, ih, UInt64.ofNat_add]
    rfl

theorem queue_duplicateFree_churn :
    (run 0 0 0 (churn 2 ++ [Call.enqueue { objectId := 2 } 0])).accepted.length < 2 ^ 64 ∧
      ((run 0 0 0 (churn 2 ++ [Call.enqueue { objectId := 2 } 0])).accepted.map
        PlacementRequest.requestId).Pairwise (· < ·) := by
  have hlt : (run 0 0 0 (churn 2 ++ [Call.enqueue { objectId := 2 } 0])).accepted.length <
      2 ^ 64 := by decide +kernel
  exact ⟨hlt, ((queue_duplicateFree 0 0 0 _).2.2.1 hlt).2⟩

theorem requestIds_wrap :
    ((run 0 0 0 (churn (2 ^ 64 - 2) ++
        [Call.enqueue { objectId := 1 } 0] ++ [Call.enqueue { objectId := 2 } 0])).engine.queue.map
      PlacementRequest.requestId) = [18446744073709551615, 0] := by
  have hcounter : UInt64.ofNat (2 ^ 64 - 2) = 18446744073709551614 := by decide
  rw [run_snoc, run_snoc, engine_enqueue, engine_enqueue, run_churn, hcounter]
  decide +kernel

end Service

end MemoryPlacementEngine

end Ume
