import Mathlib.Data.Finset.Basic
import Ume.Event.Event

/-! The placement engine: the capacity check of a single decision, and the queue of
placement requests with the set of the objects that are in it. -/

namespace Ume

abbrev ObjectId := UInt64
abbrev DecisionReason := UInt8

namespace ObjectId

def kNull : ObjectId := 0

end ObjectId

namespace DecisionReason

def kDefaultPlacement : DecisionReason := 0
def kHotAccessVram : DecisionReason := 1
def kRamThresholdExceededSsdSpill : DecisionReason := 2
def kVramCapacityExceededRamFallback : DecisionReason := 3

end DecisionReason

structure SchedulingDecision where
  objectId : ObjectId := ObjectId.kNull
  preferredTier : TierClass := TierClass.kRam
  priorityScore : UInt32 := 100
  reason : DecisionReason := DecisionReason.kDefaultPlacement
  decisionTimestamp : UInt64 := 0
  allocationSizeBytes : UInt64 := 0
  deriving DecidableEq

structure PlacementPlan where
  planId : UInt64 := 0
  objectId : ObjectId := ObjectId.kNull
  sourceTier : TierClass := TierClass.kRam
  targetTier : TierClass := TierClass.kRam
  sizeBytes : UInt64 := 0
  isValid : Bool := false
  deriving DecidableEq

structure PlacementRequest where
  requestId : UInt64 := 0
  decision : SchedulingDecision := {}
  requestTimestamp : UInt64 := 0
  deriving DecidableEq

structure MemoryPlacementEngine where
  maxRam : UInt64
  maxVram : UInt64
  maxSsd : UInt64
  currentRam : UInt64 := 0
  currentVram : UInt64 := 0
  currentSsd : UInt64 := 0
  queue : List PlacementRequest := []
  pendingObjects : Finset UInt64 := ∅
  requestIdCounter : UInt64 := 0
  planIdCounter : UInt64 := 0
  deriving DecidableEq

namespace MemoryPlacementEngine

/-- The number of a plan is drawn before the capacity is checked, so that a plan
refused for its size uses one up. -/
def planPlacement (engine : MemoryPlacementEngine) (decision : SchedulingDecision) :
    Except Status PlacementPlan × MemoryPlacementEngine :=
  if decision.objectId = ObjectId.kNull ∨ decision.allocationSizeBytes = 0 then
    (.error .kInvalidArgument, engine)
  else
    let planId := engine.planIdCounter + 1
    let drawn := { engine with planIdCounter := planId }
    let plan : PlacementPlan :=
      { planId := planId
        objectId := decision.objectId
        sourceTier := TierClass.kRam
        targetTier := decision.preferredTier
        sizeBytes := decision.allocationSizeBytes }
    if decision.preferredTier = TierClass.kVram then
      if engine.currentVram + decision.allocationSizeBytes > engine.maxVram then
        (.error .kCapacityExceeded, drawn)
      else (.ok { plan with isValid := true }, drawn)
    else if decision.preferredTier = TierClass.kNvme then
      if engine.currentSsd + decision.allocationSizeBytes > engine.maxSsd then
        (.error .kCapacityExceeded, drawn)
      else (.ok { plan with isValid := true }, drawn)
    else if engine.currentRam + decision.allocationSizeBytes > engine.maxRam then
      (.error .kCapacityExceeded, drawn)
    else (.ok { plan with isValid := true }, drawn)

def enqueueRequest (engine : MemoryPlacementEngine) (decision : SchedulingDecision)
    (now : UInt64) : Except Status UInt64 × MemoryPlacementEngine :=
  if decision.objectId = ObjectId.kNull then (.error .kInvalidArgument, engine)
  else if decision.objectId ∈ engine.pendingObjects then (.error .kAlreadyExists, engine)
  else
    let req : PlacementRequest :=
      { requestId := engine.requestIdCounter + 1
        decision := decision
        requestTimestamp := now }
    (.ok req.requestId,
      { engine with
        requestIdCounter := engine.requestIdCounter + 1
        queue := engine.queue ++ [req]
        pendingObjects := insert decision.objectId engine.pendingObjects })

/-- The requests for an object that is none, or that is queued, are refused. -/
def Refuses (engine : MemoryPlacementEngine) (id : ObjectId) : Prop :=
  id = ObjectId.kNull ∨ id ∈ engine.pendingObjects

instance (engine : MemoryPlacementEngine) (id : ObjectId) : Decidable (engine.Refuses id) :=
  inferInstanceAs (Decidable (_ ∨ _))

/-- The engine when it has accepted a request. -/
def accept (engine : MemoryPlacementEngine) (req : PlacementRequest) : MemoryPlacementEngine :=
  { engine with
    requestIdCounter := req.requestId
    queue := engine.queue ++ [req]
    pendingObjects := insert req.decision.objectId engine.pendingObjects }

theorem enqueueRequest_of_refuses {engine : MemoryPlacementEngine} {d : SchedulingDecision}
    (h : engine.Refuses d.objectId) (now : UInt64) :
    ∃ status, engine.enqueueRequest d now = (.error status, engine) := by
  rw [enqueueRequest]
  by_cases hnull : d.objectId = ObjectId.kNull
  · exact ⟨.kInvalidArgument, if_pos hnull⟩
  · rw [if_neg hnull, if_pos (h.resolve_left hnull)]
    exact ⟨.kAlreadyExists, rfl⟩

theorem enqueueRequest_of_not_refuses {engine : MemoryPlacementEngine} {d : SchedulingDecision}
    (h : ¬engine.Refuses d.objectId) (now : UInt64) :
    engine.enqueueRequest d now =
      (.ok (engine.requestIdCounter + 1),
        engine.accept ⟨engine.requestIdCounter + 1, d, now⟩) := by
  rw [Refuses, not_or] at h
  rw [enqueueRequest, if_neg h.1, if_neg h.2]
  rfl

theorem refuses_accept (engine : MemoryPlacementEngine) (req : PlacementRequest) (id : ObjectId) :
    (engine.accept req).Refuses id ↔ id = req.decision.objectId ∨ engine.Refuses id := by
  rw [Refuses, Refuses, accept, Finset.mem_insert]
  exact or_left_comm

def dequeueRequest (engine : MemoryPlacementEngine) :
    Except Status PlacementRequest × MemoryPlacementEngine :=
  match engine.queue with
  | [] => (.error .kNotFound, engine)
  | req :: queue =>
    (.ok req,
      { engine with
        queue := queue
        pendingObjects := engine.pendingObjects.erase req.decision.objectId })

def queueSize (engine : MemoryPlacementEngine) : Nat := engine.queue.length

def clearQueue (engine : MemoryPlacementEngine) : MemoryPlacementEngine :=
  { engine with queue := [], pendingObjects := ∅ }

end MemoryPlacementEngine

end Ume
