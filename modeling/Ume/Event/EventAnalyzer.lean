import Ume.Event.EventDispatcher
import Ume.Event.MemoryStatistics

/-! The analyzer: the table of open allocations it keeps from the event stream,
its context, and the collector it reports to. -/

namespace Ume

structure ActiveAllocation where
  objectId : UInt64 := 0
  sizeBytes : UInt64 := 0
  allocatedTimestamp : UInt64 := 0
  tier : TierClass := TierClass.kRam
  processId : UInt32 := 0
  threadId : UInt32 := 0
  deriving DecidableEq

structure AnalysisContext where
  totalEventsProcessed : UInt64 := 0
  activeAllocationsCount : UInt64 := 0
  activeBytes : UInt64 := 0
  peakBytes : UInt64 := 0
  totalLeaksDetected : UInt64 := 0
  outOfOrderEvents : UInt64 := 0
  deriving DecidableEq

structure EventAnalyzer where
  statsCollector : Option StatisticsCollector := none
  activeMap : AList (fun _ : UInt64 => ActiveAllocation) := ∅
  contextState : AnalysisContext := {}
  lastTimestamp : UInt64 := 0

namespace EventAnalyzer

def activeCount (activeMap : AList (fun _ : UInt64 => ActiveAllocation)) : UInt64 :=
  UInt64.ofNat activeMap.keys.length

def handleObjectCreated (a : EventAnalyzer) (event : Event) : EventAnalyzer :=
  let size := event.objectSizeBytes
  let tier := event.objectPreferredTier
  let pid := event.header.sequenceNum
  let alloc : ActiveAllocation :=
    { objectId := event.header.objectId
      sizeBytes := size
      allocatedTimestamp := event.header.timestamp
      tier := tier
      processId := pid }
  let activeMap := a.activeMap.insert event.header.objectId alloc
  let activeBytes := a.contextState.activeBytes + size
  { a with
    activeMap := activeMap
    contextState :=
      { a.contextState with
        activeAllocationsCount := activeCount activeMap
        activeBytes := activeBytes
        peakBytes := max a.contextState.peakBytes activeBytes }
    statsCollector := a.statsCollector.map fun c => c.recordAllocation tier size pid }

def handleObjectDestroyed (a : EventAnalyzer) (event : Event) : EventAnalyzer :=
  match a.activeMap.lookup event.header.objectId with
  | none =>
    { a with
      contextState :=
        { a.contextState with outOfOrderEvents := a.contextState.outOfOrderEvents + 1 } }
  | some alloc =>
    let activeMap := a.activeMap.erase event.header.objectId
    let lifetimeNs :=
      if event.header.timestamp ≥ alloc.allocatedTimestamp then
        event.header.timestamp - alloc.allocatedTimestamp
      else 0
    { a with
      activeMap := activeMap
      contextState :=
        { a.contextState with
          activeAllocationsCount := activeCount activeMap
          activeBytes := saturatingSub a.contextState.activeBytes alloc.sizeBytes }
      statsCollector := a.statsCollector.map fun c =>
        c.recordFree alloc.tier alloc.sizeBytes lifetimeNs alloc.processId }

def handleMigrationCompleted (a : EventAnalyzer) (event : Event) : EventAnalyzer :=
  match a.activeMap.lookup event.header.objectId with
  | none => a
  | some alloc =>
    { a with
      activeMap :=
        a.activeMap.replace event.header.objectId { alloc with tier := TierClass.kRam } }

def processEvent (a : EventAnalyzer) (event : Event) : EventAnalyzer :=
  let a :=
    { a with
      contextState :=
        { a.contextState with totalEventsProcessed := a.contextState.totalEventsProcessed + 1 } }
  let a :=
    if event.header.timestamp < a.lastTimestamp then
      { a with
        contextState :=
          { a.contextState with outOfOrderEvents := a.contextState.outOfOrderEvents + 1 } }
    else { a with lastTimestamp := event.header.timestamp }
  if event.header.type = EventType.kObjectCreated then a.handleObjectCreated event
  else if event.header.type = EventType.kObjectDestroyed then a.handleObjectDestroyed event
  else if event.header.type = EventType.kMigrationCompleted then a.handleMigrationCompleted event
  else a

def onEvent (a : EventAnalyzer) (event : Event) : EventAnalyzer := a.processEvent event

def context (a : EventAnalyzer) : AnalysisContext :=
  { a.contextState with totalLeaksDetected := activeCount a.activeMap }

def activeAllocations (a : EventAnalyzer) : List ActiveAllocation :=
  a.activeMap.entries.map Sigma.snd

def isAllocated (a : EventAnalyzer) (objectId : UInt64) : Bool :=
  (a.activeMap.lookup objectId).isSome

def getAllocation (a : EventAnalyzer) (objectId : UInt64) : Except Status ActiveAllocation :=
  match a.activeMap.lookup objectId with
  | some alloc => .ok alloc
  | none => .error .kNotFound

def reset (a : EventAnalyzer) : EventAnalyzer :=
  { a with activeMap := ∅, contextState := {}, lastTimestamp := 0 }

/-- Everything a caller can ask an analyzer and its collector. -/
structure Figures where
  context : AnalysisContext
  activeAllocations : List ActiveAllocation
  getAllocation : UInt64 → Except Status ActiveAllocation
  snapshot : Option MemoryStatisticsSnapshot
  tierStatistics : TierClass → Option TierStatistics
  processStatistics : UInt32 → Option ProcessStatistics

def figures (a : EventAnalyzer) : Figures where
  context := a.context
  activeAllocations := a.activeAllocations
  getAllocation := a.getAllocation
  snapshot := a.statsCollector.map StatisticsCollector.snapshot
  tierStatistics tier := a.statsCollector.map fun c => c.tierStatistics tier
  processStatistics pid := a.statsCollector.map fun c => c.processStatistics pid

/-- A new analyzer reporting to a new collector. -/
def fresh : EventAnalyzer := { statsCollector := some {} }

theorem onEvent_replayed : IgnoresReplay onEvent := fun _ _ => rfl

end EventAnalyzer

/-- A dispatcher with one analyzer subscribed under a filter. -/
def EventDispatcher.analyzing (filter : EventFilter) : EventDispatcher EventAnalyzer :=
  (EventDispatcher.subscribeListener {} (some EventAnalyzer.onEvent) filter).2

theorem EventDispatcher.analyzing_replayed (filter : EventFilter) :
    IgnoresReplay (EventDispatcher.analyzing filter).dispatch := by
  apply dispatch_replayed
  intro sub hsub
  obtain rfl : sub = { token := 1, listener := some EventAnalyzer.onEvent, filter := filter } :=
    List.mem_singleton.mp hsub
  refine ⟨fun f hf => ?_, fun f hf => ?_⟩
  · obtain rfl := Option.some.inj hf
    exact EventAnalyzer.onEvent_replayed
  · cases hf

end Ume
