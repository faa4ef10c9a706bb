import Mathlib.Data.List.AList
import Ume.Event.MemoryPlacement
import Ume.Lib.Binary64

/-! The optimizer that ages the recorded objects and moves cold ones out of the
video memory and hot ones into it. A pass visits the residency table in the order
of a hash table, which is any order of its keys, and the requests of a pass are
stamped with one reading of the clock each. -/

namespace Ume

structure ResidencyInfo where
  objectId : ObjectId := ObjectId.kNull
  currentTier : TierClass := TierClass.kRam
  lastAccessTime : UInt64 := 0
  accessCount : UInt32 := 0
  temperature : Binary64 := Binary64.ofNat 50
  sizeBytes : UInt64 := 0
  deriving DecidableEq

structure MigrationTask where
  taskId : UInt64 := 0
  objectId : ObjectId := ObjectId.kNull
  sourceTier : TierClass := TierClass.kRam
  targetTier : TierClass := TierClass.kRam
  sizeBytes : UInt64 := 0
  costEstimateUs : Binary64 := Binary64.ofNat 0
  priority : UInt32 := 100
  deriving DecidableEq

structure OptimizerMetrics where
  migrationsAttempted : UInt64 := 0
  migrationsCompleted : UInt64 := 0
  migrationsCancelled : UInt64 := 0
  totalMigrationTimeUs : UInt64 := 0
  totalBandwidthUsedBytes : UInt64 := 0
  deriving DecidableEq

structure MemoryOptimizer where
  decayRate : Binary64 := Binary64.ofDecimal 5 2
  residencyMap : AList (fun _ : UInt64 => ResidencyInfo) := ∅
  pendingMigrations : List MigrationTask := []
  taskIdCounter : UInt64 := 0
  metrics : OptimizerMetrics := {}

namespace MemoryOptimizer

def recordAccess (opt : MemoryOptimizer) (objectId : ObjectId) (sizeBytes : UInt64)
    (tier : TierClass) (now : UInt64) : MemoryOptimizer :=
  let res := (opt.residencyMap.lookup objectId).getD {}
  { opt with
    residencyMap := opt.residencyMap.insert objectId
      { objectId := objectId
        sizeBytes := sizeBytes
        currentTier := tier
        lastAccessTime := now
        accessCount := res.accessCount + 1
        temperature :=
          Binary64.min (Binary64.ofNat 100) (Binary64.add res.temperature (Binary64.ofNat 10)) } }

def estimateMigrationCost (src dst : TierClass) (size : UInt64) : Binary64 :=
  let bwUsPerByte :=
    if src = TierClass.kVram ∧ dst = TierClass.kRam then Binary64.ofDecimal 5 5
    else if src = TierClass.kRam ∧ dst = TierClass.kVram then Binary64.ofDecimal 5 5
    else if src = TierClass.kRam ∧ dst = TierClass.kNvme then Binary64.ofDecimal 4 4
    else Binary64.ofDecimal 1 4
  Binary64.add (Binary64.mul (Binary64.ofNat size.toNat) bwUsPerByte) (Binary64.ofNat 10)

/-- The temperature of an object when it has aged by one pass. -/
def aged (decayRate : Binary64) (res : ResidencyInfo) : Binary64 :=
  Binary64.max (Binary64.ofNat 0)
    (Binary64.sub res.temperature (Binary64.mul res.temperature decayRate))

def pushMigration (opt : MemoryOptimizer) (res : ResidencyInfo) (source target : TierClass)
    (priority : UInt32) : MemoryOptimizer :=
  { opt with
    taskIdCounter := opt.taskIdCounter + 1
    pendingMigrations := opt.pendingMigrations ++
      [{ taskId := opt.taskIdCounter + 1
         objectId := res.objectId
         sourceTier := source
         targetTier := target
         sizeBytes := res.sizeBytes
         costEstimateUs := estimateMigrationCost source target res.sizeBytes
         priority := priority }] }

/-- The body of the loop over the residency table. -/
def ageObject (opt : MemoryOptimizer) (rawId : UInt64) : MemoryOptimizer :=
  match opt.residencyMap.lookup rawId with
  | none => opt
  | some entry =>
    let res := { entry with temperature := aged opt.decayRate entry }
    let opt := { opt with residencyMap := opt.residencyMap.insert rawId res }
    if Binary64.lt res.temperature (Binary64.ofNat 20) ∧ res.currentTier = TierClass.kVram then
      opt.pushMigration res TierClass.kVram TierClass.kRam 50
    else if Binary64.lt (Binary64.ofNat 80) res.temperature ∧ res.currentTier = TierClass.kRam then
      opt.pushMigration res TierClass.kRam TierClass.kVram 150
    else opt

def getResidency (opt : MemoryOptimizer) (objectId : ObjectId) : Except Status ResidencyInfo :=
  match opt.residencyMap.lookup objectId with
  | some res => .ok res
  | none => .error .kNotFound

def setDecayRate (opt : MemoryOptimizer) (decayRate : Binary64) : MemoryOptimizer :=
  { opt with decayRate := decayRate }

/-- The decision that a task asks the placement engine for. -/
def decisionOf (task : MigrationTask) : SchedulingDecision where
  objectId := task.objectId
  preferredTier := task.targetTier
  allocationSizeBytes := task.sizeBytes
  priorityScore := task.priority

/-- A task that the placement engine has taken is counted, and its object is from
then on recorded in the target tier. -/
def complete (opt : MemoryOptimizer) (task : MigrationTask) : MemoryOptimizer :=
  { opt with
    metrics :=
      { opt.metrics with
        migrationsCompleted := opt.metrics.migrationsCompleted + 1
        totalMigrationTimeUs :=
          opt.metrics.totalMigrationTimeUs + Binary64.toUInt64 task.costEstimateUs
        totalBandwidthUsedBytes := opt.metrics.totalBandwidthUsedBytes + task.sizeBytes }
    residencyMap :=
      match opt.residencyMap.lookup task.objectId with
      | some res =>
        opt.residencyMap.insert task.objectId { res with currentTier := task.targetTier }
      | none => opt.residencyMap }

def attempt (opt : MemoryOptimizer) : MemoryOptimizer :=
  { opt with
    metrics := { opt.metrics with migrationsAttempted := opt.metrics.migrationsAttempted + 1 } }

def cancel (opt : MemoryOptimizer) : MemoryOptimizer :=
  { opt with
    metrics := { opt.metrics with migrationsCancelled := opt.metrics.migrationsCancelled + 1 } }

/-- One turn of the loop over the pending tasks, and whether it erases the task. -/
def processTask (opt : MemoryOptimizer) (placement : MemoryPlacementEngine) (task : MigrationTask)
    (now : UInt64) : Bool × MemoryOptimizer × MemoryPlacementEngine :=
  match placement.enqueueRequest (decisionOf task) now with
  | (.ok _, placement) => (true, opt.attempt.complete task, placement)
  | (.error _, placement) => (false, opt.attempt.cancel, placement)

/-- The loop over the pending tasks; the tasks that stay come first. -/
def processPending (opt : MemoryOptimizer) (placement : MemoryPlacementEngine)
    (clock : Nat → UInt64) :
    List MigrationTask → List MigrationTask × MemoryOptimizer × MemoryPlacementEngine
  | [] => ([], opt, placement)
  | task :: tasks =>
    match opt.processTask placement task (clock 0) with
    | (true, opt, placement) => opt.processPending placement (fun i => clock (i + 1)) tasks
    | (false, opt, placement) =>
      let (kept, opt, placement) := opt.processPending placement (fun i => clock (i + 1)) tasks
      (task :: kept, opt, placement)

def optimizePass (opt : MemoryOptimizer) (placement : MemoryPlacementEngine)
    (order : List UInt64) (clock : Nat → UInt64) : MemoryOptimizer × MemoryPlacementEngine :=
  let opt := order.foldl ageObject opt
  let (kept, opt, placement) := opt.processPending placement clock opt.pendingMigrations
  ({ opt with pendingMigrations := kept }, placement)

end MemoryOptimizer

end Ume
