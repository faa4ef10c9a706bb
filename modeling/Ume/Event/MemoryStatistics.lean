import Mathlib.Data.List.AList
import Ume.Event.Event
import Ume.Lib.Binary64

/-! The statistics collector: totals, bytes by tier with their peaks, and the
tables by tier class and by process. -/

namespace Ume

structure MemoryStatisticsSnapshot where
  currentRamBytes : UInt64 := 0
  peakRamBytes : UInt64 := 0
  currentVramBytes : UInt64 := 0
  peakVramBytes : UInt64 := 0
  currentSsdBytes : UInt64 := 0
  peakSsdBytes : UInt64 := 0
  totalAllocations : UInt64 := 0
  totalFrees : UInt64 := 0
  totalBytesAllocated : UInt64 := 0
  totalBytesFreed : UInt64 := 0
  avgAllocationSizeBytes : Binary64 := Binary64.ofNat 0
  avgLifetimeNs : Binary64 := Binary64.ofNat 0
  activeAllocationsCount : UInt64 := 0

structure TierStatistics where
  currentBytes : UInt64 := 0
  peakBytes : UInt64 := 0
  allocationCount : UInt64 := 0
  freeCount : UInt64 := 0
  deriving DecidableEq

structure ProcessStatistics where
  processId : UInt32 := 0
  currentBytes : UInt64 := 0
  peakBytes : UInt64 := 0
  allocationCount : UInt64 := 0
  freeCount : UInt64 := 0
  deriving DecidableEq

structure StatisticsCollector where
  currentRamBytes : UInt64 := 0
  peakRamBytes : UInt64 := 0
  currentVramBytes : UInt64 := 0
  peakVramBytes : UInt64 := 0
  currentSsdBytes : UInt64 := 0
  peakSsdBytes : UInt64 := 0
  totalAllocations : UInt64 := 0
  totalFrees : UInt64 := 0
  totalBytesAllocated : UInt64 := 0
  totalBytesFreed : UInt64 := 0
  totalLifetimeNs : UInt64 := 0
  completedLifetimesCount : UInt64 := 0
  tierStats : AList (fun _ : UInt8 => TierStatistics) := ∅
  processStats : AList (fun _ : UInt32 => ProcessStatistics) := ∅

/-- A counter that stops at zero. -/
def saturatingSub (a b : UInt64) : UInt64 := if a ≥ b then a - b else 0

namespace TierStatistics

def recordAllocation (t : TierStatistics) (sizeBytes : UInt64) : TierStatistics :=
  let current := t.currentBytes + sizeBytes
  { t with
    currentBytes := current
    peakBytes := max t.peakBytes current
    allocationCount := t.allocationCount + 1 }

def recordFree (t : TierStatistics) (sizeBytes : UInt64) : TierStatistics :=
  { t with
    currentBytes := saturatingSub t.currentBytes sizeBytes
    freeCount := t.freeCount + 1 }

end TierStatistics

namespace ProcessStatistics

def recordAllocation (p : ProcessStatistics) (pid : UInt32) (sizeBytes : UInt64) :
    ProcessStatistics :=
  let current := p.currentBytes + sizeBytes
  { p with
    processId := pid
    currentBytes := current
    peakBytes := max p.peakBytes current
    allocationCount := p.allocationCount + 1 }

/-- A free does not set the process id of the entry it may have created. -/
def recordFree (p : ProcessStatistics) (sizeBytes : UInt64) : ProcessStatistics :=
  { p with
    currentBytes := saturatingSub p.currentBytes sizeBytes
    freeCount := p.freeCount + 1 }

end ProcessStatistics

namespace StatisticsCollector

/-- The `switch` on the tier in `record_allocation`: tiers without bytes of
their own count as RAM. -/
def allocateTier (c : StatisticsCollector) (tier : TierClass) (sizeBytes : UInt64) :
    StatisticsCollector :=
  if tier = TierClass.kVram then
    let current := c.currentVramBytes + sizeBytes
    { c with currentVramBytes := current, peakVramBytes := max c.peakVramBytes current }
  else if tier = TierClass.kNvme then
    let current := c.currentSsdBytes + sizeBytes
    { c with currentSsdBytes := current, peakSsdBytes := max c.peakSsdBytes current }
  else
    let current := c.currentRamBytes + sizeBytes
    { c with currentRamBytes := current, peakRamBytes := max c.peakRamBytes current }

def freeTier (c : StatisticsCollector) (tier : TierClass) (sizeBytes : UInt64) :
    StatisticsCollector :=
  if tier = TierClass.kVram then
    { c with currentVramBytes := saturatingSub c.currentVramBytes sizeBytes }
  else if tier = TierClass.kNvme then
    { c with currentSsdBytes := saturatingSub c.currentSsdBytes sizeBytes }
  else { c with currentRamBytes := saturatingSub c.currentRamBytes sizeBytes }

def recordAllocation (c : StatisticsCollector) (tier : TierClass) (sizeBytes : UInt64)
    (pid : UInt32) : StatisticsCollector :=
  let c :=
    { c with
      totalAllocations := c.totalAllocations + 1
      totalBytesAllocated := c.totalBytesAllocated + sizeBytes }
  let c := c.allocateTier tier sizeBytes
  let tstats := (c.tierStats.lookup tier).getD {}
  let c := { c with tierStats := c.tierStats.insert tier (tstats.recordAllocation sizeBytes) }
  if pid ≠ 0 then
    let pstats := (c.processStats.lookup pid).getD {}
    { c with
      processStats := c.processStats.insert pid (pstats.recordAllocation pid sizeBytes) }
  else c

def recordFree (c : StatisticsCollector) (tier : TierClass) (sizeBytes lifetimeNs : UInt64)
    (pid : UInt32) : StatisticsCollector :=
  let c :=
    { c with
      totalFrees := c.totalFrees + 1
      totalBytesFreed := c.totalBytesFreed + sizeBytes }
  let c :=
    if lifetimeNs > 0 then
      { c with
        totalLifetimeNs := c.totalLifetimeNs + lifetimeNs
        completedLifetimesCount := c.completedLifetimesCount + 1 }
    else c
  let c := c.freeTier tier sizeBytes
  let tstats := (c.tierStats.lookup tier).getD {}
  let c := { c with tierStats := c.tierStats.insert tier (tstats.recordFree sizeBytes) }
  if pid ≠ 0 then
    let pstats := (c.processStats.lookup pid).getD {}
    { c with processStats := c.processStats.insert pid (pstats.recordFree sizeBytes) }
  else c

def recordMigration (c : StatisticsCollector) (srcTier tgtTier : TierClass) (bytes : UInt64)
    (pid : UInt32) : StatisticsCollector :=
  (c.recordFree srcTier bytes 0 pid).recordAllocation tgtTier bytes pid

def snapshot (c : StatisticsCollector) : MemoryStatisticsSnapshot where
  currentRamBytes := c.currentRamBytes
  peakRamBytes := c.peakRamBytes
  currentVramBytes := c.currentVramBytes
  peakVramBytes := c.peakVramBytes
  currentSsdBytes := c.currentSsdBytes
  peakSsdBytes := c.peakSsdBytes
  totalAllocations := c.totalAllocations
  totalFrees := c.totalFrees
  totalBytesAllocated := c.totalBytesAllocated
  totalBytesFreed := c.totalBytesFreed
  avgAllocationSizeBytes :=
    if c.totalAllocations > 0 then
      Binary64.div (Binary64.ofNat c.totalBytesAllocated.toNat)
        (Binary64.ofNat c.totalAllocations.toNat)
    else Binary64.ofNat 0
  avgLifetimeNs :=
    if c.completedLifetimesCount > 0 then
      Binary64.div (Binary64.ofNat c.totalLifetimeNs.toNat)
        (Binary64.ofNat c.completedLifetimesCount.toNat)
    else Binary64.ofNat 0
  activeAllocationsCount :=
    if c.totalAllocations ≥ c.totalFrees then c.totalAllocations - c.totalFrees else 0

def tierStatistics (c : StatisticsCollector) (tier : TierClass) : TierStatistics :=
  (c.tierStats.lookup tier).getD {}

def processStatistics (c : StatisticsCollector) (pid : UInt32) : ProcessStatistics :=
  (c.processStats.lookup pid).getD {}

end StatisticsCollector

end Ume
