import Mathlib.Algebra.GroupWithZero.Nat
import Mathlib.Logic.Function.Basic
import Ume.Lib.Runs

/-! Epoch-based reclamation: readers, retirers and reclaimers, with every atomic
access and every section under the reclaim mutex a step of its own. Deleters are
named by the number of the `retire` call that hands them over. -/

namespace Ume

def kMaxRcuThreads : Nat := 64

structure ThreadEpochSlot where
  epoch : UInt64 := 0
  active : Bool := false
  entryTimeNs : UInt64 := 0

structure DeferredDeletion where
  epoch : UInt64
  deleter : Nat
  deriving DecidableEq

/-- Only the slots below `kMaxRcuThreads` are ever used. -/
structure EpochRcu where
  globalEpoch : UInt64 := 1
  slots : Nat → ThreadEpochSlot := fun _ => {}
  allocatedSlots : Nat := 0
  retiredList : List DeferredDeletion := []

namespace EpochRcu

/-- The caller that `try_advance_epoch` returns to. -/
inductive Caller where
  | program
  | reclaim
  deriving DecidableEq

/-- Where a thread is; each place names the access that comes next. -/
inductive Pc where
  | idle
  | enterTime (slot : Nat) (epoch : UInt64)
  | enterEpoch (slot : Nat) (epoch : UInt64)
  | enterActive (slot : Nat)
  | retirePush (epoch : UInt64) (deleter : Nat)
  | advanceCount (epoch : UInt64) (caller : Caller)
  | advanceScan (epoch : UInt64) (numSlots i : Nat) (caller : Caller)
  | advanceEpoch (epoch : UInt64) (numSlots i : Nat) (caller : Caller)
  | advanceTime (epoch : UInt64) (numSlots i : Nat) (caller : Caller)
  | minLoad
  | minCount (minEpoch : UInt64)
  | minScan (minEpoch : UInt64) (numSlots i : Nat)
  | minEpoch (minEpoch : UInt64) (numSlots i : Nat)
  | delete (toDelete : List Nat)
  deriving DecidableEq

/-- The manager and its threads. The rest records what has happened: the
critical section each thread is in, for each deleter the sections that were open
when its `retire` call read the epoch, and the deleters that have run. -/
structure System (ι : Type*) extends EpochRcu where
  threadSlot : ι → Option Nat := fun _ => none
  pc : ι → Pc := fun _ => .idle
  inside : ι → Option Nat := fun _ => none
  entered : Nat := 0
  retires : Nat := 0
  guards : Nat → ι → Option Nat := fun _ _ => none
  advances : Nat := 0
  ran : List Nat := []

/-- A call, or the next step of the thread in it with the time its clock shows. -/
inductive Action (ι : Type*) where
  | registerThread (p : ι)
  | enter (p : ι)
  | exit (p : ι)
  | retire (p : ι)
  | tryAdvanceEpoch (p : ι)
  | reclaim (p : ι)
  | next (p : ι) (nowNs : UInt64)

variable {ι : Type*} [DecidableEq ι]

def System.setPc (s : System ι) (p : ι) (pc : Pc) : System ι :=
  { s with pc := Function.update s.pc p pc }

def System.setSlot (s : System ι) (i : Nat) (slot : ThreadEpochSlot) : System ι :=
  { s with slots := Function.update s.slots i slot }

def Caller.resume : Caller → Pc
  | .program => .idle
  | .reclaim => .minLoad

def elapsedMs (nowNs entryNs : UInt64) : UInt64 :=
  if nowNs > entryNs then (nowNs - entryNs) / 1000000 else 0

def numSlots (s : System ι) : Nat := min s.allocatedSlots kMaxRcuThreads

def next (timeoutMs : UInt32) (s : System ι) (p : ι) (nowNs : UInt64) : Option (System ι) :=
  match s.pc p with
  | .idle => none
  | .enterTime slot epoch =>
    some ((s.setSlot slot { s.slots slot with entryTimeNs := nowNs }).setPc p
      (.enterEpoch slot epoch))
  | .enterEpoch slot epoch =>
    some ((s.setSlot slot { s.slots slot with epoch := epoch }).setPc p (.enterActive slot))
  | .enterActive slot =>
    some { (s.setSlot slot { s.slots slot with active := true }).setPc p .idle with
      inside := Function.update s.inside p (some s.entered)
      entered := s.entered + 1 }
  | .retirePush epoch deleter =>
    some { s.setPc p .idle with retiredList := s.retiredList ++ [⟨epoch, deleter⟩] }
  | .advanceCount epoch caller => some (s.setPc p (.advanceScan epoch (numSlots s) 0 caller))
  | .advanceScan epoch numSlots i caller =>
    if i < numSlots then
      if (s.slots i).active then some (s.setPc p (.advanceEpoch epoch numSlots i caller))
      else some (s.setPc p (.advanceScan epoch numSlots (i + 1) caller))
    else
      some { s.setPc p caller.resume with
        globalEpoch := s.globalEpoch + 1
        advances := s.advances + 1 }
  | .advanceEpoch epoch numSlots i caller =>
    if (s.slots i).epoch < epoch then some (s.setPc p (.advanceTime epoch numSlots i caller))
    else some (s.setPc p (.advanceScan epoch numSlots (i + 1) caller))
  | .advanceTime epoch numSlots i caller =>
    if elapsedMs nowNs (s.slots i).entryTimeNs < timeoutMs.toUInt64 then
      some (s.setPc p caller.resume)
    else some (s.setPc p (.advanceScan epoch numSlots (i + 1) caller))
  | .minLoad => some (s.setPc p (.minCount s.globalEpoch))
  | .minCount minEpoch => some (s.setPc p (.minScan minEpoch (numSlots s) 0))
  | .minScan minEpoch numSlots i =>
    if i < numSlots then
      if (s.slots i).active then some (s.setPc p (.minEpoch minEpoch numSlots i))
      else some (s.setPc p (.minScan minEpoch numSlots (i + 1)))
    else
      some { s.setPc p (.delete ((s.retiredList.filter (·.epoch < minEpoch)).map
          DeferredDeletion.deleter)) with
        retiredList := s.retiredList.filter fun item => !(item.epoch < minEpoch) }
  | .minEpoch minEpoch numSlots i =>
    some (s.setPc p (.minScan (min minEpoch (s.slots i).epoch) numSlots (i + 1)))
  | .delete [] => some (s.setPc p .idle)
  | .delete (deleter :: toDelete) =>
    some { s.setPc p (.delete toDelete) with ran := s.ran ++ [deleter] }

/-- One step of any thread. Calls start from an idle thread, and critical
sections are entered by registered threads and without nesting. -/
def step (timeoutMs : UInt32) (s : System ι) : Action ι → Option (System ι)
  | .registerThread p =>
    if s.pc p = .idle ∧ s.threadSlot p = none then
      let slot := if s.allocatedSlots ≥ kMaxRcuThreads then 0 else s.allocatedSlots
      some { s with
        allocatedSlots := s.allocatedSlots + 1
        threadSlot := Function.update s.threadSlot p (some slot) }
    else none
  | .enter p =>
    match s.threadSlot p with
    | some slot =>
      if s.pc p = .idle ∧ s.inside p = none then some (s.setPc p (.enterTime slot s.globalEpoch))
      else none
    | none => none
  | .exit p =>
    match s.threadSlot p with
    | some slot =>
      if s.pc p = .idle ∧ s.inside p ≠ none then
        some { s.setSlot slot { s.slots slot with active := false } with
          inside := Function.update s.inside p none }
      else none
    | none => none
  | .retire p =>
    if s.pc p = .idle then
      some { s.setPc p (.retirePush s.globalEpoch s.retires) with
        retires := s.retires + 1
        guards := Function.update s.guards s.retires s.inside }
    else none
  | .tryAdvanceEpoch p =>
    if s.pc p = .idle then some (s.setPc p (.advanceCount s.globalEpoch .program)) else none
  | .reclaim p =>
    if s.pc p = .idle then some (s.setPc p (.advanceCount s.globalEpoch .reclaim)) else none
  | .next p nowNs => next timeoutMs s p nowNs

end EpochRcu

end Ume
