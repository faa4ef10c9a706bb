import Mathlib.Logic.Function.Basic
import Ume.Lib.Runs

/-! Hazard pointers: one thread that retires and reclaims, and any number of readers.
Every access to a slot is a step of its own, and so is every run of a deleter.
Deleters are named by the number of the `retire` call that hands them over. -/

namespace Ume

def kMaxHazardSlots : Nat := 128

/-- Pointers to nodes of the type `ν`; the null pointer is `none`. -/
structure HazardSlot (ν : Type*) where
  pointer : Option ν := none
  active : Bool := false

structure RetiredItem (ν : Type*) where
  ptr : ν
  deleter : Nat
  deriving DecidableEq

/-- Only the slots below `kMaxHazardSlots` are ever used. -/
structure HazardPointerDomain (ν : Type*) where
  slots : Nat → HazardSlot ν := fun _ => {}
  retired : List (RetiredItem ν) := []

namespace HazardPointerDomain

/-- Where a reader is: the slot it tries to acquire or has to give back. -/
inductive ReaderPc where
  | idle
  | acquire (i : Nat)
  | release (i : Nat)
  deriving DecidableEq

/-- Where the retiring thread is: before the loads of `active` and of `pointer` of a
slot, with the pointers found so far, or before the next item to look at, with the
items that stay. -/
inductive Pc (ν : Type*) where
  | idle
  | scanActive (i : Nat) (protectedPtrs : List ν)
  | scanPointer (i : Nat) (protectedPtrs : List ν)
  | sweep (items : List (RetiredItem ν)) (protectedPtrs : List ν)
      (stillRetired : List (RetiredItem ν))

/-- The domain and its threads. The rest records what has happened: the number of
`retire` calls, the items they put into the list, those whose deleter has run, and the
slots that `acquire_slot` returned. -/
structure System (ι ν : Type*) extends HazardPointerDomain ν where
  readerPc : ι → ReaderPc := fun _ => .idle
  pc : Pc ν := .idle
  retires : Nat := 0
  handed : List (RetiredItem ν) := []
  ran : List (RetiredItem ν) := []
  acquired : ι → Option Nat := fun _ => none

/-- A call, or the next step of the thread in it. -/
inductive Action (ι ν : Type*) where
  | acquireSlot (p : ι)
  | releaseSlot (p : ι) (i : Nat)
  | protect (p : ι) (i : Nat) (ptr : Option ν)
  | clear (p : ι) (i : Nat)
  | readerNext (p : ι)
  | retire (ptr : Option ν) (hasDeleter : Bool)
  | reclaim
  | next

variable {ι ν : Type*} [DecidableEq ι] [DecidableEq ν]

def System.setReader (s : System ι ν) (p : ι) (pc : ReaderPc) : System ι ν :=
  { s with readerPc := Function.update s.readerPc p pc }

def System.setSlot (s : System ι ν) (i : Nat) (slot : HazardSlot ν) : System ι ν :=
  { s with slots := Function.update s.slots i slot }

/-- The store that publishes a pointer. -/
def System.setPointer (s : System ι ν) (i : Nat) (ptr : Option ν) : System ι ν :=
  if i < kMaxHazardSlots then s.setSlot i { s.slots i with pointer := ptr } else s

def readerNext (s : System ι ν) (p : ι) : Option (System ι ν) :=
  match s.readerPc p with
  | .idle => none
  | .acquire i =>
    if i < kMaxHazardSlots then
      if (s.slots i).active then some (s.setReader p (.acquire (i + 1)))
      else
        some { (s.setSlot i { s.slots i with active := true }).setReader p .idle with
          acquired := Function.update s.acquired p (some i) }
    else
      some { s.setReader p .idle with
        acquired := Function.update s.acquired p (some kMaxHazardSlots) }
  | .release i =>
    some ((s.setSlot i { s.slots i with active := false }).setReader p .idle)

def System.startReclaim (s : System ι ν) : System ι ν :=
  if s.retired.isEmpty then s else { s with pc := .scanActive 0 [] }

def next (s : System ι ν) : Option (System ι ν) :=
  match s.pc with
  | .idle => none
  | .scanActive i protectedPtrs =>
    if i < kMaxHazardSlots then
      if (s.slots i).active then some { s with pc := .scanPointer i protectedPtrs }
      else some { s with pc := .scanActive (i + 1) protectedPtrs }
    else some { s with pc := .sweep s.retired protectedPtrs [] }
  | .scanPointer i protectedPtrs =>
    some { s with pc := .scanActive (i + 1) (protectedPtrs ++ (s.slots i).pointer.toList) }
  | .sweep [] _ stillRetired => some { s with pc := .idle, retired := stillRetired }
  | .sweep (item :: items) protectedPtrs stillRetired =>
    if item.ptr ∈ protectedPtrs then
      some { s with pc := .sweep items protectedPtrs (stillRetired ++ [item]) }
    else some { s with pc := .sweep items protectedPtrs stillRetired, ran := s.ran ++ [item] }

/-- One step of any thread; calls start from an idle thread. Nothing keeps readers to
the slots they have acquired. -/
def step (s : System ι ν) : Action ι ν → Option (System ι ν)
  | .acquireSlot p => if s.readerPc p = .idle then some (s.setReader p (.acquire 0)) else none
  | .releaseSlot p i =>
    if s.readerPc p = .idle then
      if i < kMaxHazardSlots then some ((s.setPointer i none).setReader p (.release i)) else some s
    else none
  | .protect p i ptr => if s.readerPc p = .idle then some (s.setPointer i ptr) else none
  | .clear p i => if s.readerPc p = .idle then some (s.setPointer i none) else none
  | .readerNext p => readerNext s p
  | .retire ptr hasDeleter =>
    match s.pc, ptr, hasDeleter with
    | .idle, some ptr, true =>
      some (System.startReclaim { s with
        retired := s.retired ++ [⟨ptr, s.retires⟩]
        retires := s.retires + 1
        handed := s.handed ++ [⟨ptr, s.retires⟩] })
    | .idle, _, _ => some { s with retires := s.retires + 1 }
    | _, _, _ => none
  | .reclaim =>
    match s.pc with
    | .idle => some s.startReclaim
    | _ => none
  | .next => next s

end HazardPointerDomain

end Ume
