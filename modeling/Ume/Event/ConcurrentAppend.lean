import Ume.Event.WriterSession
import Ume.Lib.Runs

/-! `append` called by any number of threads on one writer. The reservation, the
capacity check, the steps under the rollover mutex, the sequence number and the
copy are steps of their own. -/

namespace Ume

open JournalWriter

/-- An append that has returned: its record, the segment and offset it was copied
to, and the segment that was active when the offset was reserved. -/
structure Written where
  seq : UInt64
  event : Event
  segment : Nat
  offset : Nat
  reservedIn : Nat

def Written.place (w : Written) : Nat × Nat := (w.segment, w.offset)

namespace ConcurrentAppend

/-- Where a thread is in `append`; each place names the step that comes next. An
offset goes with the segment that was active when it was reserved. -/
inductive Pc where
  | idle
  | check (event : Event) (segment offset : Nat)
  | lock (event : Event)
  | roll (event : Event)
  | again (event : Event)
  | unlock (event : Event) (segment offset : Nat)
  | sequence (event : Event) (segment offset : Nat)
  | copy (event : Event) (segment offset : Nat) (seq : UInt64)

structure System (ι : Type*) where
  writer : JournalWriter
  dir : Directory
  rolloverMutex : Option ι := none
  pc : ι → Pc := fun _ => .idle
  log : List Written := []

inductive Action (ι : Type*) where
  | append (p : ι) (event : Event)
  | next (p : ι)

variable {ι : Type*} [DecidableEq ι]

def System.setPc (s : System ι) (p : ι) (pc : Pc) : System ι :=
  { s with pc := Function.update s.pc p pc }

/-- The next step of a thread. There is none when the copy leaves the mapping, which is
undefined. -/
def next (env : SessionEnv) (s : System ι) (p : ι) : Option (System ι) :=
  match s.pc p with
  | .idle => none
  | .check event segment offset =>
    if s.writer.exceeds offset then some (s.setPc p (.lock event))
    else some (s.setPc p (.sequence event segment offset))
  | .lock event =>
    if s.rolloverMutex.isSome then none
    else if s.writer.exceeds s.writer.writeOffset then
      some { s.setPc p (.roll event) with rolloverMutex := some p }
    else some { s.setPc p (.again event) with rolloverMutex := some p }
  | .roll event =>
    let w := { s.writer with currentSegmentId := s.writer.currentSegmentId + 1 }
    match rollSegmentLocked env w s.dir with
    | some (.kOk, w, dir) => some { s.setPc p (.again event) with writer := w, dir := dir }
    | some (_, w, dir) =>
      some { s.setPc p .idle with writer := w, dir := dir, rolloverMutex := none }
    | none => none
  | .again event =>
    some { s.setPc p (.unlock event s.writer.currentSegmentId s.writer.writeOffset) with
      writer := s.writer.reserve }
  | .unlock event segment offset =>
    some { s.setPc p (.sequence event segment offset) with rolloverMutex := none }
  | .sequence event segment offset =>
    let seq := s.writer.sequenceCounter + 1
    some { s.setPc p (.copy event segment offset seq) with
      writer := { s.writer with sequenceCounter := seq } }
  | .copy event segment offset seq =>
    (copyRecord s.writer s.dir seq event offset).map fun dir =>
      { s.setPc p .idle with
        dir := dir
        writer :=
          { s.writer with
            totalEventsWritten := s.writer.totalEventsWritten + 1
            totalBytesWritten := s.writer.totalBytesWritten + UInt64.ofNat totalRecordSize }
        log := s.log ++ [⟨seq, event, s.writer.currentSegmentId, offset, segment⟩] }

def step (env : SessionEnv) (s : System ι) : Action ι → Option (System ι)
  | .append p event =>
    match s.pc p with
    | .idle =>
      if s.writer.isOpen then
        some { s.setPc p (.check event s.writer.currentSegmentId s.writer.writeOffset) with
          writer := s.writer.reserve }
      else some s
    | _ => none
  | .next p => next env s p

/-- The offset a thread has reserved inside the segment and not copied to yet. -/
def Pc.reservation (size : Nat) : Pc → Option (Nat × Nat)
  | .check _ segment offset =>
    if offset + totalRecordSize ≤ size then some (segment, offset) else none
  | .unlock _ segment offset | .sequence _ segment offset | .copy _ segment offset _ =>
    some (segment, offset)
  | _ => none

/-- When a step does no harm: the offset does not wrap, a segment is rolled only
when every offset reserved in it has been copied to, and the second reservation
is made only when it fits. -/
def Harmless (s : System ι) : Action ι → Prop
  | .append _ _ => s.writer.writeOffset + totalRecordSize < 2 ^ 64
  | .next p =>
    match s.pc p with
    | .roll _ => ∀ q, (s.pc q).reservation s.writer.segmentSizeBytes = none
    | .again _ => s.writer.writeOffset + totalRecordSize ≤ s.writer.segmentSizeBytes
    | _ => True

end ConcurrentAppend

end Ume
