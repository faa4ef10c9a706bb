import Ume.Lib.BoundedFifo
import Ume.Lib.RingBuffer
import Ume.Lib.Runs

/-! The multi-producer single-consumer queue: any number of producers, one
consumer, and every load, store, compare-exchange and data access is a step of
its own. -/

namespace Ume

open RingBuffer BoundedFifo

structure Cell (T : Type*) where
  sequence : UInt64
  data : T

structure LockFreeMpscQueue (T : Type*) (capacity : Size) where
  buffer : Fin capacity.toNat → Cell T
  enqueueCursor : UInt64 := 0
  dequeueCursor : UInt64 := 0

namespace LockFreeMpscQueue

/-- Where a producer is in `enqueue`, and the answer of its last call. -/
inductive Producer (T : Type*) where
  | idle (answer : Option Bool)
  | check (data : T) (pos : UInt64)
  | exchange (data : T) (pos : UInt64)
  | reload (data : T)
  | write (data : T) (pos : UInt64)
  | publish (data : T) (pos : UInt64)

/-- Where the consumer is in `dequeue`, and the answer of its last call. -/
inductive Consumer (T : Type*) where
  | idle (answer : Option (Option T))
  | check (pos : UInt64)
  | take (pos : UInt64)
  | release (outData : T) (pos : UInt64)
  | advance (outData : T) (pos : UInt64)

/-- The queue and its threads, and what has happened so far: the successful
compare-exchanges, the positions published, the values returned, and the
operations in the order in which they take effect. -/
structure System (ι T : Type*) (capacity : Size) extends LockFreeMpscQueue T capacity where
  producers : ι → Producer T := fun _ => .idle none
  consumer : Consumer T := .idle none
  taken : List (UInt64 × T) := []
  published : List UInt64 := []
  returned : List T := []
  history : List (Op T) := []

/-- A call, or the next step of the thread in it. A compare-exchange may fail
for no reason, and a cell whose data is moved out is left with a value that
nobody chose. -/
inductive Action (ι T : Type*) where
  | enqueue (p : ι) (data : T)
  | produce (p : ι) (spurious : Bool)
  | dequeue
  | consume (left : T)

/-- The difference of two counters as signed 64-bit numbers. -/
def diff (seq pos : UInt64) : Int := seq.toInt64.toInt - pos.toInt64.toInt

variable {ι T : Type*} [DecidableEq ι] {capacity : Size}

def System.setProducer (s : System ι T capacity) (p : ι) (pc : Producer T) :
    System ι T capacity :=
  { s with producers := Function.update s.producers p pc }

def System.setCell (s : System ι T capacity) (pos : UInt64) (cell : Cell T) :
    System ι T capacity :=
  { s with buffer := Function.update s.buffer (capacity.slot pos) cell }

def System.cell (s : System ι T capacity) (pos : UInt64) : Cell T := s.buffer (capacity.slot pos)

def produce (s : System ι T capacity) (p : ι) (spurious : Bool) :
    Option (System ι T capacity) :=
  match s.producers p with
  | .idle _ => none
  | .check data pos =>
    let seq := (s.cell pos).sequence
    if diff seq pos = 0 then some (s.setProducer p (.exchange data pos))
    else if diff seq pos < 0 then
      some { s.setProducer p (.idle (some false)) with history := s.history ++ [.full] }
    else some (s.setProducer p (.reload data))
  | .exchange data pos =>
    if s.enqueueCursor = pos ∧ spurious = false then
      some { s.setProducer p (.write data pos) with
        enqueueCursor := pos + 1
        taken := s.taken ++ [(pos, data)]
        history := s.history ++ [.push data] }
    else some (s.setProducer p (.check data s.enqueueCursor))
  | .reload data => some (s.setProducer p (.check data s.enqueueCursor))
  | .write data pos =>
    some ((s.setCell pos { s.cell pos with data := data }).setProducer p (.publish data pos))
  | .publish _ pos =>
    some { (s.setCell pos { s.cell pos with sequence := pos + 1 }).setProducer p
        (.idle (some true)) with published := s.published ++ [pos] }

def consume (s : System ι T capacity) (left : T) : Option (System ι T capacity) :=
  match s.consumer with
  | .idle _ => none
  | .check pos =>
    let seq := (s.cell pos).sequence
    if diff seq (pos + 1) = 0 then some { s with consumer := .take pos }
    else some { s with consumer := .idle (some none) }
  | .take pos =>
    some { s.setCell pos { s.cell pos with data := left } with
      consumer := .release (s.cell pos).data pos }
  | .release outData pos =>
    some { s.setCell pos { s.cell pos with sequence := pos + capacity.mask + 1 } with
      consumer := .advance outData pos
      history := s.history ++ [.pop outData] }
  | .advance outData pos =>
    some { s with
      dequeueCursor := pos + 1
      consumer := .idle (some (some outData))
      returned := s.returned ++ [outData] }

def step (s : System ι T capacity) : Action ι T → Option (System ι T capacity)
  | .enqueue p data =>
    match s.producers p with
    | .idle _ => some (s.setProducer p (.check data s.enqueueCursor))
    | _ => none
  | .produce p spurious => produce s p spurious
  | .dequeue =>
    match s.consumer with
    | .idle _ => some { s with consumer := .check s.dequeueCursor }
    | _ => none
  | .consume left => consume s left

/-- A new queue: every cell carries its own index. -/
def init (data : Fin capacity.toNat → T) : System ι T capacity where
  buffer i := { sequence := UInt64.ofNat i, data := data i }

end LockFreeMpscQueue

end Ume
