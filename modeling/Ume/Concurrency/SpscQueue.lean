import Ume.Lib.BoundedFifo
import Ume.Lib.RingBuffer
import Ume.Lib.Runs

/-! The single-producer single-consumer queue: one thread pushes, one thread
pops and peeks, and every load, store and slot access is a step of its own. -/

namespace Ume

open RingBuffer BoundedFifo

structure LockFreeSpscQueue (T : Type*) (capacity : Size) where
  head : UInt64 := 0
  cachedTail : UInt64 := 0
  tail : UInt64 := 0
  cachedHead : UInt64 := 0
  buffer : Fin capacity.toNat → T

namespace LockFreeSpscQueue

/-- Where the producer is in `push`, and the answer of its last call. -/
inductive Producer (T : Type*) where
  | idle (answer : Option Bool)
  | refresh (item : T) (head : UInt64)
  | write (item : T) (head : UInt64)
  | store (item : T) (head : UInt64)

/-- The answers of `pop` and `front`; a null pointer is `none`. -/
inductive Answer (T : Type*) (slots : Nat) where
  | pop (outItem : Option T)
  | front (pointer : Option (Fin slots))

/-- Where the consumer is in `pop` or `front`, and the answer of its last call. -/
inductive Consumer (T : Type*) (slots : Nat) where
  | idle (answer : Option (Answer T slots))
  | refresh (tail : UInt64)
  | read (tail : UInt64)
  | store (outItem : T) (tail : UInt64)
  | peek (tail : UInt64)

/-- The queue, its two threads, and what has been answered so far. -/
structure System (T : Type*) (capacity : Size) extends LockFreeSpscQueue T capacity where
  producer : Producer T := .idle none
  consumer : Consumer T capacity.toNat := .idle none
  history : List (Op T) := []

inductive Action (T : Type*) where
  | push (item : T)
  | refreshTail
  | writeSlot
  | storeHead
  | pop
  | refreshHead
  | readSlot (left : T)
  | storeTail
  | front
  | peekHead

variable {T : Type*} {capacity : Size}

/-- One step of either thread. A slot whose item is moved out is left with a
value that nobody chose. -/
def step (s : System T capacity) : Action T → Option (System T capacity)
  | .push item =>
    match s.producer with
    | .idle _ =>
      let head := s.head
      if head - s.cachedTail ≥ capacity.val then some { s with producer := .refresh item head }
      else some { s with producer := .write item head }
    | _ => none
  | .refreshTail =>
    match s.producer with
    | .refresh item head =>
      let cachedTail := s.tail
      if head - cachedTail ≥ capacity.val then
        some { s with
          cachedTail := cachedTail
          producer := .idle (some false)
          history := s.history ++ [.full] }
      else some { s with cachedTail := cachedTail, producer := .write item head }
    | _ => none
  | .writeSlot =>
    match s.producer with
    | .write item head =>
      some { s with
        buffer := Function.update s.buffer (capacity.slot head) item
        producer := .store item head }
    | _ => none
  | .storeHead =>
    match s.producer with
    | .store item head =>
      some { s with
        head := head + 1
        producer := .idle (some true)
        history := s.history ++ [.push item] }
    | _ => none
  | .pop =>
    match s.consumer with
    | .idle _ =>
      let tail := s.tail
      if s.cachedHead = tail then some { s with consumer := .refresh tail }
      else some { s with consumer := .read tail }
    | _ => none
  | .refreshHead =>
    match s.consumer with
    | .refresh tail =>
      let cachedHead := s.head
      if cachedHead = tail then
        some { s with
          cachedHead := cachedHead
          consumer := .idle (some (.pop none))
          history := s.history ++ [.empty] }
      else some { s with cachedHead := cachedHead, consumer := .read tail }
    | _ => none
  | .readSlot left =>
    match s.consumer with
    | .read tail =>
      some { s with
        buffer := Function.update s.buffer (capacity.slot tail) left
        consumer := .store (s.buffer (capacity.slot tail)) tail }
    | _ => none
  | .storeTail =>
    match s.consumer with
    | .store outItem tail =>
      some { s with
        tail := tail + 1
        consumer := .idle (some (.pop (some outItem)))
        history := s.history ++ [.pop outItem] }
    | _ => none
  | .front =>
    match s.consumer with
    | .idle _ => some { s with consumer := .peek s.tail }
    | _ => none
  | .peekHead =>
    match s.consumer with
    | .peek tail =>
      if tail = s.head then some { s with consumer := .idle (some (.front none)) }
      else some { s with consumer := .idle (some (.front (some (capacity.slot tail)))) }
    | _ => none

def init (buffer : Fin capacity.toNat → T) : System T capacity := { buffer := buffer }

end LockFreeSpscQueue

end Ume
