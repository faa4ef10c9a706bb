import Mathlib.Data.List.Basic

/-! A bounded first-in first-out queue, as the operations that may happen on it
one after another. -/

namespace BoundedFifo

/-- An operation with its answer: `full` and `empty` are the refused ones. -/
inductive Op (T : Type*) where
  | push (x : T)
  | full
  | pop (x : T)
  | empty
  deriving DecidableEq

variable {T : Type*}

/-- What may happen on a queue with these contents, and what it then holds. -/
inductive Step (capacity : Nat) : List T → Op T → List T → Prop
  | push {q : List T} (x : T) : q.length < capacity → Step capacity q (.push x) (q ++ [x])
  | full {q : List T} : q.length = capacity → Step capacity q .full q
  | pop {q : List T} (x : T) : Step capacity (x :: q) (.pop x) q
  | empty : Step capacity [] .empty []

/-- The histories of a queue that starts empty. -/
inductive History (capacity : Nat) : List (Op T) → List T → Prop
  | nil : History capacity [] []
  | snoc {ops : List (Op T)} {q q' : List T} {op : Op T} :
      History capacity ops q → Step capacity q op q' → History capacity (ops ++ [op]) q'

def Op.pushed? : Op T → Option T
  | .push x => some x
  | _ => none

def Op.popped? : Op T → Option T
  | .pop x => some x
  | _ => none

def pushed (ops : List (Op T)) : List T := ops.filterMap Op.pushed?

def popped (ops : List (Op T)) : List T := ops.filterMap Op.popped?

@[simp] theorem pushed_snoc (ops : List (Op T)) (op : Op T) :
    pushed (ops ++ [op]) = pushed ops ++ op.pushed?.toList := by
  cases op <;> simp [pushed, Op.pushed?]

@[simp] theorem popped_snoc (ops : List (Op T)) (op : Op T) :
    popped (ops ++ [op]) = popped ops ++ op.popped?.toList := by
  cases op <;> simp [popped, Op.popped?]

namespace History

variable {capacity : Nat} {ops : List (Op T)} {q : List T}

/-- First in, first out: what has been pushed is what has been popped, followed
by what the queue holds. -/
theorem pushed_eq (h : History capacity ops q) : pushed ops = popped ops ++ q := by
  induction h with
  | nil => rfl
  | snoc _ hstep ih =>
    rw [pushed_snoc, popped_snoc, ih]
    cases hstep <;> simp [Op.pushed?, Op.popped?]

theorem length_le (h : History capacity ops q) : q.length ≤ capacity := by
  induction h with
  | nil => exact Nat.zero_le _
  | snoc _ hstep ih =>
    cases hstep with
    | push x hlt =>
      rw [List.length_append, List.length_singleton]
      exact hlt
    | full _ => exact ih
    | pop x => exact Nat.le_of_succ_le ih
    | empty => exact ih

end History

end BoundedFifo
