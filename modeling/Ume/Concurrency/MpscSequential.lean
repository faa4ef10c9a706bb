import Ume.Concurrency.MpscLinear
import Ume.Lib.Loop

/-! The multi-producer queue used by one thread. The sequence number of a cell says whether
the position it is asked for is free, published or still a lap behind. With one cell the
last two are the same number. -/

namespace Ume

open RingBuffer BoundedFifo

namespace LockFreeMpscQueue

variable {T : Type*} {capacity : Size}

def create (data : Fin capacity.toNat → T) : LockFreeMpscQueue T capacity where
  buffer i := { sequence := UInt64.ofNat i, data := data i }

/-- One pass of the loop in `enqueue`, from a position and the number of times that the
compare-exchange is still to fail for no reason. -/
def enqueuePass (s : LockFreeMpscQueue T capacity) (data : T) (pos : UInt64) (failures : Nat) :
    (UInt64 × Nat) ⊕ (Bool × LockFreeMpscQueue T capacity) :=
  let seq := (s.buffer (capacity.slot pos)).sequence
  if diff seq pos = 0 then
    if s.enqueueCursor = pos then
      match failures with
      | failures + 1 => .inl (s.enqueueCursor, failures)
      | 0 => .inr (true,
        { s with
          enqueueCursor := pos + 1
          buffer := Function.update s.buffer (capacity.slot pos) ⟨pos + 1, data⟩ })
    else .inl (s.enqueueCursor, failures)
  else if diff seq pos < 0 then .inr (false, s)
  else .inl (s.enqueueCursor, failures)

def enqueue (fuel : Nat) (s : LockFreeMpscQueue T capacity) (data : T) (failures : Nat) :
    Option (Bool × LockFreeMpscQueue T capacity) :=
  Loop.run (fun p => enqueuePass s data p.1 p.2) fuel (s.enqueueCursor, failures)

/-- The cell whose data is moved out is left with the value `left`. -/
def dequeue (s : LockFreeMpscQueue T capacity) (left : T) :
    Option T × LockFreeMpscQueue T capacity :=
  let pos := s.dequeueCursor
  let cell := s.buffer (capacity.slot pos)
  if diff cell.sequence (pos + 1) = 0 then
    (some cell.data,
      { s with
        dequeueCursor := pos + 1
        buffer := Function.update s.buffer (capacity.slot pos)
          ⟨pos + capacity.mask + 1, left⟩ })
  else (none, s)

inductive Call (T : Type*) where
  | enqueue (data : T) (failures : Nat)
  | dequeue (left : T)

def Call.failures : Call T → Nat
  | .enqueue _ failures => failures
  | .dequeue _ => 0

/-- A call with its answer, and the queue after it. -/
def call (fuel : Nat) (s : LockFreeMpscQueue T capacity) :
    Call T → Option (Op T × LockFreeMpscQueue T capacity)
  | .enqueue data failures =>
    (s.enqueue fuel data failures).map fun r => (if r.1 then .push data else .full, r.2)
  | .dequeue left =>
    match s.dequeue left with
    | (some x, s) => some (.pop x, s)
    | (none, s) => some (.empty, s)

def answers (fuel : Nat) (s : LockFreeMpscQueue T capacity) :
    List (Call T) → Option (List (Op T) × LockFreeMpscQueue T capacity)
  | [] => some ([], s)
  | c :: cs =>
    match s.call fuel c with
    | none => none
    | some (op, s) => (s.answers fuel cs).map fun r => (op :: r.1, r.2)

theorem answers_cons {fuel : Nat} {s s' : LockFreeMpscQueue T capacity} {c : Call T} {op : Op T}
    (h : s.call fuel c = some (op, s')) (cs : List (Call T)) :
    s.answers fuel (c :: cs) = (s'.answers fuel cs).map fun r => (op :: r.1, r.2) := by
  rw [answers, h]

section Enqueue

variable {s : LockFreeMpscQueue T capacity} {data : T} {fuel failures : Nat}

/-- A free cell is taken, after the compare-exchanges that fail for no reason. -/
theorem enqueue_of_diff_eq_zero
    (h : diff (s.buffer (capacity.slot s.enqueueCursor)).sequence s.enqueueCursor = 0)
    (hfuel : failures < fuel) :
    s.enqueue fuel data failures = some (true,
      { s with
        enqueueCursor := s.enqueueCursor + 1
        buffer := Function.update s.buffer (capacity.slot s.enqueueCursor)
          ⟨s.enqueueCursor + 1, data⟩ }) := by
  obtain ⟨fuel, rfl⟩ : ∃ more, fuel = more + 1 := ⟨fuel - 1, by omega⟩
  induction failures generalizing fuel with
  | zero => simp [enqueue, Loop.run, enqueuePass, h]
  | succ failures ih =>
    obtain ⟨fuel, rfl⟩ : ∃ more, fuel = more + 1 := ⟨fuel - 1, by omega⟩
    rw [← ih fuel (by omega), enqueue, Loop.run]
    simp only [enqueuePass, h, if_true]
    rfl

theorem enqueue_of_diff_neg
    (h : diff (s.buffer (capacity.slot s.enqueueCursor)).sequence s.enqueueCursor < 0)
    (hfuel : failures < fuel) : s.enqueue fuel data failures = some (false, s) := by
  obtain ⟨fuel, rfl⟩ : ∃ more, fuel = more + 1 := ⟨fuel - 1, by omega⟩
  rw [enqueue, Loop.run]
  simp only [enqueuePass, if_neg h.ne, if_pos h]

end Enqueue

/-- The queue holds `q` after `r` values have been taken out of it. -/
structure Holds (s : LockFreeMpscQueue T capacity) (q : List T) (r : Nat) : Prop where
  length_le : q.length ≤ capacity.toNat
  enqueueCursor : s.enqueueCursor = UInt64.ofNat (r + q.length)
  dequeueCursor : s.dequeueCursor = UInt64.ofNat r
  queued : ∀ i x, q[i]? = some x →
    s.buffer (capacity.slot (UInt64.ofNat (r + i))) = ⟨UInt64.ofNat (r + i + 1), x⟩
  free : ∀ n, r + q.length ≤ n → n < r + capacity.toNat →
    (s.buffer (capacity.slot (UInt64.ofNat n))).sequence = UInt64.ofNat n

theorem holds_create (data : Fin capacity.toNat → T) : Holds (create data) [] 0 := by
  refine ⟨Nat.zero_le _, rfl, rfl, by simp, fun n _ hn => ?_⟩
  show UInt64.ofNat (capacity.slot (UInt64.ofNat n)).val = _
  rw [capacity.val_slot_ofNat, Nat.mod_eq_of_lt (by omega)]

namespace Holds

variable {s : LockFreeMpscQueue T capacity} {q : List T} {r : Nat} {x : T}

theorem push (h : Holds s q r) (hlt : q.length < capacity.toNat) (x : T) :
    Holds { s with
      enqueueCursor := UInt64.ofNat (r + q.length) + 1
      buffer := Function.update s.buffer (capacity.slot (UInt64.ofNat (r + q.length)))
        ⟨UInt64.ofNat (r + q.length) + 1, x⟩ } (q ++ [x]) r := by
  have hother {n : Nat} (hr : r ≤ n) (hn : n < r + capacity.toNat) (hne : n ≠ r + q.length)
      (cell : Cell T) : Function.update s.buffer (capacity.slot (UInt64.ofNat (r + q.length))) cell
        (capacity.slot (UInt64.ofNat n)) = s.buffer (capacity.slot (UInt64.ofNat n)) :=
    Function.update_of_ne
      (capacity.slot_ne_of_ne hr hn (Nat.le_add_right _ _) (by omega) hne) _ _
  refine ⟨?_, ?_, h.dequeueCursor, ?_, ?_⟩
  · rwa [List.length_append, List.length_singleton]
  · rw [List.length_append, List.length_singleton, ← Nat.add_assoc, ofNat_succ]
  · intro i y hi
    dsimp only
    rcases Nat.lt_trichotomy i q.length with hlti | rfl | hgt
    · rw [List.getElem?_append_left hlti] at hi
      have hne : r + i ≠ r + q.length := by omega
      rw [hother (Nat.le_add_right _ _) (by omega) hne, h.queued i y hi]
    · rw [List.getElem?_append_right le_rfl, Nat.sub_self] at hi
      obtain rfl := Option.some.inj hi
      rw [Function.update_self, ofNat_succ]
    · rw [List.getElem?_eq_none (by simp; omega)] at hi
      cases hi
  · intro n hn hn'
    rw [List.length_append, List.length_singleton] at hn
    dsimp only
    rw [hother (by omega) hn' (by omega)]
    exact h.free n (by omega) hn'

theorem pop (h : Holds s (x :: q) r) (left : T) :
    Holds { s with
      dequeueCursor := UInt64.ofNat r + 1
      buffer := Function.update s.buffer (capacity.slot (UInt64.ofNat r))
        ⟨UInt64.ofNat r + capacity.mask + 1, left⟩ } q (r + 1) := by
  have hle := h.length_le
  rw [List.length_cons] at hle
  have hother {n : Nat} (hr : r + 1 ≤ n) (hn : n < r + capacity.toNat) (cell : Cell T) :
      Function.update s.buffer (capacity.slot (UInt64.ofNat r)) cell
        (capacity.slot (UInt64.ofNat n)) = s.buffer (capacity.slot (UInt64.ofNat n)) :=
    Function.update_of_ne (capacity.slot_ne hr hn).symm _ _
  refine ⟨Nat.le_of_succ_le hle, ?_, (ofNat_succ r).symm, ?_, ?_⟩
  · rw [h.enqueueCursor, List.length_cons, Nat.add_right_comm, Nat.add_assoc]
  · intro i y hi
    have hlt : i < q.length := (List.getElem?_eq_some_iff.mp hi).1
    have hcell := h.queued (i + 1) y (by rwa [List.getElem?_cons_succ])
    rw [← Nat.add_assoc, Nat.add_right_comm r i 1] at hcell
    have hnext : r + 1 ≤ r + 1 + i := Nat.le_add_right _ _
    dsimp only
    rw [hother hnext (by omega), hcell]
  · intro n hn hn'
    dsimp only
    rcases Nat.lt_or_ge n (r + capacity.toNat) with hlt | hge
    · rw [hother (by omega) hlt]
      exact h.free n (by rw [List.length_cons]; omega) hlt
    · obtain rfl : n = r + capacity.toNat := by omega
      rw [capacity.slot_add_toNat, Function.update_self, capacity.add_mask_add_one]

theorem diff_enqueue (h : Holds s q r) (hb : r + capacity.toNat < 2 ^ 63) :
    diff (s.buffer (capacity.slot s.enqueueCursor)).sequence s.enqueueCursor =
      if q.length < capacity.toNat then 0 else 1 - (capacity.toNat : Int) := by
  have hle := h.length_le
  have hpos := capacity.toNat_pos
  rw [h.enqueueCursor]
  split_ifs with hlt
  · rw [h.free _ le_rfl (by omega), diff_ofNat (by omega) (by omega), Int.sub_self]
  · obtain hlen : q.length = capacity.toNat := by omega
    have hzero := List.getElem?_eq_getElem (l := q) (i := 0) (by omega)
    have hseq := congrArg Cell.sequence (h.queued 0 _ hzero)
    rw [Nat.add_zero] at hseq
    rw [hlen, capacity.slot_add_toNat, hseq, diff_ofNat (by omega) (by omega)]
    push_cast
    omega

theorem diff_dequeue (h : Holds s q r) (hb : r + capacity.toNat < 2 ^ 63) :
    diff (s.buffer (capacity.slot s.dequeueCursor)).sequence (s.dequeueCursor + 1) =
      if q = [] then -1 else 0 := by
  have hpos := capacity.toNat_pos
  rw [h.dequeueCursor, ← ofNat_succ]
  cases q with
  | nil =>
    rw [h.free r le_rfl (by omega), diff_ofNat (by omega) (by omega), if_pos rfl]
    push_cast
    omega
  | cons x q =>
    have hseq := congrArg Cell.sequence (h.queued 0 x rfl)
    rw [Nat.add_zero] at hseq
    rw [hseq, diff_ofNat (by omega) (by omega), if_neg (List.cons_ne_nil _ _), Int.sub_self]

theorem call_enqueue (h : Holds s q r) (data : T) {fuel failures : Nat} (hfuel : failures < fuel)
    (hdiff : diff (s.buffer (capacity.slot s.enqueueCursor)).sequence s.enqueueCursor = 0) :
    s.call fuel (.enqueue data failures) = some (.push data,
      { s with
        enqueueCursor := UInt64.ofNat (r + q.length) + 1
        buffer := Function.update s.buffer (capacity.slot (UInt64.ofNat (r + q.length)))
          ⟨UInt64.ofNat (r + q.length) + 1, data⟩ }) := by
  rw [call, enqueue_of_diff_eq_zero hdiff hfuel, ← h.enqueueCursor]
  rfl

/-- With two cells or more, a call answers as a bounded queue with the same values does. -/
theorem call (h : Holds s q r) (hmin : 2 ≤ capacity.toNat) (hb : r + capacity.toNat < 2 ^ 63)
    {fuel : Nat} {c : Call T} (hfuel : c.failures < fuel) :
    ∃ op s' q' r', s.call fuel c = some (op, s') ∧ Step capacity.toNat q op q' ∧
      Holds s' q' r' ∧ r' ≤ r + 1 := by
  cases c with
  | enqueue data failures =>
    have hdiff := h.diff_enqueue hb
    by_cases hlt : q.length < capacity.toNat
    · rw [if_pos hlt] at hdiff
      exact ⟨_, _, _, r, h.call_enqueue data hfuel hdiff, .push data hlt, h.push hlt data,
        Nat.le_succ r⟩
    · rw [if_neg hlt] at hdiff
      have hfull : s.enqueue fuel data failures = some (false, s) :=
        enqueue_of_diff_neg (by rw [hdiff]; omega) hfuel
      refine ⟨_, s, q, r, ?_, .full (by have := h.length_le; omega), h, Nat.le_succ r⟩
      rw [LockFreeMpscQueue.call, hfull]
      rfl
  | dequeue left =>
    have hdiff := h.diff_dequeue hb
    cases q with
    | nil =>
      rw [if_pos rfl] at hdiff
      refine ⟨.empty, s, [], r, ?_, .empty, h, Nat.le_succ r⟩
      simp only [LockFreeMpscQueue.call, dequeue, hdiff]
      rfl
    | cons x q =>
      rw [if_neg (List.cons_ne_nil _ _)] at hdiff
      refine ⟨.pop x, _, q, r + 1, ?_, .pop x, h.pop left, le_rfl⟩
      have hdata := congrArg Cell.data (h.queued 0 x rfl)
      rw [Nat.add_zero, ← h.dequeueCursor] at hdata
      simp only [LockFreeMpscQueue.call, dequeue, hdiff, if_true, hdata, ← h.dequeueCursor]

theorem answers (hmin : 2 ≤ capacity.toNat) {fuel : Nat} {cs : List (Call T)} (h : Holds s q r)
    (hb : r + cs.length + capacity.toNat < 2 ^ 63) (hfuel : ∀ c ∈ cs, c.failures < fuel)
    {before : List (Op T)} (hbefore : History capacity.toNat before q) :
    ∃ ops s' q', s.answers fuel cs = some (ops, s') ∧
      History capacity.toNat (before ++ ops) q' := by
  induction cs generalizing s q r before with
  | nil => exact ⟨[], s, q, rfl, by rwa [List.append_nil]⟩
  | cons c cs ih =>
    rw [List.length_cons] at hb
    obtain ⟨hc, hcs⟩ := List.forall_mem_cons.mp hfuel
    obtain ⟨op, s', q', r', hcall, hstep, hs', hr'⟩ := h.call hmin (by omega) hc
    obtain ⟨ops, t, q'', hops, hhistory⟩ := ih hs' (by omega) hcs (hbefore.snoc hstep)
    refine ⟨op :: ops, t, q'', ?_, ?_⟩
    · rw [answers_cons hcall, hops, Option.map_some]
    · rwa [List.append_assoc, List.singleton_append] at hhistory

end Holds

/-- With one cell, a value is taken for a free cell and overwritten. -/
theorem one_cell_overwrites (hone : capacity.toNat = 1) (data : Fin capacity.toNat → T)
    (x y : T) : ∃ s, (create data).answers 1 [.enqueue x 0, .enqueue y 0] =
      some ([.push x, .push y], s) := by
  have hempty := holds_create data
  have hb : 0 + capacity.toNat < 2 ^ 63 := by rw [hone]; decide
  have hroom : ([] : List T).length < capacity.toNat := capacity.toNat_pos
  have hfull : ¬ ([] ++ [x]).length < capacity.toNat := by simp [hone]
  have hfirst := hempty.diff_enqueue hb
  have hfilled := hempty.push hroom x
  have hsecond := (hfilled.diff_enqueue hb).trans (if_neg hfull)
  have hzero : 1 - (capacity.toNat : Int) = 0 := by rw [hone]; rfl
  rw [if_pos hroom] at hfirst
  have hcall := hempty.call_enqueue x Nat.zero_lt_one hfirst
  have hcall' := hfilled.call_enqueue y Nat.zero_lt_one (hsecond.trans hzero)
  have hrun := answers_cons hcall [.enqueue y 0]
  rw [answers_cons hcall', answers, Option.map_some, Option.map_some] at hrun
  exact ⟨_, hrun⟩

/-- One thread sees a bounded queue in every sequence of fewer than `2 ^ 62` calls exactly if
there are at least two cells. -/
theorem sequential_fifo_iff [Inhabited T] (hmax : capacity.toNat ≤ 2 ^ 62) :
    (∀ (data : Fin capacity.toNat → T) (fuel : Nat) (calls : List (Call T)),
        calls.length < 2 ^ 62 → (∀ c ∈ calls, c.failures < fuel) →
        ∃ ops s q, (create data).answers fuel calls = some (ops, s) ∧
          History capacity.toNat ops q) ↔ 2 ≤ capacity.toNat := by
  constructor
  · intro h
    by_contra hlt
    have hone : capacity.toNat = 1 := by
      have := capacity.toNat_pos
      omega
    obtain ⟨s, hs⟩ := one_cell_overwrites hone (fun _ => default) default (default : T)
    obtain ⟨ops, s', q, hops, hhistory⟩ := h (fun _ => default) 1
      [.enqueue default 0, .enqueue default 0] (by simp) (by simp [Call.failures])
    obtain rfl : [.push default, .push default] = ops :=
      congrArg Prod.fst (Option.some.inj (hs.symm.trans hops))
    have hpushed := hhistory.pushed_eq
    have hle := hhistory.length_le
    obtain rfl : [default, default] = q := hpushed
    rw [hone] at hle
    exact absurd hle (by simp)
  · intro hmin data fuel calls hlen hfuel
    exact (holds_create data).answers hmin (by omega) hfuel .nil

theorem sequential_fifo_twoSlots : ∃ ops s q,
    (create fun _ : Fin twoSlots.toNat => 0).answers 3
      [.enqueue 10 2, .enqueue 20 0, .enqueue 30 1, .dequeue 0] = some (ops, s) ∧
      History twoSlots.toNat ops q :=
  (sequential_fifo_iff (by decide)).mpr (by decide) _ _ _ (by decide) (by decide)

/-- Two values are accepted by a queue for one, which then says that it is empty. -/
theorem one_slot_loses_both : ∃ capacity : Size, capacity.toNat = 1 ∧
    ((create fun _ : Fin capacity.toNat => 0).answers 1
      [.enqueue 10 0, .enqueue 20 0, .dequeue 0]).map Prod.fst =
        some [.push 10, .push 20, .empty] := by
  refine ⟨⟨1, by decide, by decide⟩, rfl, ?_⟩
  decide +kernel

end LockFreeMpscQueue

end Ume
