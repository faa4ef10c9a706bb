import Ume.Concurrency.MpscLinear
import Ume.Concurrency.SpscLinear

/-! What `approx_size` answers while a queue is in use: it loads the two cursors one
after the other, and the other threads go on in between. -/

namespace Ume

open RingBuffer BoundedFifo

/-- The size that both queues compute from the cursors they have loaded. -/
def sizeBetween (head tail : UInt64) : UInt64 := if head ≥ tail then head - tail else 0

theorem toNat_sizeBetween {a b : Nat} (ha : a < 2 ^ 64) (hb : b < 2 ^ 64) :
    (sizeBetween (UInt64.ofNat a) (UInt64.ofNat b)).toNat = a - b := by
  have hle : UInt64.ofNat b ≤ UInt64.ofNat a ↔ b ≤ a := by
    rw [UInt64.le_iff_toNat_le, UInt64.toNat_ofNat', UInt64.toNat_ofNat', Nat.mod_eq_of_lt ha,
      Nat.mod_eq_of_lt hb]
  by_cases hba : b ≤ a
  · rw [sizeBetween, if_pos (hle.mpr hba)]
    exact toNat_ofNat_sub hba (by omega)
  · rw [sizeBetween, if_neg fun h => hba (hle.mp h), Nat.sub_eq_zero_of_le (by omega)]
    rfl

theorem beq_zero_iff (size : UInt64) : (size == 0) = true ↔ size.toNat = 0 := by
  rw [beq_iff_eq, ← UInt64.toNat_inj, UInt64.toNat_zero]

namespace LockFreeMpscQueue

variable {ι T : Type*} {capacity : Size}

/-- `approx_size`, with the queue as it is at its two loads. -/
def approxSize (first second : LockFreeMpscQueue T capacity) : UInt64 :=
  sizeBetween first.enqueueCursor second.dequeueCursor

def empty (first second : LockFreeMpscQueue T capacity) : Bool := approxSize first second == 0

theorem Inv.length_returned {s : System ι T capacity} {q : List T} {r : Nat} (h : Inv s q r) :
    s.returned.length + s.pending.length = r := by
  rw [← h.count, h.popped_eq, List.length_append]

theorem System.length_pending_le (s : System ι T capacity) : s.pending.length ≤ 1 := by
  unfold System.pending
  split <;> simp

theorem System.pending_ne_nil {s : System ι T capacity} (h : s.pending ≠ []) :
    ∃ outData pos, s.consumer = .advance outData pos := by
  cases hc : s.consumer with
  | advance outData pos => exact ⟨outData, pos, rfl⟩
  | _ =>
    rw [System.pending, hc] at h
    exact absurd rfl h

variable [DecidableEq ι]

theorem returned_grows {s s' : System ι T capacity} {a : Action ι T} (hs : step s a = some s') :
    s.returned.length ≤ s'.returned.length := by
  cases a with
  | enqueue p data =>
    simp only [step] at hs
    split at hs <;> cases hs
    exact Nat.le_refl _
  | produce p spurious =>
    simp only [step, produce] at hs
    repeat' split at hs
    all_goals cases hs
    all_goals exact Nat.le_refl _
  | dequeue =>
    simp only [step] at hs
    split at hs <;> cases hs
    exact Nat.le_refl _
  | consume left =>
    simp only [step, consume] at hs
    repeat' split at hs
    all_goals cases hs
    all_goals simp [System.setCell]

/-- `approx_size` answers the number of positions taken at its first load whose value
had not been returned at its second. It exceeds the capacity by one at most, and only
if the consumer is between its two stores for the oldest position all the while. -/
theorem mpsc_approx_size (hmin : 2 ≤ capacity.toNat) (hmax : capacity.toNat ≤ 2 ^ 62)
    {data : Fin capacity.toNat → T} {as bs : List (Action ι T)} {s t : System ι T capacity}
    (hrun : Runs.run step (init data) as = some s) (hrest : Runs.run step s bs = some t)
    (hcount : t.published.length < 2 ^ 62) :
    let size := (approxSize s.toLockFreeMpscQueue t.toLockFreeMpscQueue).toNat
    size = s.taken.length - t.returned.length ∧ size ≤ capacity.toNat + 1 ∧
      (size = capacity.toNat + 1 →
        s.taken.length = (popped s.history).length + capacity.toNat ∧
          (∃ outData pos, s.consumer = .advance outData pos) ∧
          t.returned.length = s.returned.length) ∧
      (empty s.toLockFreeMpscQueue t.toLockFreeMpscQueue = true ↔
        s.taken.length ≤ t.returned.length) := by
  have hgood := good_of_run hmin hmax hrun
  have hpublished := Runs.le_of_run (fun u a u' hu => (published_grows hu).length_le) hrest
  have hreturned : s.returned.length ≤ t.returned.length :=
    Runs.le_of_run (fun u a u' hu => returned_grows hu) hrest
  obtain ⟨q, r, h⟩ := hgood (by omega)
  obtain ⟨q', r', h'⟩ := Runs.invariant (good_step hmin hmax) hgood hrest hcount
  have hr := h.released_le
  have hr' := h'.released_le
  have hlen := h.length_returned
  have hlen' := h'.length_returned
  have htaken := h.length_taken_le
  have hpending := s.length_pending_le
  have hsize : (approxSize s.toLockFreeMpscQueue t.toLockFreeMpscQueue).toNat =
      s.taken.length - t.returned.length := by
    rw [approxSize, h.enqueueCursor, h'.dequeueCursor]
    exact toNat_sizeBetween (by omega) (by omega)
  intro size
  refine ⟨hsize, by omega, fun heq => ⟨?_, ?_, by omega⟩, ?_⟩
  · rw [h.count]
    omega
  · refine System.pending_ne_nil fun hnil => ?_
    rw [hnil, List.length_nil] at hlen
    omega
  · rw [empty, beq_zero_iff, hsize]
    omega

/-- A queue of two cells that has given out its first value and taken a third one
while the consumer has not yet moved its cursor. -/
def overfull : List (Action Bool Nat) :=
  [.enqueue false 10] ++ List.replicate 4 (.produce false false) ++ [.enqueue false 20] ++
    List.replicate 4 (.produce false false) ++ [.dequeue, .consume 0, .consume 0, .consume 0] ++
    [.enqueue true 30] ++ List.replicate 4 (.produce true false)

theorem mpsc_approx_size_overfull : ∃ s : System Bool Nat twoSlots,
    Runs.run step (init fun _ => 0) overfull = some s ∧ s.taken.length = 3 ∧
      (approxSize s.toLockFreeMpscQueue s.toLockFreeMpscQueue).toNat = twoSlots.toNat + 1 ∧
      ∃ outData pos, s.consumer = .advance outData pos := by
  have hlog : (Runs.run step (init (fun _ => 0) : System Bool Nat twoSlots) overfull).map
      (fun s => (s.taken.length, s.returned.length, s.published)) = some (3, 0, [0, 1, 2]) := by
    decide +kernel
  obtain ⟨s, hs, hstate⟩ := Option.map_eq_some_iff.mp hlog
  simp only [Prod.mk.injEq] at hstate
  obtain ⟨htaken, hreturned, hpublished⟩ := hstate
  have hcount : s.published.length < 2 ^ 62 := by rw [hpublished]; decide
  have hnone : Runs.run step s [] = some s := rfl
  obtain ⟨hsize, -, hfull, -⟩ := mpsc_approx_size (by decide) (by decide) hs hnone hcount
  rw [htaken, hreturned] at hsize
  exact ⟨s, hs, htaken, hsize, (hfull hsize).2.1⟩

end LockFreeMpscQueue

namespace LockFreeSpscQueue

variable {T : Type*} {capacity : Size}

/-- `approx_size`, with the queue as it is at its two loads. -/
def approxSize (first second : LockFreeSpscQueue T capacity) : UInt64 :=
  sizeBetween first.head second.tail

def empty (first second : LockFreeSpscQueue T capacity) : Bool := approxSize first second == 0

theorem history_grows {s s' : System T capacity} {a : Action T} (hs : step s a = some s') :
    s.history <+: s'.history := by
  cases a <;> simp only [step] at hs
  all_goals repeat' split at hs
  all_goals cases hs
  all_goals first | exact List.prefix_refl _ | exact List.prefix_append _ _

theorem popped_grows {s s' : System T capacity} {a : Action T} (hs : step s a = some s') :
    (popped s.history).length ≤ (popped s'.history).length :=
  ((history_grows hs).filterMap Op.popped?).length_le

theorem pushed_grows {s s' : System T capacity} {a : Action T} (hs : step s a = some s') :
    (pushed s.history).length ≤ (pushed s'.history).length :=
  ((history_grows hs).filterMap Op.pushed?).length_le

/-- Before the indices come round, `approx_size` answers the number of values pushed
at its first load that had not been popped at its second, which is never more than the
capacity, and `empty` that there is none. -/
theorem spsc_approx_size {buffer : Fin capacity.toNat → T} {as bs : List (Action T)}
    {s t : System T capacity} (hrun : Runs.run step (init buffer) as = some s)
    (hrest : Runs.run step s bs = some t) (hcount : (pushed t.history).length < 2 ^ 64) :
    let size := (approxSize s.toLockFreeSpscQueue t.toLockFreeSpscQueue).toNat
    size = (pushed s.history).length - (popped t.history).length ∧ size ≤ capacity.toNat ∧
      (empty s.toLockFreeSpscQueue t.toLockFreeSpscQueue = true ↔
        (pushed s.history).length ≤ (popped t.history).length) := by
  have hgood := good_of_run hrun
  have hpushed : (pushed s.history).length ≤ (pushed t.history).length :=
    Runs.le_of_run (fun u a u' hu => pushed_grows hu) hrest
  have hpopped : (popped s.history).length ≤ (popped t.history).length :=
    Runs.le_of_run (fun u a u' hu => popped_grows hu) hrest
  obtain ⟨q, n, ct, ch, h⟩ := hgood
  obtain ⟨q', n', ct', ch', h'⟩ := Runs.invariant good_step (good_of_run hrun) hrest
  have hq := h.fifo.length_le
  have hlen := congrArg List.length h.fifo.pushed_eq
  have hlen' := congrArg List.length h'.fifo.pushed_eq
  rw [List.length_append, h.count] at hlen
  rw [List.length_append, h'.count] at hlen'
  rw [h.count] at hpopped
  rw [h'.count] at hpopped ⊢
  have hsize : (approxSize s.toLockFreeSpscQueue t.toLockFreeSpscQueue).toNat =
      (pushed s.history).length - n' := by
    rw [approxSize, h.head, h'.tail, hlen]
    exact toNat_sizeBetween (by omega) (by omega)
  intro size
  refine ⟨hsize, by omega, ?_⟩
  rw [empty, beq_zero_iff, hsize]
  omega

theorem spsc_approx_size_one_slot : ∃ s t : System Nat oneSlot,
    Runs.run step (init fun _ => 0) [.push 5, .writeSlot, .storeHead] = some s ∧
      Runs.run step s [.pop, .refreshHead, .readSlot 0, .storeTail, .push 6, .refreshTail] =
        some t ∧
      (approxSize s.toLockFreeSpscQueue s.toLockFreeSpscQueue).toNat = 1 ∧
      empty s.toLockFreeSpscQueue t.toLockFreeSpscQueue = true := by
  have hfirst : (Runs.run step (init fun _ : Fin oneSlot.toNat => 0)
      [.push 5, .writeSlot, .storeHead]).map (·.history) = some [.push 5] := rfl
  obtain ⟨s, hs, hops⟩ := Option.map_eq_some_iff.mp hfirst
  have hsecond : (Runs.run step (init fun _ : Fin oneSlot.toNat => 0)
      ([.push 5, .writeSlot, .storeHead] ++
        [.pop, .refreshHead, .readSlot 0, .storeTail, .push 6, .refreshTail])).map (·.history) =
      some [.push 5, .pop 5] := rfl
  rw [Runs.run_append hs] at hsecond
  obtain ⟨t, ht, hops'⟩ := Option.map_eq_some_iff.mp hsecond
  have hnone : Runs.run step s [] = some s := rfl
  obtain ⟨hsize, -, -⟩ := spsc_approx_size hs hnone (by rw [hops]; decide)
  obtain ⟨-, -, hempty⟩ := spsc_approx_size hs ht (by rw [hops']; decide)
  refine ⟨s, t, hs, ht, ?_, hempty.mpr ?_⟩
  · rw [hsize, hops]
    rfl
  · rw [hops, hops']
    decide

end LockFreeSpscQueue

end Ume
