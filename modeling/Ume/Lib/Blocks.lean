import Mathlib.Algebra.Order.BigOperators.Group.List
import Mathlib.Tactic.Ring

/-! A list cut into blocks of one length, the last of which may be shorter. -/

namespace Blocks

variable {α β : Type*} {cap : Nat} {l : List α}

def block (cap : Nat) (l : List α) (j : Nat) : List α := (l.drop (j * cap)).take cap

/-- How many blocks there are; an empty list has one empty block. -/
def count (cap : Nat) (l : List α) : Nat := (l.length - 1) / cap + 1

theorem block_zero : block cap l 0 = l.take cap := by
  rw [block, Nat.zero_mul, List.drop_zero]

@[simp] theorem block_nil (j : Nat) : block cap ([] : List α) j = [] := by
  rw [block, List.drop_nil, List.take_nil]

theorem map_block (f : α → β) (j : Nat) : (block cap l j).map f = block cap (l.map f) j := by
  rw [block, block, List.map_take, List.map_drop]

theorem block_eq_nil {j : Nat} (h : l.length ≤ j * cap) : block cap l j = [] := by
  rw [block, List.drop_of_length_le h, List.take_nil]

theorem mem_of_mem_block {a : α} {j : Nat} (h : a ∈ block cap l j) : a ∈ l :=
  List.mem_of_mem_drop (List.mem_of_mem_take h)

theorem count_map (cap : Nat) (f : α → β) (l : List α) : count cap (l.map f) = count cap l := by
  rw [count, count, List.length_map]

theorem count_nil : count cap ([] : List α) = 1 := by
  rw [count, List.length_nil, Nat.zero_sub, Nat.zero_div]

theorem count_pos (cap : Nat) (l : List α) : 0 < count cap l := Nat.succ_pos _

theorem length_le_count_mul (hc : 0 < cap) : l.length ≤ count cap l * cap := by
  have h := Nat.lt_mul_of_div_lt (Nat.lt_add_one ((l.length - 1) / cap)) hc
  rw [count]
  omega

theorem count_le {k : Nat} (hc : 0 < cap) (hk : 0 < k) (h : l.length ≤ k * cap) :
    count cap l ≤ k :=
  (Nat.div_lt_iff_lt_mul hc).mpr (by have := Nat.mul_pos hk hc; omega)

theorem block_of_count_le (hc : 0 < cap) {j : Nat} (h : count cap l ≤ j) : block cap l j = [] :=
  block_eq_nil ((length_le_count_mul hc).trans (Nat.mul_le_mul_right cap h))

theorem flatMap_range_block (m : Nat) :
    (List.range m).flatMap (block cap l) = l.take (m * cap) := by
  induction m with
  | zero => simp
  | succ m ih =>
    rw [List.range_succ, List.flatMap_append, ih, List.flatMap_singleton, Nat.succ_mul,
      List.take_add]
    rfl

theorem flatMap_range_block_of_count_le (hc : 0 < cap) {m : Nat} (h : count cap l ≤ m) :
    (List.range m).flatMap (block cap l) = l := by
  rw [flatMap_range_block, List.take_of_length_le]
  exact (length_le_count_mul hc).trans (Nat.mul_le_mul_right cap h)

theorem sum_length_block (hc : 0 < cap) {m : Nat} (h : count cap l ≤ m) :
    ((List.range m).map fun j => (block cap l j).length).sum = l.length := by
  rw [← List.length_flatMap, flatMap_range_block_of_count_le hc h]

theorem count_concat (x : α) : count cap (l ++ [x]) = l.length / cap + 1 := by
  rw [count, List.length_append, List.length_singleton, Nat.add_sub_cancel]

theorem block_concat (hc : 0 < cap) (x : α) :
    block cap (l ++ [x]) (l.length / cap) = block cap l (l.length / cap) ++ [x] := by
  have hle : l.length / cap * cap ≤ l.length := Nat.div_mul_le_self _ _
  have hlt : (l.drop (l.length / cap * cap)).length < cap := by
    rw [List.length_drop, Nat.mul_comm, ← Nat.mod_eq_sub_mul_div]
    exact Nat.mod_lt _ hc
  rw [block, block, List.drop_append_of_le_length hle, List.take_of_length_le hlt.le,
    List.take_of_length_le]
  rwa [List.length_append, List.length_singleton]

theorem block_concat_of_lt (x : α) {j : Nat} (hj : j < l.length / cap) :
    block cap (l ++ [x]) j = block cap l j := by
  have hle : j * cap + cap ≤ l.length := by
    have hmul := Nat.mul_le_mul_right cap hj
    rw [Nat.succ_mul] at hmul
    exact hmul.trans (Nat.div_mul_le_self _ _)
  rw [block, block, List.drop_append_of_le_length (by omega), List.take_append_of_le_length]
  rw [List.length_drop]
  omega

/-- Pieces that are all full but the last are the blocks of their concatenation. -/
theorem getD_eq_block {full : List (List α)} {last : List α}
    (hf : ∀ piece ∈ full, piece.length = cap) (hl : last.length ≤ cap) (j : Nat) :
    (full ++ [last]).getD j [] = block cap (full ++ [last]).flatten j := by
  induction full generalizing j with
  | nil =>
    cases j with
    | zero => simp [block_zero, List.take_of_length_le hl]
    | succ j =>
      rw [block_eq_nil]
      · rfl
      · simp only [List.nil_append, List.flatten_cons, List.flatten_nil, List.append_nil]
        exact hl.trans (Nat.le_mul_of_pos_left cap (Nat.succ_pos j))
  | cons piece full ih =>
    have hp : piece.length = cap := hf piece List.mem_cons_self
    have hh := ih fun q hq => hf q (List.mem_cons_of_mem _ hq)
    cases j with
    | zero => simp [block_zero, ← hp]
    | succ j =>
      rw [List.cons_append, List.getD_cons_succ, hh, List.flatten_cons, block, block, Nat.succ_mul,
        Nat.add_comm, ← List.drop_drop, List.drop_left' hp]

end Blocks
