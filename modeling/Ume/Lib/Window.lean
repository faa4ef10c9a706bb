import Mathlib.Data.List.DropRight

/-! A window on the end of a history: what is pushed moves the oldest entry out. -/

namespace Window

variable {α : Type*}

/-- The window after a push, with room for `n` entries. -/
def push (n : Nat) (w : List α) (x : α) : List α :=
  let w := w ++ [x]
  if w.length > n then w.tail else w

theorem rtake_of_length_le {l : List α} {n : Nat} (h : l.length ≤ n) : l.rtake n = l := by
  rw [List.rtake, Nat.sub_eq_zero_of_le h, List.drop_zero]

theorem tail_rtake {l : List α} {n : Nat} (h : n < l.length) :
    (l.rtake (n + 1)).tail = l.rtake n := by
  rw [List.rtake, List.rtake, List.tail_drop]
  congr 1
  omega

/-- A window holds the end of the history of all that has been pushed. -/
theorem push_rtake {n : Nat} (hn : 0 < n) (l : List α) (x : α) :
    push n (l.rtake n) x = (l ++ [x]).rtake n := by
  obtain ⟨n, rfl⟩ := Nat.exists_eq_add_of_lt hn
  rw [Nat.zero_add, List.rtake_concat_succ, push]
  by_cases hfull : n < l.length
  · have hlength : (l.rtake (n + 1) ++ [x]).length > n + 1 := by
      rw [List.length_append, List.rtake, List.length_drop, List.length_singleton]
      omega
    have hne : l.rtake (n + 1) ≠ [] := by
      rw [List.rtake, Ne, List.drop_eq_nil_iff]
      omega
    rw [if_pos hlength, List.tail_append_of_ne_nil hne, tail_rtake hfull]
  · have hle : l.length ≤ n := Nat.le_of_not_lt hfull
    rw [rtake_of_length_le hle, rtake_of_length_le (hle.trans n.le_succ), if_neg]
    rw [List.length_append, List.length_singleton]
    omega

theorem rtake_append (l s : List α) (n : Nat) :
    (l ++ s).rtake (n + s.length) = l.rtake n ++ s := by
  induction s using List.reverseRecOn with
  | nil => rw [List.append_nil, List.append_nil, List.length_nil, Nat.add_zero]
  | append_singleton s x ih =>
    rw [← List.append_assoc, List.length_append, List.length_singleton, ← Nat.add_assoc,
      List.rtake_concat_succ, ih, List.append_assoc]

/-- The entries at the end of a history are at the end of a window with room for them. -/
theorem exists_append_iff {n : Nat} {l s : List α} (h : s.length ≤ n) :
    (∃ before, l.rtake n = before ++ s) ↔ ∃ before, l = before ++ s := by
  constructor
  · rintro ⟨before, hw⟩
    refine ⟨l.take (l.length - n) ++ before, ?_⟩
    rw [List.append_assoc, ← hw, List.rtake, List.take_append_drop]
  · rintro ⟨before, rfl⟩
    refine ⟨before.rtake (n - s.length), ?_⟩
    rw [← rtake_append, Nat.sub_add_cancel h]

end Window
