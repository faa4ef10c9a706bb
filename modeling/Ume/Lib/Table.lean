import Mathlib.Algebra.BigOperators.Group.List.Basic
import Mathlib.Algebra.GroupWithZero.Nat
import Mathlib.Data.List.AList

/-! Tables by key: reading a table after an insertion, and sums over its entries. -/

namespace Table

variable {κ ν : Type*} [DecidableEq κ] {m : AList fun _ : κ => ν} {k : κ} {v : ν}

theorem getD_lookup_insert (m : AList fun _ : κ => ν) (k k' : κ) (v d : ν) :
    ((m.insert k v).lookup k').getD d = if k = k' then v else (m.lookup k').getD d := by
  by_cases h : k = k'
  · subst h
    rw [if_pos rfl, AList.lookup_insert, Option.getD_some]
  · rw [if_neg h, AList.lookup_insert_ne (Ne.symm h)]

def sum (f : ν → Nat) (m : AList fun _ : κ => ν) : Nat := (m.entries.map fun e => f e.2).sum

theorem sum_insert (f : ν → Nat) (m : AList fun _ : κ => ν) (k : κ) (v : ν) :
    sum f (m.insert k v) = f v + sum f (m.erase k) := by
  rw [sum, AList.entries_insert, List.map_cons, List.sum_cons]
  rfl

theorem mem_keys_of_lookup (h : m.lookup k = some v) : k ∈ m.keys :=
  AList.mem_keys.mp (AList.lookup_isSome.mp (by rw [h]; rfl))

theorem exists_entries (h : m.lookup k = some v) : ∃ l₁ l₂, k ∉ l₁.keys ∧
    m.entries = l₁ ++ ⟨k, v⟩ :: l₂ ∧ (m.erase k).entries = l₁ ++ l₂ := by
  obtain ⟨b, l₁, l₂, hk, hl, he⟩ := List.exists_of_kerase (mem_keys_of_lookup h)
  have hb : m.lookup k = some b :=
    AList.mem_lookup_iff.mpr (hl ▸ List.mem_append_right _ List.mem_cons_self)
  obtain rfl : v = b := Option.some.inj (h.symm.trans hb)
  exact ⟨l₁, l₂, hk, hl, he⟩

theorem sum_of_lookup (f : ν → Nat) (h : m.lookup k = some v) :
    sum f m = f v + sum f (m.erase k) := by
  obtain ⟨l₁, l₂, -, hm, he⟩ := exists_entries h
  simp only [sum, hm, he, List.map_append, List.map_cons, List.sum_append, List.sum_cons]
  omega

theorem erase_of_lookup (h : m.lookup k = none) : m.erase k = m :=
  AList.ext (List.kerase_of_notMem_keys (AList.lookup_eq_none.mp h))

theorem kreplace_append {l₁ : List (Sigma fun _ : κ => ν)} (hk : k ∉ l₁.keys) (v v' : ν)
    (l₂ : List (Sigma fun _ : κ => ν)) :
    List.kreplace k v' (l₁ ++ ⟨k, v⟩ :: l₂) = l₁ ++ ⟨k, v'⟩ :: l₂ := by
  induction l₁ with
  | nil => exact List.lookmap_cons_some _ _ (if_pos rfl)
  | cons e l₁ ih =>
    rw [List.keys_cons, List.mem_cons, not_or] at hk
    have hcons : List.kreplace k v' (e :: (l₁ ++ ⟨k, v⟩ :: l₂)) =
        e :: List.kreplace k v' (l₁ ++ ⟨k, v⟩ :: l₂) := List.lookmap_cons_none _ _ (if_neg hk.1)
    rw [List.cons_append, hcons, ih hk.2, List.cons_append]

theorem dlookup_kreplace (l : List (Sigma fun _ : κ => ν)) (k k' : κ) (v : ν) :
    (l.kreplace k v).dlookup k' =
      if k = k' then (l.dlookup k').map fun _ => v else l.dlookup k' := by
  induction l with
  | nil => simp [List.kreplace]
  | cons e l ih =>
    obtain ⟨a, b⟩ := e
    by_cases hk : k = a
    · have hcons : List.kreplace k v (⟨a, b⟩ :: l) = ⟨k, v⟩ :: l :=
        List.lookmap_cons_some _ _ (if_pos hk)
      rw [hcons]
      by_cases hk' : k = k'
      · subst hk hk'
        simp
      · simp [hk', ← hk, Ne.symm hk']
    · have hcons : List.kreplace k v (⟨a, b⟩ :: l) = ⟨a, b⟩ :: l.kreplace k v :=
        List.lookmap_cons_none _ _ (if_neg hk)
      rw [hcons]
      by_cases ha : a = k'
      · subst ha
        simp [hk]
      · rw [List.dlookup_cons_ne _ _ (Ne.symm ha), ih, List.dlookup_cons_ne _ _ (Ne.symm ha)]

theorem lookup_replace (m : AList fun _ : κ => ν) (k k' : κ) (v : ν) :
    (m.replace k v).lookup k' =
      if k = k' then (m.lookup k').map fun _ => v else m.lookup k' :=
  dlookup_kreplace m.entries k k' v

/-- Tables with the same values hold the same entries, in some order. -/
theorem perm_of_lookup {m m' : AList fun _ : κ => ν} (h : ∀ k, m.lookup k = m'.lookup k) :
    m.entries.Perm m'.entries := by
  apply List.lookup_ext m.nodupKeys m'.nodupKeys
  intro k v
  exact iff_of_eq (congrArg (v ∈ ·) (h k))

theorem sum_replace (f : ν → Nat) (h : m.lookup k = some v) (v' : ν) :
    sum f (m.replace k v') = f v' + sum f (m.erase k) := by
  obtain ⟨l₁, l₂, hk, hm, he⟩ := exists_entries h
  have hr : (m.replace k v').entries = l₁ ++ ⟨k, v'⟩ :: l₂ := by
    rw [← kreplace_append hk v v' l₂, ← hm]
    rfl
  simp only [sum, hr, he, List.map_append, List.map_cons, List.sum_append, List.sum_cons]
  omega

theorem length_insert (h : m.lookup k = none) (v : ν) :
    (m.insert k v).entries.length = m.entries.length + 1 := by
  rw [AList.entries_insert_of_notMem (AList.lookup_eq_none.mp h), List.length_cons]

theorem length_erase (h : m.lookup k = some v) :
    m.entries.length = (m.erase k).entries.length + 1 := by
  obtain ⟨l₁, l₂, -, hm, he⟩ := exists_entries h
  rw [hm, he, List.length_append, List.length_append, List.length_cons]
  rfl

omit [DecidableEq κ] in
theorem length_keys (m : AList fun _ : κ => ν) : m.keys.length = m.entries.length :=
  List.length_map ..

theorem length_replace (m : AList fun _ : κ => ν) (k : κ) (v : ν) :
    (m.replace k v).entries.length = m.entries.length := by
  rw [← length_keys, AList.keys_replace, length_keys]

end Table
