import Mathlib.Data.List.Nodup
import Mathlib.Data.List.Perm.Basic

/-! Items that are in one place at a time: a family of lists with no item twice,
and how items come in and go from one place to another. -/

namespace Custody

variable {κ α : Type*} {f f' : κ → List α}

structure Apart (f : κ → List α) : Prop where
  nodup : ∀ l, (f l).Nodup
  unique : ∀ l l' x, x ∈ f l → x ∈ f l' → l = l'

theorem Apart.insert (h : Apart f) {dst : κ} {x : α} (hfresh : ∀ l, x ∉ f l)
    (hdst : f' dst = f dst ++ [x]) (hother : ∀ l ≠ dst, f' l = f l) : Apart f' := by
  have hmem : ∀ l y, y ∈ f' l → y ∈ f l ∨ l = dst ∧ y = x := by
    intro l y hy
    by_cases hl : l = dst
    · subst hl
      rw [hdst, List.mem_append, List.mem_singleton] at hy
      exact hy.imp_right fun hyx => ⟨rfl, hyx⟩
    · rw [hother l hl] at hy
      exact .inl hy
  constructor
  · intro l
    by_cases hl : l = dst
    · subst hl
      rw [hdst, List.nodup_append_comm]
      exact List.nodup_cons.mpr ⟨hfresh l, h.nodup l⟩
    · rw [hother l hl]
      exact h.nodup l
  · intro l l' y hy hy'
    rcases hmem l y hy with hold | ⟨rfl, rfl⟩ <;> rcases hmem l' y hy' with hold' | ⟨rfl, hyx⟩
    · exact h.unique l l' y hold hold'
    · exact absurd (hyx ▸ hold) (hfresh l)
    · exact absurd hold' (hfresh l')
    · rfl

/-- Items that are dropped leave the others apart. -/
theorem Apart.sublist (h : Apart f) (hsub : ∀ l, (f' l).Sublist (f l)) : Apart f' where
  nodup l := (h.nodup l).sublist (hsub l)
  unique l l' x hx hx' := h.unique l l' x ((hsub l).subset hx) ((hsub l').subset hx')

/-- The items `xs` go from one place to another. -/
theorem Apart.transfer (h : Apart f) {src dst : κ} {xs : List α} (hne : src ≠ dst)
    (hsplit : (xs ++ f' src).Perm (f src)) (hdst : f' dst = f dst ++ xs)
    (hother : ∀ l, l ≠ src → l ≠ dst → f' l = f l) : Apart f' := by
  have hnodup : (xs ++ f' src).Nodup := hsplit.nodup_iff.mpr (h.nodup src)
  obtain ⟨hxs, hrest, hdisj⟩ := List.nodup_append'.mp hnodup
  have hmoved : ∀ y ∈ xs, y ∈ f src := fun y hy => hsplit.subset (List.mem_append_left _ hy)
  have hleft : ∀ y ∈ f' src, y ∈ f src := fun y hy => hsplit.subset (List.mem_append_right _ hy)
  have hmem : ∀ l y, y ∈ f' l → y ∈ f l ∧ y ∉ xs ∨ l = dst ∧ y ∈ xs := by
    intro l y hy
    by_cases hl : l = dst
    · subst hl
      rw [hdst, List.mem_append] at hy
      rcases hy with hy | hy
      · exact .inl ⟨hy, fun hyx => hne (h.unique _ _ y (hmoved y hyx) hy)⟩
      · exact .inr ⟨rfl, hy⟩
    · by_cases hs : l = src
      · subst hs
        exact .inl ⟨hleft y hy, fun hyx => hdisj hyx hy⟩
      · rw [hother l hs hl] at hy
        exact .inl ⟨hy, fun hyx => hs (h.unique _ _ y hy (hmoved y hyx))⟩
  constructor
  · intro l
    by_cases hl : l = dst
    · subst hl
      rw [hdst]
      refine List.nodup_append'.mpr ⟨h.nodup l, hxs, fun y hy hyx => ?_⟩
      exact hne (h.unique _ _ y (hmoved y hyx) hy)
    · by_cases hs : l = src
      · exact hs ▸ hrest
      · rw [hother l hs hl]
        exact h.nodup l
  · intro l l' y hy hy'
    rcases hmem l y hy with ⟨hold, hout⟩ | ⟨rfl, hin⟩ <;>
      rcases hmem l' y hy' with ⟨hold', hout'⟩ | ⟨rfl, hin'⟩
    · exact h.unique l l' y hold hold'
    · exact absurd hin' hout
    · exact absurd hin hout'
    · rfl

/-- A property of every item is not lost on the way. -/
theorem forall_transfer {P : α → Prop} {src dst : κ} {xs : List α} (h : ∀ l, ∀ x ∈ f l, P x)
    (hsplit : (xs ++ f' src).Perm (f src)) (hdst : f' dst = f dst ++ xs)
    (hother : ∀ l, l ≠ src → l ≠ dst → f' l = f l) : ∀ l, ∀ x ∈ f' l, P x := by
  intro l x hx
  by_cases hs : l = src
  · subst hs
    exact h l x (hsplit.subset (List.mem_append_right _ hx))
  · by_cases hl : l = dst
    · subst hl
      rw [hdst, List.mem_append] at hx
      rcases hx with hx | hx
      · exact h l x hx
      · exact h src x (hsplit.subset (List.mem_append_left _ hx))
    · rw [hother l hs hl] at hx
      exact h l x hx

/-- Nothing is lost on the way. -/
theorem exists_transfer {src dst : κ} {xs : List α} {x : α} (h : ∃ l, x ∈ f l)
    (hsplit : (xs ++ f' src).Perm (f src)) (hdst : f' dst = f dst ++ xs)
    (hother : ∀ l, l ≠ src → l ≠ dst → f' l = f l) : ∃ l, x ∈ f' l := by
  obtain ⟨l, hl⟩ := h
  by_cases hs : l = src
  · subst hs
    rcases List.mem_append.mp (hsplit.symm.subset hl) with hmoved | hleft
    · exact ⟨dst, hdst ▸ List.mem_append_right _ hmoved⟩
    · exact ⟨l, hleft⟩
  · by_cases hd : l = dst
    · subst hd
      exact ⟨l, hdst ▸ List.mem_append_left _ hl⟩
    · exact ⟨l, (hother l hs hd).symm ▸ hl⟩

/-- The items in the places are the items there are. -/
structure Held (f : κ → List α) (live : List α) : Prop where
  apart : Apart f
  nodup : live.Nodup
  mem_iff : ∀ x, x ∈ live ↔ ∃ l, x ∈ f l

theorem held_nil : Held (fun _ : κ => ([] : List α)) [] where
  apart := ⟨fun _ => List.nodup_nil, fun _ _ _ hx => absurd hx List.not_mem_nil⟩
  nodup := List.nodup_nil
  mem_iff x := by simp

theorem Held.insert {live : List α} (h : Held f live) {dst : κ} {x : α} (hfresh : x ∉ live)
    (hdst : f' dst = f dst ++ [x]) (hother : ∀ l ≠ dst, f' l = f l) : Held f' (x :: live) where
  apart := h.apart.insert (fun l hx => hfresh ((h.mem_iff x).mpr ⟨l, hx⟩)) hdst hother
  nodup := List.nodup_cons.mpr ⟨hfresh, h.nodup⟩
  mem_iff y := by
    rw [List.mem_cons, h.mem_iff y]
    constructor
    · rintro (rfl | ⟨l, hl⟩)
      · exact ⟨dst, by simp [hdst]⟩
      · by_cases hd : l = dst
        · exact ⟨dst, by simp [hdst, hd ▸ hl]⟩
        · exact ⟨l, (hother l hd).symm ▸ hl⟩
    · rintro ⟨l, hl⟩
      by_cases hd : l = dst
      · rw [hd, hdst, List.mem_append, List.mem_singleton] at hl
        exact hl.symm.imp_right fun hy => ⟨dst, hy⟩
      · exact .inr ⟨l, hother l hd ▸ hl⟩

/-- The items of one place are given up. -/
theorem Held.clear [DecidableEq α] {live : List α} (h : Held f live) {src : κ}
    (hsrc : f' src = []) (hother : ∀ l ≠ src, f' l = f l) : Held f' (live.diff (f src)) where
  apart := by
    apply h.apart.sublist
    intro l
    by_cases hl : l = src
    · simp [hl, hsrc]
    · rw [hother l hl]
  nodup := h.nodup.diff
  mem_iff y := by
    rw [h.nodup.mem_sdiff_iff, h.mem_iff y]
    constructor
    · rintro ⟨⟨l, hl⟩, hy⟩
      have hne : l ≠ src := by
        rintro rfl
        exact hy hl
      exact ⟨l, (hother l hne).symm ▸ hl⟩
    · rintro ⟨l, hl⟩
      have hne : l ≠ src := by
        rintro rfl
        simp [hsrc] at hl
      rw [hother l hne] at hl
      exact ⟨⟨l, hl⟩, fun hy => hne (h.apart.unique l src y hl hy)⟩

/-- The items of one place go to an empty one. -/
theorem Held.move {live : List α} (h : Held f live) {src dst : κ} (hne : src ≠ dst)
    (hempty : f dst = []) (hsrc : f' src = []) (hdst : f' dst = f src)
    (hother : ∀ l, l ≠ src → l ≠ dst → f' l = f l) : Held f' live := by
  have hsplit : (f src ++ f' src).Perm (f src) := by simp [hsrc]
  have hjoin : f' dst = f dst ++ f src := by simp [hempty, hdst]
  refine ⟨h.apart.transfer hne hsplit hjoin hother, h.nodup, fun x => ?_⟩
  rw [h.mem_iff x]
  constructor
  · intro hx
    exact exists_transfer hx hsplit hjoin hother
  · rintro ⟨l, hl⟩
    have hold : ∀ l, ∀ y ∈ f l, ∃ l, y ∈ f l := fun l y hy => ⟨l, hy⟩
    exact forall_transfer hold hsplit hjoin hother l x hl

end Custody
