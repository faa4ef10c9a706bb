import Ume.Concurrency.InternerResolve
import Ume.Lib.Runs

/-! The views into the arena, which are the keys of the map and the results of `resolve`.
They are views of the arena's buffer until a string that does not fit it is added. -/

namespace Ume

open ByteString

/-- A place in text that ends in a zero byte is that of a C string. -/
theorem CharVector.exists_cString {v : CharVector} {text : List UInt8}
    (hbytes : v.bytes = text ++ [0]) {offset : Nat} (hoffset : offset < v.bytes.length) :
    ∃ length, v.cString offset = some ⟨v.buffer, offset, length⟩ := by
  have hle : offset ≤ text.length := by
    rw [hbytes, List.length_append, List.length_singleton] at hoffset
    exact Nat.lt_succ_iff.mp hoffset
  exact ⟨_, cString_of_terminated hbytes hle⟩

/-- A library whose lookups read only the keys that have the shape of the argument. -/
def Library.bucketed (hash : List UInt8 → UInt64) : Library where
  hash
  grow := max
  find shape shapes := (List.range shapes.length).filter fun i => shapes[i]? = some shape
  subscript shape shapes := (List.range shapes.length).filter fun i => shapes[i]? = some shape
  le_grow := le_max_right
  mem_find _ _ _ h := List.mem_filter.mpr
    ⟨List.mem_range.mpr (List.getElem?_eq_some_iff.mp h).1, decide_eq_true h⟩
  mem_subscript _ _ _ h := List.mem_filter.mpr
    ⟨List.mem_range.mpr (List.getElem?_eq_some_iff.mp h).1, decide_eq_true h⟩

section Entries

variable {lib : Library} {arena : CharVector} {str : List UInt8} {map map' : List InternEntry}
  {nodes : List Nat} {key : ArenaView} {handle : InternedString}

theorem isSome_firstEqual (h : ∀ entry ∈ map, (arena.view entry.key).isSome) :
    (firstEqual arena str map nodes).isSome := by
  induction nodes with
  | nil => rfl
  | cons i nodes ih =>
    rw [firstEqual]
    cases hi : map[i]? with
    | none => exact ih
    | some entry =>
      obtain ⟨bytes, hview⟩ := Option.isSome_iff_exists.mp (h entry (List.mem_of_getElem? hi))
      simp only [hview]
      split_ifs
      · rfl
      · exact ih

theorem getElem?_of_firstEqual {i : Nat} (h : firstEqual arena str map nodes = some (some i)) :
    ∃ entry, map[i]? = some entry := by
  induction nodes with
  | nil => simp [firstEqual] at h
  | cons j nodes ih =>
    rw [firstEqual] at h
    cases hj : map[j]? with
    | none => exact ih (by simpa only [hj] using h)
    | some entry =>
      cases hview : arena.view entry.key with
      | none => simp [hj, hview] at h
      | some bytes =>
        simp only [hj, hview] at h
        split_ifs at h
        · obtain rfl := Option.some.inj (Option.some.inj h)
          exact ⟨entry, hj⟩
        · exact ih h

theorem isSome_findEntry (h : ∀ entry ∈ map, (arena.view entry.key).isSome) :
    (findEntry lib arena str map).isSome := by
  rw [findEntry, Option.isSome_map]
  exact isSome_firstEqual h

theorem isSome_assignEntry (h : ∀ entry ∈ map, (arena.view entry.key).isSome) :
    (assignEntry lib arena str key handle map).isSome := by
  rw [assignEntry, Option.isSome_map]
  exact isSome_firstEqual h

theorem map_key_modify (map : List InternEntry) (i : Nat) (handle : UInt32) :
    (map.modify i fun entry => { entry with handle }).map InternEntry.key =
      map.map InternEntry.key := by
  refine List.ext_getElem? fun j => ?_
  rw [List.getElem?_map, List.getElem?_modify, List.getElem?_map, Option.map_eq_map,
    Option.map_map]
  refine congrArg (Option.map · _) (funext fun entry => ?_)
  dsimp only [Function.comp]
  split_ifs <;> rfl

/-- An assignment leaves the keys that are there, and may add its own. -/
theorem keys_assignEntry (h : assignEntry lib arena str key handle map = some map') :
    map' ≠ [] ∧ (map'.map InternEntry.key = map.map InternEntry.key ∨
      map'.map InternEntry.key = map.map InternEntry.key ++ [key]) := by
  obtain ⟨found, hfound, rfl⟩ := Option.map_eq_some_iff.mp h
  cases found with
  | none => exact ⟨List.append_ne_nil_of_right_ne_nil _ (by simp), .inr (List.map_append ..)⟩
  | some i =>
    obtain ⟨entry, hentry⟩ := getElem?_of_firstEqual hfound
    have hkeys := map_key_modify map i handle
    refine ⟨fun hnil => ?_, .inl hkeys⟩
    dsimp only at hnil
    rw [hnil, List.map_nil, eq_comm, List.map_eq_nil_iff] at hkeys
    rw [hkeys] at hentry
    cases hentry

end Entries

namespace StringInterner

variable {lib : Library} {s t : StringInterner} {str : List UInt8} {handle : InternedString}

theorem isSome_intern_of_not_isNew (hnew : ¬ IsNew lib s str)
    (hfind : (findEntry lib s.arena str s.map).isSome) : (s.intern lib str).isSome := by
  rw [intern]
  split_ifs with hempty
  · rfl
  obtain ⟨found, hfound⟩ := Option.isSome_iff_exists.mp hfind
  cases found with
  | none => exact absurd ⟨hempty, hfound⟩ hnew
  | some handle =>
    simp only [hfound]
    rfl

theorem intern_cases (h : s.intern lib str = some (handle, t)) :
    ¬ IsNew lib s str ∧ t = s ∨
      IsNew lib s str ∧ t.map ≠ [] ∧ t.arena = s.arena.addString lib str ∧
        t.offsets = s.offsets ++ [UInt32.ofNat s.arena.bytes.length] ∧
        (t.map.map InternEntry.key = s.map.map InternEntry.key ∨
          t.map.map InternEntry.key = s.map.map InternEntry.key ++ [s.newKey lib str]) := by
  rcases intern_eq_some h with ⟨hempty, -, rfl⟩ | ⟨-, hfind, rfl⟩ | ⟨hnew, -, map, hmap, rfl⟩
  · exact .inl ⟨fun hnew => hnew.1 hempty, rfl⟩
  · exact .inl ⟨fun hnew => by simp [hnew.2] at hfind, rfl⟩
  · obtain ⟨hne, hkeys⟩ := keys_assignEntry hmap
    exact .inr ⟨hnew, hne, rfl, rfl, hkeys⟩

end StringInterner

/-- An interner and the views that `resolve` has returned. -/
structure ViewSession where
  interner : StringInterner
  returned : List ArenaView := []

inductive ViewCall where
  | intern (str : List UInt8)
  | resolve (handle : InternedString)

namespace ViewSession

def step (lib : Library) (s : ViewSession) : ViewCall → Option ViewSession
  | .intern str => (s.interner.intern lib str).map fun r => { s with interner := r.2 }
  | .resolve handle =>
    (s.interner.resolve handle).map fun view => { s with returned := s.returned ++ view.toList }

/-- The keys of the map and the results of `resolve`. -/
def views (s : ViewSession) : List ArenaView :=
  s.interner.map.map InternEntry.key ++ s.returned

/-- Every view refers to the buffer that the arena has. -/
def Current (s : ViewSession) : Prop := ∀ view ∈ s.views, view.buffer = s.interner.arena.buffer

instance (s : ViewSession) : Decidable s.Current := inferInstanceAs (Decidable (∀ _ ∈ _, _))

/-- The call does not grow the arena while there are views into it. -/
def Fits (lib : Library) (s : ViewSession) : ViewCall → Prop
  | .intern str => s.interner.IsNew lib str → s.interner.map = [] ∨
      s.interner.arena.bytes.length + str.length + 1 ≤ s.interner.arena.capacity
  | .resolve _ => True

instance (lib : Library) : ∀ s call, Decidable (Fits lib s call)
  | s, .intern str => inferInstanceAs (Decidable (s.interner.IsNew lib str → _))
  | _, .resolve _ => .isTrue trivial

/-- What holds of the places in the arena, current or not. -/
structure Placed (s : ViewSession) : Prop where
  keys : ∀ key ∈ s.interner.map.map InternEntry.key,
    key.offset + key.length ≤ s.interner.arena.bytes.length
  offsets : ∀ offset ∈ s.interner.offsets.tail, offset.toNat < s.interner.arena.bytes.length
  terminated : s.interner.arena.bytes = [] ∨ ∃ text, s.interner.arena.bytes = text ++ [0]
  before : ∀ view ∈ s.views, view.buffer ≤ s.interner.arena.buffer
  used : s.interner.map = [] → s.interner.offsets.tail = [] ∧ s.returned = []

theorem placed_create (capacity : Nat) : Placed ⟨.create capacity, []⟩ := by
  refine ⟨by simp [StringInterner.create], by simp [StringInterner.create], .inl ?_,
    by simp [views, StringInterner.create], fun _ => ⟨rfl, rfl⟩⟩
  rw [StringInterner.create, CharVector.reserve]
  split_ifs <;> rfl

variable {lib : Library} {s s' : ViewSession} {call : ViewCall}

theorem Placed.resolve_cases (h : s.Placed) (handle : InternedString) :
    s.interner.resolve handle = some none ∨
      s.interner.map ≠ [] ∧ ∃ offset length,
        s.interner.resolve handle = some (some ⟨s.interner.arena.buffer, offset, length⟩) := by
  rw [StringInterner.resolve]
  by_cases hzero : handle = 0
  · exact .inl (if_pos hzero)
  rw [if_neg hzero]
  cases hget : s.interner.offsets[handle.toNat]? with
  | none => exact .inl rfl
  | some offset =>
    have hmem : offset ∈ s.interner.offsets.tail := by
      obtain ⟨k, hk⟩ := Nat.exists_eq_succ_of_ne_zero fun h0 => hzero (UInt32.toNat_inj.mp h0)
      rw [hk] at hget
      exact List.mem_of_getElem? (List.getElem?_tail.trans hget)
    have hmap : s.interner.map ≠ [] := by
      intro hnil
      rw [(h.used hnil).1] at hmem
      exact List.not_mem_nil hmem
    have hlt := h.offsets offset hmem
    obtain hnil | ⟨text, htext⟩ := h.terminated
    · rw [hnil] at hlt
      exact absurd hlt (Nat.not_lt_zero _)
    · obtain ⟨length, hlength⟩ := CharVector.exists_cString htext hlt
      exact .inr ⟨hmap, offset.toNat, length, congrArg (Option.map some) hlength⟩

theorem Placed.step_cases (h : s.Placed) (hstep : s.step lib call = some s') :
    (s' = s ∧ ∀ str, call = .intern str → ¬ s.interner.IsNew lib str) ∨
      (∃ str, call = .intern str ∧ s.interner.IsNew lib str ∧ s'.returned = s.returned ∧
        s'.interner.map ≠ [] ∧ s'.interner.arena = s.interner.arena.addString lib str ∧
        s'.interner.offsets =
          s.interner.offsets ++ [UInt32.ofNat s.interner.arena.bytes.length] ∧
        (s'.interner.map.map InternEntry.key = s.interner.map.map InternEntry.key ∨
          s'.interner.map.map InternEntry.key =
            s.interner.map.map InternEntry.key ++ [s.interner.newKey lib str])) ∨
      (s.interner.map ≠ [] ∧ ∃ handle offset length, call = .resolve handle ∧
        s' = { s with
          returned := s.returned ++ [⟨s.interner.arena.buffer, offset, length⟩] }) := by
  cases call with
  | intern str =>
    obtain ⟨⟨handle, t⟩, hintern, rfl⟩ := Option.map_eq_some_iff.mp hstep
    rcases StringInterner.intern_cases hintern with ⟨hnew, rfl⟩ | ⟨hnew, hrest⟩
    · refine .inl ⟨rfl, ?_⟩
      rintro _ ⟨rfl⟩
      exact hnew
    · exact .inr (.inl ⟨str, rfl, hnew, rfl, hrest⟩)
  | resolve handle =>
    obtain ⟨view, hresolve, rfl⟩ := Option.map_eq_some_iff.mp hstep
    rcases h.resolve_cases handle with hnone | ⟨hmap, offset, length, hsome⟩
    · obtain rfl := Option.some.inj (hresolve.symm.trans hnone)
      refine .inl ⟨by rw [Option.toList_none, List.append_nil], ?_⟩
      rintro _ ⟨⟩
    · obtain rfl := Option.some.inj (hresolve.symm.trans hsome)
      exact .inr (.inr ⟨hmap, handle, offset, length, rfl, rfl⟩)

theorem mem_tail_concat {α : Type} {l : List α} {a b : α} (h : a ∈ (l ++ [b]).tail) :
    a ∈ l.tail ∨ a = b := by
  cases l with
  | nil => exact absurd h List.not_mem_nil
  | cons c l => exact (List.mem_append.mp h).imp_right List.mem_singleton.mp

theorem mem_views {view : ArenaView} :
    view ∈ s.views ↔ view ∈ s.interner.map.map InternEntry.key ∨ view ∈ s.returned :=
  List.mem_append

/-- The views after a call are those before it and views of the arena it leaves. -/
theorem Placed.mem_views_step (h : s.Placed) (hstep : s.step lib call = some s')
    {view : ArenaView} (hview : view ∈ s'.views) :
    view ∈ s.views ∨ view.buffer = s'.interner.arena.buffer := by
  rcases h.step_cases hstep with ⟨rfl, -⟩ | ⟨str, -, -, hreturned, -, harena, -, hkeys⟩ |
    ⟨-, handle, offset, length, -, rfl⟩
  · exact .inl hview
  · rw [mem_views, hreturned] at hview
    rw [mem_views]
    rcases hview with hview | hview
    · rcases hkeys with hkeys | hkeys <;> rw [hkeys] at hview
      · exact .inl (.inl hview)
      · rcases List.mem_append.mp hview with hview | hview
        · exact .inl (.inl hview)
        · rw [List.mem_singleton.mp hview, harena]
          exact .inr rfl
    · exact .inl (.inr hview)
  · rw [mem_views, List.mem_append, ← or_assoc] at hview
    exact hview.imp mem_views.mpr fun hview => by rw [List.mem_singleton.mp hview]

theorem Placed.buffer_le (h : s.Placed) (hstep : s.step lib call = some s') :
    s.interner.arena.buffer ≤ s'.interner.arena.buffer := by
  rcases h.step_cases hstep with ⟨rfl, -⟩ | ⟨str, -, -, -, -, harena, -⟩ | ⟨-, _, _, _, -, rfl⟩
  · exact le_rfl
  · rw [harena]
    exact CharVector.buffer_le_addString _ _ _
  · exact le_rfl

theorem Placed.step (h : s.Placed) (hstep : s.step lib call = some s') : s'.Placed := by
  have hbefore : ∀ view ∈ s'.views, view.buffer ≤ s'.interner.arena.buffer := by
    intro view hview
    rcases h.mem_views_step hstep hview with hview | hview
    · exact (h.before view hview).trans (h.buffer_le hstep)
    · exact hview.le
  rcases h.step_cases hstep with ⟨rfl, -⟩ | ⟨str, -, -, -, hne, harena, hoffsets, hkeys⟩ |
    ⟨hmap, handle, offset, length, -, rfl⟩
  · exact h
  · have hbytes : s'.interner.arena.bytes = s.interner.arena.bytes ++ (str ++ [0]) := by
      rw [harena, CharVector.bytes_addString]
    have hlength : s.interner.arena.bytes.length < s'.interner.arena.bytes.length := by
      rw [hbytes, List.length_append, List.length_append, List.length_singleton]
      omega
    refine ⟨?_, ?_, .inr ⟨s.interner.arena.bytes ++ str, ?_⟩, hbefore, ?_⟩
    · have hold : ∀ key ∈ s.interner.map.map InternEntry.key,
          key.offset + key.length ≤ s'.interner.arena.bytes.length :=
        fun key hkey => (h.keys key hkey).trans hlength.le
      rcases hkeys with hkeys | hkeys <;> rw [hkeys]
      · exact hold
      · refine List.forall_mem_append.mpr ⟨hold, List.forall_mem_singleton.mpr ?_⟩
        rw [harena]
        exact StringInterner.newKey_fits
    · intro offset hoffset
      rw [hoffsets] at hoffset
      rcases mem_tail_concat hoffset with hoffset | rfl
      · exact (h.offsets offset hoffset).trans hlength
      · exact (StringInterner.toNat_ofNat_le _).trans_lt hlength
    · rw [hbytes, List.append_assoc]
    · exact fun hnil => absurd hnil hne
  · exact ⟨h.keys, h.offsets, h.terminated, hbefore, fun hnil => absurd hnil hmap⟩

/-- A call keeps every view current exactly if it does not grow the arena under one. -/
theorem Placed.current_iff (h : s.Placed) (hcurrent : s.Current)
    (hstep : s.step lib call = some s') : s'.Current ↔ Fits lib s call := by
  have hstay (hbuffer : ∀ view ∈ s.views, view.buffer = s'.interner.arena.buffer) :
      s'.Current := by
    intro view hview
    exact (h.mem_views_step hstep hview).elim (hbuffer view) id
  rcases h.step_cases hstep with ⟨rfl, hnew⟩ | ⟨str, rfl, hnew, -, -, harena, -, hkeys⟩ |
    ⟨-, handle, offset, length, rfl, rfl⟩
  · refine iff_of_true hcurrent ?_
    cases call with
    | intern str => exact fun h => absurd h (hnew str rfl)
    | resolve handle => trivial
  · have hgrow : s'.interner.arena.buffer = s.interner.arena.buffer ↔
        s.interner.arena.bytes.length + str.length + 1 ≤ s.interner.arena.capacity := by
      rw [harena]
      exact CharVector.buffer_addString_eq_iff _ _ _
    constructor
    · intro hcurrent' _
      refine or_iff_not_imp_left.mpr fun hmap => hgrow.mp ?_
      obtain ⟨entry, hentry⟩ := List.exists_mem_of_ne_nil _ hmap
      have hkey := List.mem_map_of_mem (f := InternEntry.key) hentry
      have hkey' : entry.key ∈ s'.interner.map.map InternEntry.key := by
        rcases hkeys with hkeys | hkeys <;> rw [hkeys]
        · exact hkey
        · exact List.mem_append_left _ hkey
      rw [← hcurrent _ (mem_views.mpr (.inl hkey)), ← hcurrent' _ (mem_views.mpr (.inl hkey'))]
    · intro hfits
      refine hstay fun view hview => ?_
      rcases hfits hnew with hmap | hroom
      · rw [mem_views, hmap, (h.used hmap).2] at hview
        simp at hview
      · rw [hcurrent view hview, hgrow.mpr hroom]
  · refine iff_of_true (hstay fun view hview => ?_) trivial
    exact hcurrent view hview

/-- A call that does not grow the arena under a view is defined. -/
theorem Placed.exists_step (h : s.Placed) (hcurrent : s.Current) (hfits : Fits lib s call) :
    ∃ s', s.step lib call = some s' := by
  cases call with
  | resolve handle =>
    rcases h.resolve_cases handle with hnone | ⟨-, offset, length, hsome⟩
    · exact ⟨_, Option.map_eq_some_iff.mpr ⟨_, hnone, rfl⟩⟩
    · exact ⟨_, Option.map_eq_some_iff.mpr ⟨_, hsome, rfl⟩⟩
  | intern str =>
    have hviews {arena : CharVector} (hbuffer : arena.buffer = s.interner.arena.buffer)
        (hlength : s.interner.arena.bytes.length ≤ arena.bytes.length) :
        ∀ entry ∈ s.interner.map, (arena.view entry.key).isSome := by
      intro entry hentry
      have hkey := List.mem_map_of_mem (f := InternEntry.key) hentry
      have hplace := (hcurrent _ (mem_views.mpr (.inl hkey))).trans hbuffer.symm
      rw [CharVector.view, if_pos ⟨hplace, (h.keys _ hkey).trans hlength⟩]
      rfl
    suffices hintern : (s.interner.intern lib str).isSome by
      obtain ⟨r, hr⟩ := Option.isSome_iff_exists.mp hintern
      exact ⟨_, Option.map_eq_some_iff.mpr ⟨r, hr, rfl⟩⟩
    by_cases hnew : s.interner.IsNew lib str
    · rw [StringInterner.intern_of_isNew hnew, Option.isSome_map]
      refine isSome_assignEntry ?_
      rcases hfits hnew with hmap | hroom
      · rw [hmap]
        exact List.forall_mem_nil _
      · refine hviews ((CharVector.buffer_addString_eq_iff _ _ _).mpr hroom) ?_
        rw [CharVector.bytes_addString, List.length_append]
        exact Nat.le_add_right _ _
    · exact StringInterner.isSome_intern_of_not_isNew hnew (isSome_findEntry (hviews rfl le_rfl))

/-- From an interner of any capacity, every call is defined and every view refers to the
buffer of the arena after every call, exactly if no call adds a string for which there is
no room next to others. -/
theorem views_stay_current_iff (lib : Library) (capacity : Nat) (calls : List ViewCall) :
    ((∃ t, Runs.run (step lib) ⟨.create capacity, []⟩ calls = some t) ∧
        Runs.Throughout (step lib) Current ⟨.create capacity, []⟩ calls) ↔
      Runs.Along (step lib) (Fits lib) ⟨.create capacity, []⟩ calls := by
  have hcreate : Current ⟨.create capacity, []⟩ := by simp [Current, views, StringInterner.create]
  have hcongr {t : ViewSession} (ht : Runs.run (step lib) ⟨.create capacity, []⟩ calls = some t) :=
    Runs.throughout_iff_along (fun _ _ _ h hcurrent hstep => h.current_iff hcurrent hstep)
      (fun _ _ _ h hstep => h.step hstep) (placed_create capacity) hcreate ht
  constructor
  · rintro ⟨⟨t, ht⟩, hcurrent⟩
    exact (hcongr ht).mp hcurrent
  · intro hfits
    have hstep (s : ViewSession) (call : ViewCall) (hs : s.Placed ∧ s.Current)
        (hok : Fits lib s call) : ∃ s', s.step lib call = some s' ∧ s'.Placed ∧ s'.Current := by
      obtain ⟨s', hstep⟩ := hs.1.exists_step hs.2 hok
      exact ⟨s', hstep, hs.1.step hstep, (hs.1.current_iff hs.2 hstep).mpr hok⟩
    obtain ⟨t, ht, -⟩ := Runs.exists_run hstep ⟨placed_create capacity, hcreate⟩ hfits
    exact ⟨⟨t, ht⟩, (hcongr ht).mpr hfits⟩

/-- A second string that does not fit leaves the first key and the view of the first string
in a buffer that is gone, and looking up the first string again reads that buffer. -/
theorem second_string_moves_arena :
    let lib := Library.bucketed fun str => (str.headD 0).toUInt64
    let calls : List ViewCall := [.intern [97, 98], .resolve 1, .intern [99, 100]]
    (∃ t ∈ Runs.run (step lib) ⟨.create 4, []⟩ calls, ¬ t.Current) ∧
      Runs.run (step lib) ⟨.create 4, []⟩ (calls ++ [.intern [97, 98]]) = none := by
  refine ⟨⟨_, rfl, ?_⟩, ?_⟩
  · decide +kernel
  · rfl

end ViewSession

end Ume
