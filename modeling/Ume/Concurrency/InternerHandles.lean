import Mathlib.Data.List.Indexes
import Mathlib.Data.List.Induction
import Mathlib.Data.List.Infix
import Mathlib.Data.List.Nodup
import Ume.Concurrency.StringInterner

/-! What the interner holds after the strings of a list, and the handles it gives out. A key
reads as its string while the arena is in the buffer it was in when the string was added; in
particular all keys do while the strings fit the first buffer. -/

namespace Ume

open ByteString

/-- A library that allows as little as possible: every lookup reads all keys, and a vector that
has to grow takes no more than it needs. -/
def Library.exhaustive : Library where
  hash _ := 0
  grow _ size := size
  find _ shapes := List.range shapes.length
  subscript _ shapes := List.range shapes.length
  le_grow _ _ := le_rfl
  mem_find _ _ _ h := List.mem_range.mpr (List.getElem?_eq_some_iff.mp h).1
  mem_subscript _ _ _ h := List.mem_range.mpr (List.getElem?_eq_some_iff.mp h).1

/-- The strings in the interner, in the order of their first appearance. -/
abbrev Dictionary := List (List UInt8)

namespace Dictionary

def enter (d : Dictionary) (str : List UInt8) : Dictionary :=
  if str = [] ∨ str ∈ d then d else d ++ [str]

def number (d : Dictionary) (str : List UInt8) : InternedString :=
  if str = [] then InternedString.kNull else UInt32.ofNat (d.idxOf str + 1)

end Dictionary

/-- The distinct non-empty strings in the order of their first appearance. -/
def names (strs : List (List UInt8)) : Dictionary :=
  (strs.filter fun str => str ≠ []).eraseDups

/-- What strings take in the arena, each with its terminator. -/
def arenaBytes (strs : List (List UInt8)) : Nat := (strs.map fun str => str.length + 1).sum

/-- The distinct strings in the arena. -/
def arenaText (strs : List (List UInt8)) : List UInt8 := strs.flatMap fun str => str ++ [0]

section Names

variable {strs : List (List UInt8)} {str : List UInt8}

theorem mem_names : str ∈ names strs ↔ str ∈ strs ∧ str ≠ [] := by
  simp [names]

theorem names_append (before after : List (List UInt8)) :
    names before <+: names (before ++ after) := by
  rw [names, names, List.filter_append, List.eraseDups_append]
  exact List.prefix_append _ _

theorem names_concat (before : List (List UInt8)) (str : List UInt8) :
    names (before ++ [str]) = (names before).enter str := by
  rw [names, List.filter_append, List.eraseDups_append, Dictionary.enter]
  by_cases hempty : str = []
  · simp [hempty, names]
  · have hfilter : [str].filter (fun str => str ≠ []) = [str] := by simp [hempty]
    rw [hfilter]
    by_cases hmem : str ∈ names before
    · have hmem' : str ∈ before.filter fun str => str ≠ [] := List.mem_eraseDups.mp hmem
      rw [if_pos (.inr hmem), List.removeAll, List.filter_cons_of_neg (by simpa using hmem')]
      simp [names]
    · have hmem' : str ∉ before.filter fun str => str ≠ [] := mt List.mem_eraseDups.mpr hmem
      rw [if_neg (not_or.mpr ⟨hempty, hmem⟩), List.removeAll,
        List.filter_cons_of_pos (by simpa only [List.elem_eq_mem, Bool.not_eq_true',
          decide_eq_false_iff_not] using hmem')]
      simp [names, List.eraseDups_cons]

theorem names_nodup (strs : List (List UInt8)) : (names strs).Nodup := by
  induction strs using List.reverseRecOn with
  | nil => exact List.nodup_nil
  | append_singleton strs str ih =>
    rw [names_concat, Dictionary.enter]
    split_ifs with hold
    · exact ih
    · rw [← List.concat_eq_append]
      exact ih.concat (not_or.mp hold).2

theorem Dictionary.enter_of_new {d : Dictionary} (hempty : str ≠ []) (hnew : str ∉ d) :
    d.enter str = d ++ [str] :=
  if_neg (not_or.mpr ⟨hempty, hnew⟩)

theorem Dictionary.prefix_enter (d : Dictionary) (str : List UInt8) : d <+: d.enter str := by
  rw [enter]
  split_ifs
  · exact List.prefix_rfl
  · exact List.prefix_append _ _

end Names

section Text

variable {strs more : List (List UInt8)} {str : List UInt8} {i : Nat}

theorem arenaBytes_append (strs more : List (List UInt8)) :
    arenaBytes (strs ++ more) = arenaBytes strs + arenaBytes more := by
  rw [arenaBytes, List.map_append, List.sum_append]
  rfl

theorem arenaBytes_concat (strs : List (List UInt8)) (str : List UInt8) :
    arenaBytes (strs ++ [str]) = arenaBytes strs + (str.length + 1) :=
  arenaBytes_append strs [str]

theorem arenaBytes_mono (h : strs <+: more) : arenaBytes strs ≤ arenaBytes more := by
  obtain ⟨rest, rfl⟩ := h
  rw [arenaBytes_append]
  exact Nat.le_add_right _ _

theorem arenaBytes_take_add_le (h : strs[i]? = some str) :
    arenaBytes (strs.take i) + (str.length + 1) ≤ arenaBytes strs := by
  obtain ⟨hi, rfl⟩ := List.getElem?_eq_some_iff.mp h
  rw [← arenaBytes_concat, ← List.take_succ_eq_append_getElem hi]
  exact arenaBytes_mono (List.take_prefix _ _)

theorem arenaBytes_take_le_dropLast (h : strs[i]? = some str) :
    arenaBytes (strs.take i) ≤ arenaBytes strs.dropLast := by
  have hi := (List.getElem?_eq_some_iff.mp h).1
  rw [List.dropLast_eq_take]
  exact arenaBytes_mono (List.take_prefix_take_left (by omega))

theorem length_le_arenaBytes (strs : List (List UInt8)) : strs.length ≤ arenaBytes strs := by
  induction strs with
  | nil => exact Nat.zero_le _
  | cons str strs ih =>
    rw [arenaBytes, List.map_cons, List.sum_cons, List.length_cons]
    unfold arenaBytes at ih
    omega

theorem length_arenaText (strs : List (List UInt8)) :
    (arenaText strs).length = arenaBytes strs := by
  rw [arenaText, List.length_flatMap, arenaBytes]
  simp

theorem arenaText_append (strs more : List (List UInt8)) :
    arenaText (strs ++ more) = arenaText strs ++ arenaText more :=
  List.flatMap_append

theorem arenaText_concat (strs : List (List UInt8)) (str : List UInt8) :
    arenaText (strs ++ [str]) = arenaText strs ++ (str ++ [0]) := by
  rw [arenaText_append, arenaText, arenaText, List.flatMap_singleton]

theorem drop_arenaText (h : strs[i]? = some str) :
    ∃ rest, (arenaText strs).drop (arenaBytes (strs.take i)) = str ++ 0 :: rest := by
  obtain ⟨hi, rfl⟩ := List.getElem?_eq_some_iff.mp h
  have hsplit : arenaText strs = arenaText (strs.take i) ++ arenaText (strs.drop i) := by
    rw [← arenaText_append, List.take_append_drop]
  rw [hsplit, List.drop_left' (length_arenaText _), List.drop_eq_getElem_cons hi, arenaText,
    List.flatMap_cons, List.append_assoc]
  exact ⟨_, rfl⟩

end Text

namespace CharVector

variable (lib : Library) (v : CharVector) (data str : List UInt8)

theorem capacity_reserve (capacity : Nat) :
    (CharVector.reserve {} capacity).capacity = capacity := by
  rw [reserve]
  split_ifs with h
  · exact (Nat.le_zero.mp h).symm
  · rfl

theorem bytes_reserve (capacity : Nat) : (CharVector.reserve {} capacity).bytes = [] := by
  rw [reserve]
  split_ifs <;> rfl

theorem bytes_append : (v.append lib data).bytes = v.bytes ++ data := by
  rw [append]
  split_ifs <;> rfl

theorem buffer_le_append : v.buffer ≤ (v.append lib data).buffer := by
  rw [append]
  split_ifs
  · exact le_rfl
  · exact Nat.le_succ _

variable {lib v data} in
theorem append_of_fits (h : v.bytes.length + data.length ≤ v.capacity) :
    v.append lib data = { v with bytes := v.bytes ++ data } := by
  rw [append]
  exact if_pos (by rwa [List.length_append])

/-- A string and its terminator are added. -/
def addString : CharVector := (v.append lib str).append lib [0]

theorem bytes_addString : (v.addString lib str).bytes = v.bytes ++ (str ++ [0]) := by
  rw [addString, bytes_append, bytes_append, List.append_assoc]

theorem buffer_le_addString : v.buffer ≤ (v.addString lib str).buffer :=
  (buffer_le_append lib v str).trans (buffer_le_append lib _ [0])

variable {v str} in
theorem addString_of_fits (h : v.bytes.length + (str.length + 1) ≤ v.capacity) :
    v.addString lib str = { v with bytes := v.bytes ++ (str ++ [0]) } := by
  have hfirst : v.bytes.length + str.length ≤ v.capacity := by omega
  have hsecond : (v.bytes ++ str).length + 1 ≤ v.capacity := by
    rw [List.length_append]
    omega
  rw [addString, append_of_fits hfirst, append_of_fits hsecond, List.append_assoc]

theorem buffer_append_eq_iff :
    (v.append lib data).buffer = v.buffer ↔ v.bytes.length + data.length ≤ v.capacity := by
  rw [append, List.length_append]
  split_ifs with h
  · exact iff_of_true rfl h
  · exact iff_of_false (Nat.succ_ne_self _) h

/-- A string and its terminator stay in the buffer exactly if there is room for both. -/
theorem buffer_addString_eq_iff :
    (v.addString lib str).buffer = v.buffer ↔ v.bytes.length + (str.length + 1) ≤ v.capacity := by
  have hfirst := buffer_le_append lib v str
  have hsecond := buffer_le_append lib (v.append lib str) [0]
  constructor
  · intro h
    have hfits := (buffer_append_eq_iff lib v str).mp (Nat.le_antisymm (h ▸ hsecond) hfirst)
    have hboth := (buffer_append_eq_iff lib (v.append lib str) [0]).mp
      (Nat.le_antisymm (h.le.trans hfirst) hsecond)
    rwa [append_of_fits hfits, List.length_append, List.length_singleton, Nat.add_assoc] at hboth
  · intro h
    rw [addString_of_fits lib h]

end CharVector

/-- The arena after the strings of a dictionary. -/
def arenaOf (lib : Library) (capacity : Nat) (d : Dictionary) : CharVector :=
  d.foldl (CharVector.addString lib) (CharVector.reserve {} capacity)

/-- The buffer that the arena had when the string with a given place was added. -/
def bufferAt (lib : Library) (capacity : Nat) (d : Dictionary) (i : Nat) : Nat :=
  (arenaOf lib capacity (d.take (i + 1))).buffer

section Arena

variable {lib : Library} {capacity : Nat} {d d' : Dictionary} {str : List UInt8}

theorem arenaOf_concat :
    arenaOf lib capacity (d ++ [str]) = (arenaOf lib capacity d).addString lib str :=
  List.foldl_concat _ _ _ _

theorem bytes_arenaOf (lib : Library) (capacity : Nat) (d : Dictionary) :
    (arenaOf lib capacity d).bytes = arenaText d := by
  induction d using List.reverseRecOn with
  | nil => exact CharVector.bytes_reserve capacity
  | append_singleton d str ih => rw [arenaOf_concat, CharVector.bytes_addString, ih,
      arenaText_concat]

theorem buffer_arenaOf_mono (h : d <+: d') :
    (arenaOf lib capacity d).buffer ≤ (arenaOf lib capacity d').buffer := by
  obtain ⟨more, rfl⟩ := h
  induction more using List.reverseRecOn with
  | nil => rw [List.append_nil]
  | append_singleton more str ih =>
    rw [← List.append_assoc, arenaOf_concat]
    exact ih.trans (CharVector.buffer_le_addString _ _ _)

theorem arenaOf_of_fits (h : arenaBytes d ≤ capacity) :
    arenaOf lib capacity d = { CharVector.reserve {} capacity with bytes := arenaText d } := by
  induction d using List.reverseRecOn with
  | nil =>
    exact congrArg (fun bytes => { CharVector.reserve {} capacity with bytes })
      (CharVector.bytes_reserve capacity)
  | append_singleton d str ih =>
    rw [arenaBytes_concat] at h
    rw [arenaOf_concat, ih (by omega), arenaText_concat]
    refine CharVector.addString_of_fits lib ?_
    rw [length_arenaText, CharVector.capacity_reserve]
    exact h

theorem buffer_arenaOf_of_fits (h : arenaBytes d ≤ capacity) :
    (arenaOf lib capacity d).buffer = (CharVector.reserve {} capacity).buffer := by
  rw [arenaOf_of_fits h]

theorem bufferAt_of_prefix (h : d <+: d') {i : Nat} (hi : i < d.length) :
    bufferAt lib capacity d' i = bufferAt lib capacity d i := by
  obtain ⟨more, rfl⟩ := h
  rw [bufferAt, bufferAt, List.take_append_of_le_length hi]

end Arena

/-- The node of a string. Its offset is kept in 32 bits. -/
def entryOf (lib : Library) (capacity : Nat) (d : Dictionary) (i : Nat) (str : List UInt8) :
    InternEntry where
  hash := lib.hash str
  key := ⟨bufferAt lib capacity d i, arenaBytes (d.take i) % 2 ^ 32, str.length⟩
  handle := UInt32.ofNat (i + 1)

/-- The interner after the strings of a dictionary. -/
def StringInterner.holding (lib : Library) (capacity : Nat) (d : Dictionary) : StringInterner where
  arena := arenaOf lib capacity d
  map := d.mapIdx (entryOf lib capacity d)
  offsets := 0 :: d.mapIdx fun i _ => UInt32.ofNat (arenaBytes (d.take i))

/-- Every string can be read at its offset, as far as 32 bits keep it. -/
def Keyed (d : Dictionary) : Prop :=
  ∀ (i : Nat) str, d[i]? = some str →
    slice (arenaText d) (arenaBytes (d.take i) % 2 ^ 32) str.length = str

section Keyed

variable {d d' : Dictionary} {str : List UInt8} {i : Nat}

theorem offset_add_length_le (h : d[i]? = some str) :
    arenaBytes (d.take i) % 2 ^ 32 + str.length + 1 ≤ arenaBytes d := by
  have hle := arenaBytes_take_add_le h
  have hmod := Nat.mod_le (arenaBytes (d.take i)) (2 ^ 32)
  omega

theorem Keyed.of_prefix (hkeyed : Keyed d') (h : d <+: d') : Keyed d := by
  intro i str hi
  obtain ⟨more, rfl⟩ := h
  have hlt := (List.getElem?_eq_some_iff.mp hi).1
  have hread := hkeyed i str (by rw [List.getElem?_append_left hlt, hi])
  have hfits := offset_add_length_le hi
  rw [List.take_append_of_le_length hlt.le, arenaText_append, slice_append_left] at hread
  · exact hread
  · rw [length_arenaText]
    omega

/-- Offsets below 2³² are kept as they are. -/
theorem keyed_of_lt (h : arenaBytes d.dropLast < 2 ^ 32) : Keyed d := by
  intro i str hi
  obtain ⟨rest, hrest⟩ := drop_arenaText hi
  rw [Nat.mod_eq_of_lt ((arenaBytes_take_le_dropLast hi).trans_lt h), slice, hrest, List.take_left]

end Keyed

section Searches

variable {lib : Library} {capacity : Nat} {d : Dictionary} {str : List UInt8} {arena : CharVector}
  {nodes : List Nat}

/-- The nodes that a search for a string reads: those before its own, and this one. -/
def searched (d : Dictionary) (str : List UInt8) : List Nat → List Nat
  | [] => []
  | i :: nodes => if d[i]? = some str then [i] else i :: searched d str nodes

/-- The keys of these nodes are in a given buffer. -/
def InBuffer (lib : Library) (capacity : Nat) (d : Dictionary) (buffer : Nat) (nodes : List Nat) :
    Prop :=
  ∀ i ∈ nodes, i < d.length → bufferAt lib capacity d i = buffer

theorem searched_of_new (h : str ∉ d) : searched d str nodes = nodes := by
  induction nodes with
  | nil => rfl
  | cons i nodes ih =>
    rw [searched, if_neg fun hi => h (List.mem_of_getElem? hi), ih]

theorem view_entryOf {more : List UInt8} (hkeyed : Keyed d)
    (harena : arena.bytes = arenaText d ++ more) {i : Nat} {str : List UInt8}
    (hi : d[i]? = some str) :
    arena.view (entryOf lib capacity d i str).key =
      if bufferAt lib capacity d i = arena.buffer then some str else none := by
  have hfits := offset_add_length_le hi
  have hroom : arenaBytes (d.take i) % 2 ^ 32 + str.length ≤ (arenaText d).length := by
    rw [length_arenaText]
    omega
  rw [CharVector.view, entryOf, harena]
  refine if_congr (and_iff_left ?_) ?_ rfl
  · rw [List.length_append]
    exact Nat.le_add_right_of_le hroom
  · rw [slice_append_left hroom, hkeyed i str hi]

/-- A search is defined exactly if the keys it reads are in the buffer of the arena, and then
it finds the string. -/
theorem firstEqual_eq_some_iff {more : List UInt8} (hkeyed : Keyed d)
    (harena : arena.bytes = arenaText d ++ more) {found : Option Nat} :
    firstEqual arena str (d.mapIdx (entryOf lib capacity d)) nodes = some found ↔
      InBuffer lib capacity d arena.buffer (searched d str nodes) ∧
        found = nodes.find? fun i => d[i]? = some str := by
  induction nodes with
  | nil => simp [firstEqual, searched, InBuffer, eq_comm]
  | cons i nodes ih =>
    rw [firstEqual, List.getElem?_mapIdx, searched, List.find?_cons]
    cases hi : d[i]? with
    | none =>
      have hge := List.getElem?_eq_none_iff.mp hi
      simp only [Option.map_none, ih, InBuffer, reduceCtorEq, if_false, decide_false,
        List.forall_mem_cons, hge.not_gt, false_imp_iff, true_and]
    | some str' =>
      have hlt := (List.getElem?_eq_some_iff.mp hi).1
      simp only [Option.map_some, view_entryOf hkeyed harena hi, Option.some.injEq]
      by_cases hbuffer : bufferAt lib capacity d i = arena.buffer
      · by_cases hstr : str' = str
        · simp [hbuffer, hstr, InBuffer, eq_comm]
        · simp [hbuffer, hstr, ih, InBuffer]
      · by_cases hstr : str' = str
        · simp [hbuffer, hstr, InBuffer, hlt]
        · simp [hbuffer, hstr, InBuffer, hlt]

theorem find?_of_new (h : str ∉ d) : (nodes.find? fun i => d[i]? = some str) = none :=
  List.find?_eq_none.mpr fun _ _ hi => h (List.mem_of_getElem? (of_decide_eq_true hi))

theorem find?_eq_idxOf (hnodup : d.Nodup) (hall : ∀ i : Nat, d[i]? = some str → i ∈ nodes) :
    (nodes.find? fun i => d[i]? = some str) = if str ∈ d then some (d.idxOf str) else none := by
  split_ifs with hmem
  · have hidx := List.idxOf_lt_length_iff.mpr hmem
    have hget : d[d.idxOf str]? = some str :=
      List.getElem?_eq_some_iff.mpr ⟨hidx, List.getElem_idxOf hidx⟩
    cases hfind : nodes.find? fun i => d[i]? = some str with
    | none => exact absurd (decide_eq_true hget) (List.find?_eq_none.mp hfind _ (hall _ hget))
    | some j =>
      have hj : d[j]? = some str := by simpa using List.find?_some hfind
      obtain ⟨hlt, rfl⟩ := List.getElem?_eq_some_iff.mp hj
      rw [hnodup.idxOf_getElem]
  · exact find?_of_new hmem

theorem map_shape_mapIdx :
    (d.mapIdx (entryOf lib capacity d)).map InternEntry.shape = d.map lib.shape := by
  refine List.ext_getElem? fun i => ?_
  rw [List.getElem?_map, List.getElem?_mapIdx, List.getElem?_map, Option.map_map]
  rfl

end Searches

namespace StringInterner

variable {lib : Library} {capacity : Nat} {d : Dictionary} {s t : StringInterner}
  {strs : List (List UInt8)} {str : List UInt8} {handle : InternedString}

/-- Whether `intern` looks the string up and does not find it. -/
def IsNew (lib : Library) (s : StringInterner) (str : List UInt8) : Prop :=
  str ≠ [] ∧ findEntry lib s.arena str s.map = some none

instance : Decidable (IsNew lib s str) := inferInstanceAs (Decidable (_ ∧ _))

/-- The key of a new string. -/
def newKey (lib : Library) (s : StringInterner) (str : List UInt8) : ArenaView :=
  ⟨(s.arena.addString lib str).buffer, (UInt32.ofNat s.arena.bytes.length).toNat, str.length⟩

theorem toNat_ofNat_le (n : Nat) : (UInt32.ofNat n).toNat ≤ n := by
  rw [UInt32.toNat_ofNat']
  exact Nat.mod_le _ _

theorem newKey_fits : (s.newKey lib str).offset + (s.newKey lib str).length ≤
    (s.arena.addString lib str).bytes.length := by
  rw [CharVector.bytes_addString, List.length_append, List.length_append]
  exact Nat.add_le_add (toNat_ofNat_le _) (Nat.le_add_right _ _)

/-- The text under which `intern` enters the new key. -/
def newText (lib : Library) (s : StringInterner) (str : List UInt8) : List UInt8 :=
  slice (s.arena.addString lib str).bytes (s.newKey lib str).offset str.length

theorem intern_of_isNew (h : IsNew lib s str) :
    s.intern lib str =
      (assignEntry lib (s.arena.addString lib str) (s.newText lib str) (s.newKey lib str)
        (UInt32.ofNat s.offsets.length) s.map).map fun map =>
          (UInt32.ofNat s.offsets.length, ⟨s.arena.addString lib str, map,
            s.offsets ++ [UInt32.ofNat s.arena.bytes.length]⟩) := by
  have hview : (s.arena.addString lib str).view (s.newKey lib str) =
      some (s.newText lib str) := if_pos ⟨rfl, newKey_fits⟩
  rw [newKey, CharVector.addString] at hview
  rw [intern, if_neg h.1, h.2]
  simp only [hview]
  rfl

theorem intern_eq_some (h : s.intern lib str = some (handle, t)) :
    (str = [] ∧ handle = InternedString.kNull ∧ t = s) ∨
      (str ≠ [] ∧ findEntry lib s.arena str s.map = some (some handle) ∧ t = s) ∨
      IsNew lib s str ∧ handle = UInt32.ofNat s.offsets.length ∧ ∃ map,
        assignEntry lib (s.arena.addString lib str) (s.newText lib str) (s.newKey lib str) handle
            s.map = some map ∧
          t = ⟨s.arena.addString lib str, map,
            s.offsets ++ [UInt32.ofNat s.arena.bytes.length]⟩ := by
  by_cases hnew : IsNew lib s str
  · rw [intern_of_isNew hnew] at h
    obtain ⟨map, hmap, h⟩ := Option.map_eq_some_iff.mp h
    obtain ⟨rfl, rfl⟩ := Prod.mk.inj h
    exact .inr (.inr ⟨hnew, rfl, map, hmap, rfl⟩)
  · rw [intern] at h
    split_ifs at h with hempty
    · obtain ⟨rfl, rfl⟩ := Prod.mk.inj (Option.some.inj h)
      exact .inl ⟨hempty, rfl, rfl⟩
    cases hfind : findEntry lib s.arena str s.map with
    | none => simp [hfind] at h
    | some found =>
      cases found with
      | none => exact absurd ⟨hempty, hfind⟩ hnew
      | some found =>
        simp only [hfind] at h
        obtain ⟨rfl, rfl⟩ := Prod.mk.inj (Option.some.inj h)
        exact .inr (.inl ⟨hempty, rfl, rfl⟩)

/-- The keys that a call of `intern` reads, for `find` and then for `operator[]`, are in the
buffer that the arena has then. -/
def KeysLive (lib : Library) (capacity : Nat) (d : Dictionary) (str : List UInt8) : Prop :=
  str = [] ∨
    InBuffer lib capacity d (arenaOf lib capacity d).buffer
        (searched d str (lib.find (lib.shape str) (d.map lib.shape))) ∧
      (str ∉ d → InBuffer lib capacity d (arenaOf lib capacity (d ++ [str])).buffer
        (lib.subscript (lib.shape str) (d.map lib.shape)))

theorem keysLive_of_fits (h : arenaBytes (d.enter str) ≤ capacity) :
    KeysLive lib capacity d str := by
  by_cases hempty : str = []
  · exact .inl hempty
  have hfits : arenaBytes d ≤ capacity := (arenaBytes_mono (d.prefix_enter str)).trans h
  have hfirst (nodes : List Nat) :
      InBuffer lib capacity d (CharVector.reserve {} capacity).buffer nodes :=
    fun i _ _ => buffer_arenaOf_of_fits ((arenaBytes_mono (List.take_prefix _ _)).trans hfits)
  refine .inr ⟨?_, fun hnew => ?_⟩
  · rw [buffer_arenaOf_of_fits hfits]
    exact hfirst _
  · rw [Dictionary.enter_of_new hempty hnew] at h
    rw [buffer_arenaOf_of_fits h]
    exact hfirst _

section Holding

theorem findEntry_holding (hnodup : d.Nodup) (hkeyed : Keyed d) {found : Option InternedString} :
    findEntry lib (holding lib capacity d).arena str (holding lib capacity d).map = some found ↔
      InBuffer lib capacity d (arenaOf lib capacity d).buffer
          (searched d str (lib.find (lib.shape str) (d.map lib.shape))) ∧
        found = if str ∈ d then some (UInt32.ofNat (d.idxOf str + 1)) else none := by
  have hbytes : (arenaOf lib capacity d).bytes = arenaText d ++ [] := by
    rw [bytes_arenaOf, List.append_nil]
  have hall (i : Nat) (hi : d[i]? = some str) :
      i ∈ lib.find (lib.shape str) (d.map lib.shape) := by
    refine lib.mem_find _ _ i ?_
    rw [List.getElem?_map, hi, Option.map_some]
  have hhandle : ((if str ∈ d then some (d.idxOf str) else none).bind fun i =>
      (d.mapIdx (entryOf lib capacity d))[i]?.map InternEntry.handle) =
        if str ∈ d then some (UInt32.ofNat (d.idxOf str + 1)) else none := by
    split_ifs with hmem
    · have hidx := List.idxOf_lt_length_iff.mpr hmem
      rw [Option.bind_some, List.getElem?_mapIdx, List.getElem?_eq_getElem hidx]
      rfl
    · rfl
  rw [findEntry, holding, map_shape_mapIdx, Option.map_eq_some_iff]
  simp only [firstEqual_eq_some_iff hkeyed hbytes, find?_eq_idxOf hnodup hall]
  constructor
  · rintro ⟨_, ⟨hlive, rfl⟩, rfl⟩
    exact ⟨hlive, hhandle⟩
  · rintro ⟨hlive, rfl⟩
    exact ⟨_, ⟨hlive, rfl⟩, hhandle⟩

theorem length_offsets_holding : (holding lib capacity d).offsets.length = d.length + 1 := by
  rw [holding, List.length_cons, List.length_mapIdx]

theorem mapIdx_concat_of_prefix {β : Type} {f : Dictionary → Nat → List UInt8 → β}
    (h : ∀ i str', i < d.length → f (d ++ [str]) i str' = f d i str') :
    (d ++ [str]).mapIdx (f (d ++ [str])) = d.mapIdx (f d) ++ [f (d ++ [str]) d.length str] := by
  rw [List.mapIdx_concat, List.append_left_inj]
  refine List.ext_getElem? fun i => ?_
  rw [List.getElem?_mapIdx, List.getElem?_mapIdx]
  cases hi : d[i]? with
  | none => rfl
  | some str' => rw [Option.map_some, Option.map_some, h i str' (List.getElem?_eq_some_iff.mp hi).1]

theorem entries_concat :
    (d ++ [str]).mapIdx (entryOf lib capacity (d ++ [str])) =
      d.mapIdx (entryOf lib capacity d) ++ [entryOf lib capacity (d ++ [str]) d.length str] := by
  refine mapIdx_concat_of_prefix fun i str' hi => ?_
  rw [entryOf, entryOf, bufferAt_of_prefix (List.prefix_append _ _) hi,
    List.take_append_of_le_length hi.le]

theorem offsets_concat :
    (holding lib capacity (d ++ [str])).offsets =
      (holding lib capacity d).offsets ++ [UInt32.ofNat (arenaBytes d)] := by
  have hoffsets : (d ++ [str]).mapIdx (fun i _ => UInt32.ofNat (arenaBytes ((d ++ [str]).take i))) =
      d.mapIdx (fun i _ => UInt32.ofNat (arenaBytes (d.take i))) ++
        [UInt32.ofNat (arenaBytes ((d ++ [str]).take d.length))] :=
    mapIdx_concat_of_prefix (f := fun d i _ => UInt32.ofNat (arenaBytes (d.take i)))
      fun i _ hi => by rw [List.take_append_of_le_length hi.le]
  rw [holding, hoffsets, List.take_left, holding, List.cons_append]

theorem newText_holding (hkeyed : Keyed (d ++ [str])) :
    (holding lib capacity d).newText lib str = str := by
  have hread := hkeyed d.length str List.getElem?_concat_length
  rw [List.take_left] at hread
  rw [newText, newKey, holding, CharVector.bytes_addString, bytes_arenaOf, ← arenaText_concat,
    length_arenaText, UInt32.toNat_ofNat']
  exact hread

theorem newKey_holding :
    (holding lib capacity d).newKey lib str =
      (entryOf lib capacity (d ++ [str]) d.length str).key := by
  rw [newKey, holding, entryOf, bytes_arenaOf, length_arenaText, UInt32.toNat_ofNat', bufferAt,
    List.take_left, List.take_of_length_le (by simp), arenaOf_concat]

theorem assignEntry_holding (hkeyed : Keyed d) (hnew : str ∉ d) {key : ArenaView}
    {map : List InternEntry} :
    assignEntry lib (arenaOf lib capacity (d ++ [str])) str key handle
        (d.mapIdx (entryOf lib capacity d)) = some map ↔
      InBuffer lib capacity d (arenaOf lib capacity (d ++ [str])).buffer
          (lib.subscript (lib.shape str) (d.map lib.shape)) ∧
        map = d.mapIdx (entryOf lib capacity d) ++ [⟨lib.hash str, key, handle⟩] := by
  have hbytes : (arenaOf lib capacity (d ++ [str])).bytes = arenaText d ++ (str ++ [0]) := by
    rw [bytes_arenaOf, arenaText_concat]
  rw [assignEntry, map_shape_mapIdx, Option.map_eq_some_iff]
  simp only [firstEqual_eq_some_iff hkeyed hbytes, searched_of_new hnew, find?_of_new hnew]
  constructor
  · rintro ⟨_, ⟨hlive, rfl⟩, rfl⟩
    exact ⟨hlive, rfl⟩
  · rintro ⟨hlive, rfl⟩
    exact ⟨none, ⟨hlive, rfl⟩, rfl⟩

theorem isNew_holding (hnodup : d.Nodup) (hkeyed : Keyed d) (hempty : str ≠ []) (hnew : str ∉ d) :
    IsNew lib (holding lib capacity d) str ↔
      InBuffer lib capacity d (arenaOf lib capacity d).buffer
        (searched d str (lib.find (lib.shape str) (d.map lib.shape))) := by
  rw [IsNew, findEntry_holding hnodup hkeyed, if_neg hnew]
  simp [hempty]

theorem holding_concat :
    holding lib capacity (d ++ [str]) =
      ⟨(holding lib capacity d).arena.addString lib str, (holding lib capacity (d ++ [str])).map,
        (holding lib capacity d).offsets ++
          [UInt32.ofNat (holding lib capacity d).arena.bytes.length]⟩ := by
  have harena : (holding lib capacity d).arena.bytes.length = arenaBytes d := by
    rw [holding, bytes_arenaOf, length_arenaText]
  rw [harena, ← offsets_concat]
  exact congrArg (StringInterner.mk · _ _) arenaOf_concat

theorem assignEntry_newKey (hkeyed : Keyed (d ++ [str])) (hnew : str ∉ d)
    {map : List InternEntry} :
    assignEntry lib ((holding lib capacity d).arena.addString lib str)
        ((holding lib capacity d).newText lib str) ((holding lib capacity d).newKey lib str)
        (UInt32.ofNat (holding lib capacity d).offsets.length) (holding lib capacity d).map =
          some map ↔
      InBuffer lib capacity d (arenaOf lib capacity (d ++ [str])).buffer
          (lib.subscript (lib.shape str) (d.map lib.shape)) ∧
        map = (holding lib capacity (d ++ [str])).map := by
  have harena : (holding lib capacity d).arena.addString lib str =
      arenaOf lib capacity (d ++ [str]) := arenaOf_concat.symm
  have hmap : (holding lib capacity (d ++ [str])).map =
      d.mapIdx (entryOf lib capacity d) ++ [entryOf lib capacity (d ++ [str]) d.length str] :=
    entries_concat
  rw [newText_holding hkeyed, newKey_holding, length_offsets_holding, harena, hmap]
  exact assignEntry_holding (hkeyed.of_prefix (List.prefix_append _ _)) hnew

/-- A new string goes behind the others, exactly if no key in another buffer is read. -/
theorem intern_holding_new (hnodup : d.Nodup) (hkeyed : Keyed (d ++ [str])) (hempty : str ≠ [])
    (hnew : str ∉ d) {r : InternedString × StringInterner} :
    (holding lib capacity d).intern lib str = some r ↔
      KeysLive lib capacity d str ∧
        r = (UInt32.ofNat (d.length + 1), holding lib capacity (d ++ [str])) := by
  have hkeyed' : Keyed d := hkeyed.of_prefix (List.prefix_append _ _)
  rw [KeysLive, or_iff_right hempty, ← isNew_holding hnodup hkeyed' hempty hnew]
  constructor
  · obtain ⟨handle, t⟩ := r
    intro h
    rcases intern_eq_some h with ⟨hnil, -⟩ | ⟨-, hfind, -⟩ | ⟨hisNew, rfl, map, hmap, rfl⟩
    · exact absurd hnil hempty
    · obtain ⟨-, hfound⟩ := (findEntry_holding hnodup hkeyed').mp hfind
      rw [if_neg hnew] at hfound
      cases hfound
    · obtain ⟨hlive, rfl⟩ := (assignEntry_newKey hkeyed hnew).mp hmap
      refine ⟨⟨hisNew, fun _ => hlive⟩, ?_⟩
      rw [length_offsets_holding, ← holding_concat]
  · rintro ⟨⟨hisNew, hlive⟩, rfl⟩
    rw [intern_of_isNew hisNew, (assignEntry_newKey hkeyed hnew).mpr ⟨hlive hnew, rfl⟩,
      Option.map_some, ← holding_concat, length_offsets_holding]

theorem intern_holding_old (hnodup : d.Nodup) (hkeyed : Keyed d) (hempty : str ≠ [])
    (hold : str ∈ d) {r : InternedString × StringInterner} :
    (holding lib capacity d).intern lib str = some r ↔
      KeysLive lib capacity d str ∧
        r = (UInt32.ofNat (d.idxOf str + 1), holding lib capacity d) := by
  rw [KeysLive, or_iff_right hempty, and_iff_left (fun h => absurd hold h)]
  constructor
  · obtain ⟨handle, t⟩ := r
    intro h
    rcases intern_eq_some h with ⟨hnil, -⟩ | ⟨-, hfind, rfl⟩ | ⟨⟨-, hfind⟩, -⟩
    · exact absurd hnil hempty
    · obtain ⟨hlive, hfound⟩ := (findEntry_holding hnodup hkeyed).mp hfind
      rw [if_pos hold] at hfound
      exact ⟨hlive, by rw [Option.some.inj hfound]⟩
    · obtain ⟨-, hfound⟩ := (findEntry_holding hnodup hkeyed).mp hfind
      rw [if_pos hold] at hfound
      cases hfound
  · rintro ⟨hlive, rfl⟩
    have hfind := (findEntry_holding hnodup hkeyed).mpr ⟨hlive, rfl⟩
    rw [if_pos hold] at hfind
    rw [intern, if_neg hempty, hfind]

/-- A call is defined exactly if it reads no key in a buffer that the arena has left, and then
it returns the number of its string. -/
theorem intern_holding (hnodup : d.Nodup) (hkeyed : Keyed (d.enter str))
    {r : InternedString × StringInterner} :
    (holding lib capacity d).intern lib str = some r ↔
      KeysLive lib capacity d str ∧
        r = ((d.enter str).number str, holding lib capacity (d.enter str)) := by
  by_cases hempty : str = []
  · rw [KeysLive, or_iff_left_of_imp fun _ => hempty, Dictionary.enter, if_pos (.inl hempty),
      intern, if_pos hempty, Dictionary.number, if_pos hempty, Option.some.injEq]
    exact ⟨fun h => ⟨hempty, h.symm⟩, fun h => h.2.symm⟩
  by_cases hnew : str ∈ d
  · have henter : d.enter str = d := if_pos (.inr hnew)
    rw [henter] at hkeyed ⊢
    rw [intern_holding_old hnodup hkeyed hempty hnew, Dictionary.number, if_neg hempty]
  · rw [Dictionary.enter_of_new hempty hnew] at hkeyed ⊢
    rw [intern_holding_new hnodup hkeyed hempty hnew, Dictionary.number, if_neg hempty,
      List.idxOf_append_of_notMem hnew, List.idxOf_cons_self, Nat.add_zero]

end Holding

/-- The handle of a string once it is interned. -/
def handleOf (strs : List (List UInt8)) (str : List UInt8) : InternedString :=
  (names strs).number str

theorem handleOf_append {before after : List (List UInt8)} (h : str ∈ before) :
    handleOf (before ++ after) str = handleOf before str := by
  unfold handleOf Dictionary.number
  split_ifs with hempty
  · rfl
  · obtain ⟨more, hmore⟩ := names_append before after
    rw [← hmore, List.idxOf_append_of_mem (mem_names.mpr ⟨h, hempty⟩)]

theorem internAll_concat (lib : Library) (s : StringInterner) (strs : List (List UInt8))
    (str : List UInt8) :
    s.internAll lib (strs ++ [str]) = (s.internAll lib strs).bind fun r =>
      (r.2.intern lib str).map fun r' => (r.1 ++ [r'.1], r'.2) := by
  induction strs generalizing s with
  | nil =>
    rw [List.nil_append, internAll, internAll, Option.bind_some]
    cases s.intern lib str <;> rfl
  | cons str' strs ih =>
    rw [List.cons_append, internAll, internAll]
    cases s.intern lib str' with
    | none => rfl
    | some first =>
      simp only [ih]
      cases first.2.internAll lib strs with
      | none => rfl
      | some rest =>
        obtain ⟨handles, t⟩ := rest
        simp only [Option.bind_some]
        cases t.intern lib str <;> rfl

/-- Along the calls no key in a buffer that the arena has left is read. -/
def AllLive (lib : Library) (capacity : Nat) (strs : List (List UInt8)) : Prop :=
  ∀ before str, before ++ [str] <+: strs → KeysLive lib capacity (names before) str

theorem allLive_nil : AllLive lib capacity [] :=
  fun _ _ h => absurd (List.prefix_nil.mp h) (List.append_ne_nil_of_right_ne_nil _ (by simp))

theorem allLive_concat :
    AllLive lib capacity (strs ++ [str]) ↔
      AllLive lib capacity strs ∧ KeysLive lib capacity (names strs) str := by
  constructor
  · intro h
    exact ⟨fun before str' hpre => h before str' (hpre.trans (List.prefix_append _ _)),
      h strs str List.prefix_rfl⟩
  · rintro ⟨hall, hlast⟩ before str' hpre
    rcases List.prefix_concat_iff.mp hpre with heq | hpre
    · obtain ⟨rfl, hstr⟩ := List.append_inj' heq rfl
      obtain rfl := List.singleton_inj.mp hstr
      exact hlast
    · exact hall before str' hpre

theorem allLive_of_fits (h : arenaBytes (names strs) ≤ capacity) : AllLive lib capacity strs := by
  rintro before str ⟨after, rfl⟩
  refine keysLive_of_fits ((arenaBytes_mono ?_).trans h)
  rw [← names_concat]
  exact names_append _ _

/-- A sequence of calls is defined exactly if no call reads a key in a buffer that is gone. -/
theorem internAll_eq_some_iff (hkeyed : Keyed (names strs))
    {r : List InternedString × StringInterner} :
    (create capacity).internAll lib strs = some r ↔
      AllLive lib capacity strs ∧
        r = (strs.map (handleOf strs), holding lib capacity (names strs)) := by
  induction strs using List.reverseRecOn generalizing r with
  | nil =>
    rw [internAll, Option.some.injEq, and_iff_right allLive_nil]
    exact eq_comm
  | append_singleton strs str ih =>
    have hpre := names_append strs [str]
    have hkeyed' : Keyed ((names strs).enter str) := names_concat strs str ▸ hkeyed
    have hhandles : strs.map (handleOf (strs ++ [str])) = strs.map (handleOf strs) :=
      List.map_congr_left fun _ hmem => handleOf_append hmem
    rw [internAll_concat, allLive_concat, List.map_append, hhandles, names_concat]
    simp only [Option.bind_eq_some_iff, Option.map_eq_some_iff, ih (hkeyed.of_prefix hpre)]
    constructor
    · rintro ⟨_, ⟨hall, rfl⟩, _, hintern, rfl⟩
      obtain ⟨hlive, rfl⟩ := (intern_holding (names_nodup strs) hkeyed').mp hintern
      exact ⟨⟨hall, hlive⟩, by rw [← names_concat]; rfl⟩
    · rintro ⟨⟨hall, hlive⟩, rfl⟩
      refine ⟨_, ⟨hall, rfl⟩, _, (intern_holding (names_nodup strs) hkeyed').mpr ⟨hlive, rfl⟩, ?_⟩
      rw [← names_concat]
      rfl

/-- What callers may rely on: handles stand for strings, `kNull` for the empty one,
and the others are numbered as they first appear. -/
structure Interned (strs : List (List UInt8)) (handles : List InternedString)
    (s : StringInterner) : Prop where
  length : handles.length = strs.length
  injective : ∀ i < strs.length, ∀ j < strs.length,
    handles[i]? = handles[j]? ↔ strs[i]? = strs[j]?
  null : ∀ i : Nat, handles[i]? = some InternedString.kNull ↔ strs[i]? = some []
  numbered : ∀ (i k : Nat) str, strs[i]? = some str → (names strs)[k]? = some str →
    handles[i]?.map UInt32.toNat = some (k + 1)
  count : s.uniqueStringCount = (names strs).length

theorem toNat_handleOf (hlt : (names strs).length < 2 ^ 32) (hmem : str ∈ strs) :
    (handleOf strs str).toNat = if str = [] then 0 else (names strs).idxOf str + 1 := by
  unfold handleOf Dictionary.number
  split_ifs with hempty
  · rfl
  · have hidx := List.idxOf_lt_length_iff.mpr (mem_names.mpr ⟨hmem, hempty⟩)
    rw [UInt32.toNat_ofNat']
    exact Nat.mod_eq_of_lt (by omega)

theorem handleOf_inj {str' : List UInt8} (hlt : (names strs).length < 2 ^ 32)
    (hmem : str ∈ strs) (hmem' : str' ∈ strs) :
    handleOf strs str = handleOf strs str' ↔ str = str' := by
  refine ⟨fun heq => ?_, fun heq => heq ▸ rfl⟩
  have hnat := congrArg UInt32.toNat heq
  rw [toNat_handleOf hlt hmem, toNat_handleOf hlt hmem'] at hnat
  by_cases hempty : str = []
  · by_cases hempty' : str' = []
    · rw [hempty, hempty']
    · rw [if_pos hempty, if_neg hempty'] at hnat
      exact absurd hnat (Nat.succ_ne_zero _).symm
  · by_cases hempty' : str' = []
    · rw [if_neg hempty, if_pos hempty'] at hnat
      exact absurd hnat (Nat.succ_ne_zero _)
    · rw [if_neg hempty, if_neg hempty'] at hnat
      exact (List.idxOf_inj (mem_names.mpr ⟨hmem, hempty⟩)).mp (Nat.succ.inj hnat)

/-- Interning is injective and stable while the strings fit the arena. -/
theorem intern_numbers_strings (lib : Library) (capacity : Nat) (strs : List (List UInt8))
    (hfits : arenaBytes (names strs) ≤ capacity) (hlt : arenaBytes (names strs) < 2 ^ 32) :
    ∃ handles s, (create capacity).internAll lib strs = some (handles, s) ∧
      Interned strs handles s := by
  have hkeyed : Keyed (names strs) :=
    keyed_of_lt ((arenaBytes_mono (List.dropLast_prefix _)).trans_lt hlt)
  have hlen : (names strs).length < 2 ^ 32 := (length_le_arenaBytes _).trans_lt hlt
  have hlive : AllLive lib capacity strs := allLive_of_fits hfits
  have hs := (internAll_eq_some_iff hkeyed).mpr ⟨hlive, rfl⟩
  refine ⟨_, _, hs, List.length_map _, ?_, ?_, ?_, ?_⟩
  · intro i hi j hj
    rw [List.getElem?_map, List.getElem?_map, List.getElem?_eq_getElem hi,
      List.getElem?_eq_getElem hj, Option.map_some, Option.map_some, Option.some.injEq,
      Option.some.injEq]
    exact handleOf_inj hlen (List.getElem_mem hi) (List.getElem_mem hj)
  · intro i
    rw [List.getElem?_map, Option.map_eq_some_iff]
    constructor
    · rintro ⟨str, hstr, hnull⟩
      have hnat := congrArg UInt32.toNat hnull
      rw [toNat_handleOf hlen (List.mem_of_getElem? hstr)] at hnat
      by_cases hempty : str = []
      · rw [hstr, hempty]
      · rw [if_neg hempty] at hnat
        exact absurd hnat (Nat.succ_ne_zero _)
    · intro hempty
      exact ⟨[], hempty, rfl⟩
  · intro i k str hi hk
    have hne := (mem_names.mp (List.mem_of_getElem? hk)).2
    obtain ⟨hbound, hget⟩ := List.getElem?_eq_some_iff.mp hk
    rw [List.getElem?_map, hi, Option.map_some, Option.map_some,
      toNat_handleOf hlen (List.mem_of_getElem? hi), if_neg hne, ← hget,
      (names_nodup strs).idxOf_getElem]
  · rw [uniqueStringCount, holding, List.length_mapIdx]

theorem intern_numbers_two : ∃ handles s,
    (create 64).internAll .exhaustive [[97], [], [98, 0], [97]] = some (handles, s) ∧
      Interned [[97], [], [98, 0], [97]] handles s :=
  intern_numbers_strings _ 64 _ (by decide) (by decide)

end StringInterner

end Ume
