import Mathlib.Data.List.TakeWhile
import Ume.Concurrency.InternerHandles

/-! What `resolve` returns for the handles of `intern`. The arena holds the distinct strings
with their terminators one after the other, whether or not it has grown, and `resolve` reads
from the offset of a string, as far as 32 bits keep it, up to the next zero byte. -/

namespace Ume

open ByteString

/-- The C string at an offset. -/
def cStringAt (text : List UInt8) (offset : Nat) : List UInt8 :=
  (text.drop offset).takeWhile (· ≠ 0)

section Text

variable {text more str : List UInt8} {offset : Nat}

theorem takeWhile_terminated (str rest : List UInt8) :
    (str ++ 0 :: rest).takeWhile (· ≠ 0) = str.takeWhile (· ≠ 0) := by
  induction str with
  | nil => rfl
  | cons b str ih =>
    by_cases hb : b = 0
    · rw [List.cons_append, List.takeWhile_cons_of_neg (by simp [hb]),
        List.takeWhile_cons_of_neg (by simp [hb])]
    · rw [List.cons_append, List.takeWhile_cons_of_pos (by simp [hb]),
        List.takeWhile_cons_of_pos (by simp [hb]), ih]

theorem takeWhile_ne_zero_eq_self_iff : str.takeWhile (· ≠ 0) = str ↔ 0 ∉ str := by
  rw [List.takeWhile_eq_self_iff]
  simp only [decide_eq_true_eq]
  exact ⟨fun h hmem => h 0 hmem rfl, fun h b hb hzero => h (hzero ▸ hb)⟩

/-- In text that ends in a zero byte a C string ends before it. -/
theorem cStringAt_terminated (hoffset : offset ≤ text.length) (more : List UInt8) :
    cStringAt (text ++ 0 :: more) offset = (text.drop offset).takeWhile (· ≠ 0) := by
  rw [cStringAt, List.drop_append_of_le_length hoffset, takeWhile_terminated]

theorem length_cStringAt_le (hoffset : offset ≤ text.length) (more : List UInt8) :
    offset + (cStringAt (text ++ 0 :: more) offset).length ≤ text.length := by
  have hle := (List.takeWhile_sublist (l := text.drop offset)
    fun b : UInt8 => decide (b ≠ 0)).length_le
  rw [List.length_drop] at hle
  rw [cStringAt_terminated hoffset]
  omega

theorem slice_cStringAt (text : List UInt8) (offset : Nat) :
    slice text offset (cStringAt text offset).length = cStringAt text offset :=
  (List.prefix_iff_eq_take.mp (List.takeWhile_prefix _)).symm

end Text

namespace CharVector

variable {v : CharVector} {text : List UInt8} {offset : Nat}

theorem cString_of_terminated (hbytes : v.bytes = text ++ [0]) (hoffset : offset ≤ text.length) :
    v.cString offset = some ⟨v.buffer, offset, (cStringAt v.bytes offset).length⟩ := by
  have hlt : offset + (cStringAt v.bytes offset).length < v.bytes.length := by
    have hle := length_cStringAt_le hoffset []
    rw [hbytes, List.length_append, List.length_singleton]
    exact Nat.lt_succ_of_le hle
  exact if_pos hlt

theorem view_cStringAt (hbytes : v.bytes = text ++ [0]) (hoffset : offset ≤ text.length) :
    v.view ⟨v.buffer, offset, (cStringAt v.bytes offset).length⟩ =
      some (cStringAt v.bytes offset) := by
  have hle : offset + (cStringAt v.bytes offset).length ≤ v.bytes.length := by
    have hle := length_cStringAt_le hoffset []
    rw [hbytes, List.length_append]
    exact Nat.le_add_right_of_le hle
  rw [view, if_pos ⟨rfl, hle⟩, slice_cStringAt]

end CharVector

/-- Every string stands in the arena from its offset, as far as 32 bits keep it, up to the next
zero byte. -/
def Recoverable (d : Dictionary) : Prop :=
  ∀ (i : Nat) str, d[i]? = some str →
    cStringAt (arenaText d) (arenaBytes (d.take i) % 2 ^ 32) = str

section Recoverable

variable {d : Dictionary} {str : List UInt8} {i : Nat}

theorem arenaText_terminated (h : d ≠ []) : ∃ text, arenaText d = text ++ [0] := by
  obtain rfl | ⟨d', str, rfl⟩ := List.eq_nil_or_concat d
  · exact absurd rfl h
  · exact ⟨arenaText d' ++ str, by rw [List.concat_eq_append, arenaText_concat, List.append_assoc]⟩

theorem two_mul_length_le_arenaBytes (h : ∀ str ∈ d, str ≠ []) : 2 * d.length ≤ arenaBytes d := by
  induction d with
  | nil => exact Nat.zero_le _
  | cons str d ih =>
    obtain ⟨hstr, hrest⟩ := List.forall_mem_cons.mp h
    have hpos := List.length_pos_iff.mpr hstr
    have hle := ih hrest
    rw [← List.singleton_append, arenaBytes_append, ← List.nil_append [str], arenaBytes_concat,
      List.length_append]
    simp only [List.nil_append, List.length_singleton]
    omega

theorem offset_le_of_terminated {text : List UInt8} (htext : arenaText d = text ++ [0])
    (hi : d[i]? = some str) : arenaBytes (d.take i) % 2 ^ 32 ≤ text.length := by
  have hfits := offset_add_length_le hi
  have hlength := congrArg List.length htext
  rw [length_arenaText, List.length_append, List.length_singleton] at hlength
  omega

theorem cStringAt_arenaText_append (more : Dictionary) (hi : d[i]? = some str) :
    cStringAt (arenaText (d ++ more)) (arenaBytes (d.take i) % 2 ^ 32) =
      cStringAt (arenaText d) (arenaBytes (d.take i) % 2 ^ 32) := by
  obtain ⟨text, htext⟩ := arenaText_terminated (List.ne_nil_of_mem (List.mem_of_getElem? hi))
  have hoffset := offset_le_of_terminated htext hi
  rw [arenaText_append, htext, List.append_assoc, List.singleton_append,
    cStringAt_terminated hoffset, cStringAt_terminated hoffset]

theorem recoverable_concat :
    Recoverable (d ++ [str]) ↔
      Recoverable d ∧ cStringAt (arenaText (d ++ [str])) (arenaBytes d % 2 ^ 32) = str := by
  constructor
  · intro h
    refine ⟨fun i str' hi => ?_, ?_⟩
    · have hlt := (List.getElem?_eq_some_iff.mp hi).1
      have hread := h i str' (by rw [List.getElem?_append_left hlt, hi])
      rwa [List.take_append_of_le_length hlt.le, cStringAt_arenaText_append [str] hi] at hread
    · have hread := h d.length str List.getElem?_concat_length
      rwa [List.take_left] at hread
  · rintro ⟨hold, hlast⟩ i str' hi
    rcases Nat.lt_or_ge i d.length with hlt | hge
    · rw [List.getElem?_append_left hlt] at hi
      rw [List.take_append_of_le_length hlt.le, cStringAt_arenaText_append [str] hi]
      exact hold i str' hi
    · have hend := (List.getElem?_eq_some_iff.mp hi).1
      rw [List.length_append, List.length_singleton] at hend
      obtain rfl : i = d.length := by omega
      rw [List.getElem?_concat_length] at hi
      obtain rfl := Option.some.inj hi
      rwa [List.take_left]

theorem Recoverable.of_prefix {d' : Dictionary} (h : Recoverable d') (hpre : d <+: d') :
    Recoverable d := by
  obtain ⟨more, rfl⟩ := hpre
  induction more using List.reverseRecOn with
  | nil => rwa [List.append_nil] at h
  | append_singleton more str ih =>
    rw [← List.append_assoc, recoverable_concat] at h
    exact ih h.1

theorem Recoverable.keyed (h : Recoverable d) : Keyed d := by
  intro i str hi
  have hread := slice_cStringAt (arenaText d) (arenaBytes (d.take i) % 2 ^ 32)
  rwa [h i str hi] at hread

/-- While offsets are kept as they are, a string is read back exactly if it has no zero byte. -/
theorem recoverable_iff_of_lt (h : arenaBytes d.dropLast < 2 ^ 32) :
    Recoverable d ↔ ∀ str ∈ d, 0 ∉ str := by
  have hread (i : Nat) (str : List UInt8) (hi : d[i]? = some str) :
      cStringAt (arenaText d) (arenaBytes (d.take i) % 2 ^ 32) = str ↔ 0 ∉ str := by
    obtain ⟨rest, hrest⟩ := drop_arenaText hi
    rw [Nat.mod_eq_of_lt ((arenaBytes_take_le_dropLast hi).trans_lt h), cStringAt, hrest,
      takeWhile_terminated, takeWhile_ne_zero_eq_self_iff]
  constructor
  · intro hall str hmem
    obtain ⟨i, hi⟩ := List.mem_iff_getElem?.mp hmem
    exact (hread i str hi).mp (hall i str hi)
  · intro hzero i str hi
    exact (hread i str hi).mpr (hzero str (List.mem_of_getElem? hi))

end Recoverable

namespace StringInterner

variable {lib : Library} {capacity : Nat} {d : Dictionary} {s : StringInterner}
  {strs : List (List UInt8)} {str : List UInt8}

variable (lib capacity) in
/-- A handle is read up to the first zero byte after its offset. -/
theorem resolved_eq_cStringAt (hbytes : s.arena.bytes = arenaText d)
    (hoffsets : s.offsets = (holding lib capacity d).offsets) (hlt : d.length < 2 ^ 32) {i : Nat}
    (hi : d[i]? = some str) :
    s.resolved (UInt32.ofNat (i + 1)) =
      some (cStringAt (arenaText d) (arenaBytes (d.take i) % 2 ^ 32)) := by
  have hbound := (List.getElem?_eq_some_iff.mp hi).1
  have hhandle : (UInt32.ofNat (i + 1)).toNat = i + 1 := by
    rw [UInt32.toNat_ofNat']
    exact Nat.mod_eq_of_lt (by omega)
  have hne : UInt32.ofNat (i + 1) ≠ 0 := by
    intro hzero
    rw [hzero] at hhandle
    exact absurd hhandle (Nat.succ_ne_zero i).symm
  have hoffset : s.offsets[(UInt32.ofNat (i + 1)).toNat]? =
      some (UInt32.ofNat (arenaBytes (d.take i))) := by
    rw [hhandle, hoffsets, holding, List.getElem?_cons_succ, List.getElem?_mapIdx, hi,
      Option.map_some]
  obtain ⟨text, htext⟩ := arenaText_terminated (List.ne_nil_of_mem (List.mem_of_getElem? hi))
  have hplace := offset_le_of_terminated htext hi
  rw [← hbytes] at htext ⊢
  rw [resolved, resolve, if_neg hne, hoffset]
  simp only [UInt32.toNat_ofNat', CharVector.cString_of_terminated htext hplace, Option.map_some]
  exact CharVector.view_cStringAt htext hplace

/-- `resolve` returns every string for its handle. -/
def Resolves (strs : List (List UInt8)) (handles : List InternedString) (s : StringInterner) :
    Prop :=
  ∀ i : Nat, ∀ str handle, strs[i]? = some str → handles[i]? = some handle →
    s.resolved handle = some str

theorem resolved_handleOf (hlt : (names strs).length < 2 ^ 32) (hmem : str ∈ strs)
    (hread : Recoverable (names strs)) :
    (holding lib capacity (names strs)).resolved (handleOf strs str) = some str := by
  unfold handleOf Dictionary.number
  by_cases hempty : str = []
  · rw [if_pos hempty, hempty]
    rfl
  · have hidx := List.idxOf_lt_length_iff.mpr (mem_names.mpr ⟨hmem, hempty⟩)
    have hi : (names strs)[(names strs).idxOf str]? = some str :=
      List.getElem?_eq_some_iff.mpr ⟨hidx, List.getElem_idxOf hidx⟩
    rw [if_neg hempty, resolved_eq_cStringAt lib capacity (bytes_arenaOf _ _ _) rfl hlt hi,
      hread _ _ hi]

/-- The call that adds a string has a handle that resolves to it only if there is a number for
the string and the string can be read at its offset. -/
theorem recoverable_of_resolved (hnodup : d.Nodup) (hkeyed : Keyed d) (hlt : d.length < 2 ^ 32)
    (hempty : str ≠ []) (hnew : str ∉ d) {handle : InternedString} {t : StringInterner}
    (hintern : (holding lib capacity d).intern lib str = some (handle, t))
    (hresolved : t.resolved handle = some str) :
    (d ++ [str]).length < 2 ^ 32 ∧
      cStringAt (arenaText (d ++ [str])) (arenaBytes d % 2 ^ 32) = str := by
  rcases intern_eq_some hintern with ⟨hnil, -⟩ | ⟨-, hfind, -⟩ | ⟨-, rfl, map, -, rfl⟩
  · exact absurd hnil hempty
  · obtain ⟨-, hfound⟩ := (findEntry_holding hnodup hkeyed).mp hfind
    rw [if_neg hnew] at hfound
    cases hfound
  · rw [length_offsets_holding] at hresolved
    have hlength : (d ++ [str]).length < 2 ^ 32 := by
      rw [List.length_append, List.length_singleton]
      by_contra hge
      have hzero : UInt32.ofNat (d.length + 1) = 0 := by
        have hfull : d.length + 1 = 2 ^ 32 := by omega
        rw [hfull]
        rfl
      rw [hzero] at hresolved
      exact hempty (Option.some.inj hresolved).symm
    refine ⟨hlength, ?_⟩
    have harena : (holding lib capacity d).arena.bytes.length = arenaBytes d := by
      rw [holding, bytes_arenaOf, length_arenaText]
    have hread := resolved_eq_cStringAt lib capacity
      (s := ⟨(holding lib capacity d).arena.addString lib str, map,
        (holding lib capacity d).offsets ++
          [UInt32.ofNat (holding lib capacity d).arena.bytes.length]⟩)
      (by rw [CharVector.bytes_addString, holding, bytes_arenaOf, arenaText_concat])
      (by rw [offsets_concat, harena]) hlength (List.getElem?_concat_length (l := d) (a := str))
    rw [List.take_left] at hread
    exact Option.some.inj (hread.symm.trans hresolved)

/-- All calls are defined and every string resolves, at once and after every later call. -/
def Undoes (lib : Library) (capacity : Nat) (strs : List (List UInt8)) : Prop :=
  ∀ before, before <+: strs → ∃ handles s,
    (create capacity).internAll lib before = some (handles, s) ∧ Resolves before handles s

theorem undoes_of_recoverable (hlive : AllLive lib capacity strs)
    (hlt : (names strs).length < 2 ^ 32) (hread : Recoverable (names strs)) :
    Undoes lib capacity strs := by
  rintro before hpre
  have hnames : names before <+: names strs := by
    obtain ⟨after, rfl⟩ := hpre
    exact names_append _ _
  have hread' := hread.of_prefix hnames
  have hlt' := hnames.length_le.trans_lt hlt
  refine ⟨_, _, (internAll_eq_some_iff hread'.keyed).mpr
    ⟨fun before' str h => hlive before' str (h.trans hpre), rfl⟩, fun i str handle hi hhandle => ?_⟩
  rw [List.getElem?_map, hi, Option.map_some, Option.some.injEq] at hhandle
  rw [← hhandle]
  exact resolved_handleOf hlt' (List.mem_of_getElem? hi) hread'

theorem recoverable_of_undoes (h : Undoes lib capacity strs) :
    AllLive lib capacity strs ∧ (names strs).length < 2 ^ 32 ∧ Recoverable (names strs) := by
  induction strs using List.reverseRecOn with
  | nil => exact ⟨allLive_nil, by decide, fun i str hi => by simp [names] at hi⟩
  | append_singleton strs str ih =>
    obtain ⟨hlive, hlt, hread⟩ :=
      ih fun before hpre => h before (hpre.trans (List.prefix_append _ _))
    obtain ⟨handles, s, hs, hresolves⟩ := h _ List.prefix_rfl
    rw [internAll_concat, (internAll_eq_some_iff hread.keyed).mpr ⟨hlive, rfl⟩, Option.bind_some,
      Option.map_eq_some_iff] at hs
    obtain ⟨⟨handle, t⟩, hintern, heq⟩ := hs
    obtain ⟨rfl, rfl⟩ := Prod.mk.inj heq
    have hlast : t.resolved handle = some str := by
      refine hresolves strs.length str handle List.getElem?_concat_length ?_
      rw [List.getElem?_append_right (by simp), List.length_map, Nat.sub_self]
      rfl
    have hboth : ((names strs).enter str).length < 2 ^ 32 ∧
        Recoverable ((names strs).enter str) := by
      by_cases hold : str = [] ∨ str ∈ names strs
      · rw [Dictionary.enter, if_pos hold]
        exact ⟨hlt, hread⟩
      · obtain ⟨hempty, hnew⟩ := not_or.mp hold
        obtain ⟨hlt', hstr⟩ := recoverable_of_resolved (names_nodup strs) hread.keyed hlt hempty
          hnew hintern hlast
        rw [Dictionary.enter_of_new hempty hnew]
        exact ⟨hlt', recoverable_concat.mpr ⟨hread, hstr⟩⟩
    have hkeys := ((intern_holding (names_nodup strs) hboth.2.keyed).mp hintern).1
    rw [allLive_concat, names_concat]
    exact ⟨⟨hlive, hkeys⟩, hboth⟩

section Exhaustive

theorem exists_first_call {str : List UInt8} (h : names strs = d ++ [str]) :
    ∃ before, before ++ [str] <+: strs ∧ names before = d := by
  induction strs using List.reverseRecOn with
  | nil => exact absurd h.symm (List.append_ne_nil_of_right_ne_nil _ (by simp))
  | append_singleton strs str' ih =>
    rw [names_concat, Dictionary.enter] at h
    split_ifs at h with hold
    · obtain ⟨before, hpre, hbefore⟩ := ih h
      exact ⟨before, hpre.trans (List.prefix_append _ _), hbefore⟩
    · obtain ⟨hnames, hstr⟩ := List.append_inj' h rfl
      rw [← List.singleton_inj.mp hstr]
      exact ⟨strs, List.prefix_rfl, hnames⟩

theorem capacity_append_exhaustive_le (v : CharVector) (data : List UInt8) :
    (v.append .exhaustive data).capacity ≤
      max v.capacity (v.append .exhaustive data).bytes.length := by
  rw [CharVector.append]
  split_ifs
  · exact le_max_left _ _
  · exact le_max_right _ _

theorem capacity_arenaOf_exhaustive_le (capacity : Nat) (d : Dictionary) :
    (arenaOf .exhaustive capacity d).capacity ≤ max capacity (arenaBytes d) := by
  induction d using List.reverseRecOn with
  | nil => exact (CharVector.capacity_reserve capacity).trans_le (le_max_left _ _)
  | append_singleton d str ih =>
    have hfirst := capacity_append_exhaustive_le (arenaOf .exhaustive capacity d) str
    have hsecond :=
      capacity_append_exhaustive_le ((arenaOf .exhaustive capacity d).append .exhaustive str) [0]
    rw [CharVector.bytes_append, List.length_append, bytes_arenaOf, length_arenaText] at hfirst
    rw [CharVector.bytes_append, CharVector.bytes_append, List.length_append, List.length_append,
      bytes_arenaOf, length_arenaText, List.length_singleton] at hsecond
    rw [arenaOf_concat, CharVector.addString, arenaBytes_concat]
    omega

theorem buffer_arenaOf_exhaustive_ne {str : List UInt8}
    (hfull : capacity < arenaBytes (d ++ [str])) :
    (arenaOf .exhaustive capacity (d ++ [str])).buffer ≠
      (arenaOf .exhaustive capacity d).buffer := by
  have hcapacity := capacity_arenaOf_exhaustive_le capacity d
  rw [arenaOf_concat, ne_eq, CharVector.buffer_addString_eq_iff, bytes_arenaOf, length_arenaText]
  rw [arenaBytes_concat] at hfull
  omega

/-- A string for which there is no room next to others moves the arena, and `operator[]` then
reads the key of the first one. -/
theorem not_keysLive_exhaustive {str : List UInt8} (hne : d ≠ []) (hempty : str ≠ [])
    (hnew : str ∉ d) (hfull : capacity < arenaBytes (d ++ [str])) :
    ¬KeysLive .exhaustive capacity d str := by
  rintro (hnil | ⟨-, hkeys⟩)
  · exact hempty hnil
  · have hpos := List.length_pos_iff.mpr hne
    have hstays := hkeys hnew 0 (List.mem_range.mpr (by rwa [List.length_map])) hpos
    have hmono : bufferAt .exhaustive capacity d 0 ≤ (arenaOf .exhaustive capacity d).buffer :=
      buffer_arenaOf_mono (List.take_prefix _ _)
    have hle : (arenaOf .exhaustive capacity d).buffer ≤
        (arenaOf .exhaustive capacity (d ++ [str])).buffer :=
      buffer_arenaOf_mono (List.prefix_append _ _)
    exact buffer_arenaOf_exhaustive_ne hfull (Nat.le_antisymm (hstays ▸ hmono) hle)

theorem allLive_of_one (hone : (names strs).length ≤ 1) : AllLive lib capacity strs := by
  intro before str hpre
  have hlength : ((names before).enter str).length ≤ 1 := by
    obtain ⟨after, rfl⟩ := hpre
    rw [← names_concat]
    exact (names_append _ _).length_le.trans hone
  by_cases hempty : str = []
  · exact .inl hempty
  have hshort := (Dictionary.prefix_enter (names before) str).length_le.trans hlength
  refine .inr ⟨fun i _ hi => ?_, fun hnew i _ hi => ?_⟩
  · rw [bufferAt, List.take_of_length_le (by omega)]
  · rw [Dictionary.enter_of_new hempty hnew, List.length_append, List.length_singleton] at hlength
    omega

/-- With a library of which nothing more is known, no key in a buffer that is gone is read
exactly if the strings fit the first buffer, or there is only one. -/
theorem allLive_iff (capacity : Nat) (strs : List (List UInt8)) :
    (∀ lib, AllLive lib capacity strs) ↔
      (names strs).length ≤ 1 ∨ arenaBytes (names strs) ≤ capacity := by
  constructor
  · intro h
    by_contra hcon
    obtain ⟨hlong, hfull⟩ := not_or.mp hcon
    obtain hnil | ⟨d, str, hnames⟩ := List.eq_nil_or_concat (names strs)
    · simp [hnil] at hlong
    rw [List.concat_eq_append] at hnames
    have hne : d ≠ [] := by
      rintro rfl
      simp [hnames] at hlong
    have hnew : str ∉ d := by
      have hnodup := hnames ▸ names_nodup strs
      rw [List.nodup_append] at hnodup
      exact fun hmem => hnodup.2.2 str hmem str (List.mem_singleton_self _) rfl
    have hempty : str ≠ [] := (mem_names.mp (hnames ▸ List.mem_append_right d
      (List.mem_singleton_self str))).2
    obtain ⟨before, hpre, rfl⟩ := exists_first_call hnames
    rw [hnames] at hfull
    exact not_keysLive_exhaustive hne hempty hnew (Nat.lt_of_not_le hfull)
      (h .exhaustive before str hpre)
  · rintro (hone | hfits) lib
    · exact allLive_of_one hone
    · exact allLive_of_fits hfits

end Exhaustive

/-- For a given library, every string resolves at once and after every later call exactly if no
lookup reads a key in a buffer that is gone, there is a handle for every string and each one can
be read at its offset. Whatever the library, no such key is read exactly if the strings fit the
arena or there is only one; and while the offsets fit 32 bits, the rest is that no string has a
zero byte in it. -/
theorem resolve_undoes_intern_iff (capacity : Nat) (strs : List (List UInt8)) :
    (∀ lib, Undoes lib capacity strs ↔ AllLive lib capacity strs ∧
      (names strs).length < 2 ^ 32 ∧ Recoverable (names strs)) ∧
    ((∀ lib, AllLive lib capacity strs) ↔
      (names strs).length ≤ 1 ∨ arenaBytes (names strs) ≤ capacity) ∧
    (arenaBytes (names strs).dropLast < 2 ^ 32 →
      ((names strs).length < 2 ^ 32 ∧ Recoverable (names strs) ↔ ∀ str ∈ strs, 0 ∉ str)) := by
  refine ⟨fun lib => ⟨recoverable_of_undoes, fun h => undoes_of_recoverable h.1 h.2.1 h.2.2⟩,
    allLive_iff capacity strs, fun hlt => ?_⟩
  have hlength : (names strs).length < 2 ^ 32 := by
    have hle := two_mul_length_le_arenaBytes (d := (names strs).dropLast) fun str hmem =>
      (mem_names.mp (List.mem_of_mem_dropLast hmem)).2
    rw [List.length_dropLast] at hle
    omega
  rw [and_iff_right hlength, recoverable_iff_of_lt hlt]
  constructor
  · intro h str hmem
    by_cases hempty : str = []
    · rw [hempty]
      exact List.not_mem_nil
    · exact h str (mem_names.mpr ⟨hmem, hempty⟩)
  · intro h str hmem
    exact h str (mem_names.mp hmem).1

/-- Two strings and one of them again, in an arena of just their size. -/
theorem resolve_undoes_intern_again :
    Undoes .exhaustive 5 [[97], [98, 99], [97]] := by
  obtain ⟨hiff, hlive, hzero⟩ := resolve_undoes_intern_iff 5 [[97], [98, 99], [97]]
  exact (hiff .exhaustive).mpr ⟨hlive.mpr (.inr (by decide)) .exhaustive,
    (hzero (by decide)).mpr (by decide)⟩

/-- A string with a zero byte in the middle comes back without its end. -/
theorem resolve_cuts_at_zero :
    ((create 65536).intern .exhaustive [97, 0, 98]).bind (fun r => r.2.resolved r.1) =
      some [97] := by
  decide +kernel

end StringInterner

end Ume
