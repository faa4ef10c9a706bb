import Ume.Concurrency.InternerResolve
import Ume.Lib.Simulation

/-! The interner as its callers see it: a list of strings, numbered from one, that starts
again with every `clear`. Every call of the interner is under its mutex, so the calls of any
number of threads are one list. -/

namespace Ume

inductive InternerCall where
  | intern (str : List UInt8)
  | resolve (handle : InternedString)
  | uniqueStringCount
  | totalArenaBytes
  | clear

inductive InternerAnswer where
  | handle (handle : InternedString)
  | text (str : List UInt8)
  | size (n : Nat)
  | done
deriving DecidableEq

namespace Dictionary

/-- A handle that stands for no string reads as the empty one. -/
def lookup (d : Dictionary) (handle : InternedString) : List UInt8 :=
  if handle = 0 then [] else (d[handle.toNat - 1]?).getD []

/-- What the calls are for. Strings that do not fit, or have a zero byte in them, are left
open. -/
def call (capacity : Nat) (d : Dictionary) : InternerCall → Option (InternerAnswer × Dictionary)
  | .intern str =>
    if arenaBytes (d.enter str) ≤ capacity ∧ arenaBytes (d.enter str) < 2 ^ 32 ∧ 0 ∉ str then
      some (.handle ((d.enter str).number str), d.enter str)
    else none
  | .resolve handle => some (.text (d.lookup handle), d)
  | .uniqueStringCount => some (.size d.length, d)
  | .totalArenaBytes => some (.size (arenaBytes d), d)
  | .clear => some (.done, [])

end Dictionary

namespace StringInterner

variable {lib : Library} {s : StringInterner} {capacity : Nat} {str : List UInt8}

def call (lib : Library) (s : StringInterner) :
    InternerCall → Option (InternerAnswer × StringInterner)
  | .intern str => (s.intern lib str).map fun r => (.handle r.1, r.2)
  | .resolve handle => (s.resolved handle).map fun text => (.text text, s)
  | .uniqueStringCount => some (.size s.uniqueStringCount, s)
  | .totalArenaBytes => some (.size s.totalArenaBytes, s)
  | .clear => some (.done, s.clear)

/-- The interner has the strings of a dictionary that may be told apart and read back, all of
them in its first buffer. -/
structure Implements (lib : Library) (capacity : Nat) (d : Dictionary) (s : StringInterner) :
    Prop where
  holds : s = holding lib capacity d
  distinct : d.Nodup
  fits : arenaBytes d ≤ capacity
  small : arenaBytes d < 2 ^ 32
  zero_free : ∀ str ∈ d, 0 ∉ str

theorem implements_create (lib : Library) (capacity : Nat) :
    Implements lib capacity [] (create capacity) where
  holds := rfl
  distinct := List.nodup_nil
  fits := Nat.zero_le _
  small := by decide
  zero_free := by simp

namespace Implements

variable {d d' : Dictionary}

theorem dropLast_lt (h : Implements lib capacity d s) : arenaBytes d.dropLast < 2 ^ 32 :=
  (arenaBytes_mono (List.dropLast_prefix d)).trans_lt h.small

theorem intern (h : Implements lib capacity d s) (hfits : arenaBytes (d.enter str) ≤ capacity)
    (hlt : arenaBytes (d.enter str) < 2 ^ 32) (hzero : 0 ∉ str) :
    ∃ t, s.intern lib str = some ((d.enter str).number str, t) ∧
      Implements lib capacity (d.enter str) t := by
  have hkeyed : Keyed (d.enter str) :=
    keyed_of_lt ((arenaBytes_mono (List.dropLast_prefix _)).trans_lt hlt)
  rw [h.holds]
  refine ⟨_, (intern_holding h.distinct hkeyed).mpr ⟨keysLive_of_fits hfits, rfl⟩, rfl, ?_, hfits,
    hlt, ?_⟩
  · rw [Dictionary.enter]
    split_ifs with hold
    · exact h.distinct
    · rw [← List.concat_eq_append]
      exact h.distinct.concat (not_or.mp hold).2
  · rw [Dictionary.enter]
    split_ifs with hold
    · exact h.zero_free
    · exact List.forall_mem_append.mpr ⟨h.zero_free, List.forall_mem_singleton.mpr hzero⟩

/-- Any handle is read as the dictionary reads it, also one from before a `clear`. -/
theorem resolved (h : Implements lib capacity d s) (handle : InternedString) :
    s.resolved handle = some (d.lookup handle) := by
  by_cases hnull : handle = 0
  · subst hnull
    rfl
  have hpos : handle.toNat ≠ 0 := fun h => hnull (UInt32.toNat_inj.mp h)
  rw [Dictionary.lookup, if_neg hnull, h.holds]
  cases hget : d[handle.toNat - 1]? with
  | none =>
    have hbehind := List.getElem?_eq_none_iff.mp hget
    have hoffset : (holding lib capacity d).offsets[handle.toNat]? = none := by
      rw [List.getElem?_eq_none_iff, length_offsets_holding]
      omega
    simp [StringInterner.resolved, resolve, hnull, hoffset]
  | some str =>
    have hhandle : UInt32.ofNat (handle.toNat - 1 + 1) = handle := by
      rw [Nat.sub_add_cancel (Nat.pos_of_ne_zero hpos), UInt32.ofNat_toNat]
    have hread := resolved_eq_cStringAt lib capacity
      (bytes_arenaOf lib capacity d) rfl ((length_le_arenaBytes d).trans_lt h.small) hget
    rw [hhandle] at hread
    have hstr := (recoverable_iff_of_lt h.dropLast_lt).mpr h.zero_free _ str hget
    rw [Option.getD_some, ← hstr]
    exact hread

/-- The buffer stays, with nothing in it. -/
theorem clear (h : Implements lib capacity d s) : Implements lib capacity [] s.clear := by
  have hclear : s.clear = create capacity := by
    rw [h.holds, StringInterner.clear, holding, arenaOf_of_fits h.fits, create, CharVector.clear]
    exact congrArg (fun bytes => StringInterner.mk { CharVector.reserve {} capacity with bytes }
      [] [0]) (CharVector.bytes_reserve capacity).symm
  rw [hclear]
  exact implements_create lib capacity

theorem call {c : InternerCall} {b : InternerAnswer} (h : Implements lib capacity d s)
    (hc : d.call capacity c = some (b, d')) :
    ∃ s', s.call lib c = some (b, s') ∧ Implements lib capacity d' s' := by
  cases c with
  | intern str =>
    obtain ⟨⟨hfits, hlt, hzero⟩, heq⟩ := Option.ite_none_right_eq_some.mp hc
    obtain ⟨rfl, rfl⟩ := Prod.mk.inj (Option.some.inj heq)
    obtain ⟨t, ht, himpl⟩ := h.intern hfits hlt hzero
    refine ⟨t, ?_, himpl⟩
    rw [StringInterner.call, ht, Option.map_some]
  | resolve handle =>
    obtain ⟨rfl, rfl⟩ := Prod.mk.inj (Option.some.inj hc)
    refine ⟨s, ?_, h⟩
    rw [StringInterner.call, h.resolved, Option.map_some]
  | uniqueStringCount =>
    obtain ⟨rfl, rfl⟩ := Prod.mk.inj (Option.some.inj hc)
    refine ⟨s, ?_, h⟩
    rw [StringInterner.call, uniqueStringCount, h.holds, holding, List.length_mapIdx]
  | totalArenaBytes =>
    obtain ⟨rfl, rfl⟩ := Prod.mk.inj (Option.some.inj hc)
    refine ⟨s, ?_, h⟩
    rw [StringInterner.call, totalArenaBytes, h.holds, holding, bytes_arenaOf, length_arenaText]
  | clear =>
    obtain ⟨rfl, rfl⟩ := Prod.mk.inj (Option.some.inj hc)
    exact ⟨s.clear, rfl, h.clear⟩

end Implements

/-- Whatever calls are made, in as many rounds between calls of `clear` as there are: where the
dictionary has answers, the interner is defined and has the same ones, and its arena is still
the buffer it was created with. -/
theorem interner_refines_dictionary (lib : Library) {capacity : Nat} {calls : List InternerCall}
    {bs : List InternerAnswer} {d : Dictionary}
    (h : Simulation.answers (Dictionary.call capacity) [] calls = some (bs, d)) :
    ∃ s, Simulation.answers (call lib) (create capacity) calls = some (bs, s) ∧
      s.arena.buffer = (create capacity).arena.buffer ∧ s.totalArenaBytes = arenaBytes d := by
  have hcall : ∀ d s c b d', Implements lib capacity d s →
      Dictionary.call capacity d c = some (b, d') → ∃ s', call lib s c = some (b, s') ∧
        Implements lib capacity d' s' :=
    fun _ _ _ _ _ himpl hc => himpl.call hc
  obtain ⟨s, hs, himpl⟩ :=
    Simulation.answers_of_simulation hcall (implements_create lib capacity) h
  refine ⟨s, hs, ?_, ?_⟩
  · rw [himpl.holds]
    exact buffer_arenaOf_of_fits himpl.fits
  · rw [totalArenaBytes, himpl.holds, holding, bytes_arenaOf, length_arenaText]

/-- A handle from before a `clear` stands for a string of the next round, or for none. -/
theorem interner_refines_dictionary_stale : ∃ s,
    Simulation.answers (call .exhaustive) (create 8)
      [.intern [97, 98], .intern [99], .clear, .intern [100], .resolve 1, .resolve 2] =
        some ([.handle 1, .handle 2, .done, .handle 1, .text [100], .text []], s) := by
  obtain ⟨s, hs, -⟩ := @interner_refines_dictionary .exhaustive 8
    [.intern [97, 98], .intern [99], .clear, .intern [100], .resolve 1, .resolve 2] _ _ rfl
  exact ⟨s, hs⟩

end StringInterner

end Ume
