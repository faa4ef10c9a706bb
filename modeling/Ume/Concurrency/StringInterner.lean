import Ume.Lib.ByteString

/-! The string interner. All of `intern` runs under one mutex, so calls happen one
after the other. The keys of the map are views into the arena, whose buffer is
another one after an insertion that exceeds its capacity; reading a view into a
buffer that is gone is undefined, and so is the result. -/

namespace Ume

open ByteString

abbrev InternedString := UInt32

def InternedString.kNull : InternedString := 0

/-- What a node of the hash map shows of its key without reading the arena: the hash code
that the node keeps, and the length of the view. -/
structure KeyShape where
  code : UInt64
  length : Nat
  deriving DecidableEq

/-- What the standard library leaves open: the hash of a string, the capacity that a vector
takes when it has to grow to a size, and which keys `find` and `operator[]` read, in which
order, given the shape of the argument and those of all nodes. A small map may be searched
from end to end. No key that may be equal to the argument is passed by. -/
structure Library where
  hash : List UInt8 → UInt64
  grow : Nat → Nat → Nat
  find : KeyShape → List KeyShape → List Nat
  subscript : KeyShape → List KeyShape → List Nat
  le_grow : ∀ capacity size, size ≤ grow capacity size
  mem_find : ∀ shape shapes (i : Nat), shapes[i]? = some shape → i ∈ find shape shapes
  mem_subscript : ∀ shape shapes (i : Nat), shapes[i]? = some shape → i ∈ subscript shape shapes

/-- A `std::vector<char>`, with the identity of its buffer. -/
structure CharVector where
  buffer : Nat := 0
  bytes : List UInt8 := []
  capacity : Nat := 0

/-- A `std::string_view` into a buffer. -/
structure ArenaView where
  buffer : Nat
  offset : Nat
  length : Nat

namespace CharVector

def reserve (v : CharVector) (capacity : Nat) : CharVector :=
  if capacity ≤ v.capacity then v else { v with buffer := v.buffer + 1, capacity }

def append (lib : Library) (v : CharVector) (data : List UInt8) : CharVector :=
  let bytes := v.bytes ++ data
  if bytes.length ≤ v.capacity then { v with bytes }
  else { buffer := v.buffer + 1, bytes, capacity := lib.grow v.capacity bytes.length }

/-- The elements go, the buffer stays. -/
def clear (v : CharVector) : CharVector := { v with bytes := [] }

def view (v : CharVector) (key : ArenaView) : Option (List UInt8) :=
  if key.buffer = v.buffer ∧ key.offset + key.length ≤ v.bytes.length then
    some (slice v.bytes key.offset key.length)
  else none

/-- The view of the C string at an offset; `strlen` must not run out of the vector. -/
def cString (v : CharVector) (offset : Nat) : Option ArenaView :=
  let length := ((v.bytes.drop offset).takeWhile (· ≠ 0)).length
  if offset + length < v.bytes.length then some ⟨v.buffer, offset, length⟩ else none

end CharVector

/-- A node of the hash map, with the hash code it keeps. -/
structure InternEntry where
  hash : UInt64
  key : ArenaView
  handle : InternedString

def InternEntry.shape (entry : InternEntry) : KeyShape := ⟨entry.hash, entry.key.length⟩

def Library.shape (lib : Library) (str : List UInt8) : KeyShape := ⟨lib.hash str, str.length⟩

/-- The first of some nodes whose key reads as `str`. -/
def firstEqual (arena : CharVector) (str : List UInt8) (map : List InternEntry) :
    List Nat → Option (Option Nat)
  | [] => some none
  | i :: nodes =>
    match map[i]? with
    | none => firstEqual arena str map nodes
    | some entry =>
      match arena.view entry.key with
      | none => none
      | some bytes => if bytes = str then some (some i) else firstEqual arena str map nodes

/-- `map_.find(str)`. -/
def findEntry (lib : Library) (arena : CharVector) (str : List UInt8) (map : List InternEntry) :
    Option (Option InternedString) :=
  (firstEqual arena str map (lib.find (lib.shape str) (map.map InternEntry.shape))).map fun node =>
    node.bind fun i => map[i]?.map InternEntry.handle

/-- `map_[key] = handle`, where `key` reads as `str`. -/
def assignEntry (lib : Library) (arena : CharVector) (str : List UInt8) (key : ArenaView)
    (handle : InternedString) (map : List InternEntry) : Option (List InternEntry) :=
  (firstEqual arena str map
    (lib.subscript (lib.shape str) (map.map InternEntry.shape))).map fun
      | some i => map.modify i fun entry => { entry with handle }
      | none => map ++ [{ hash := lib.hash str, key, handle }]

structure StringInterner where
  arena : CharVector
  map : List InternEntry := []
  offsets : List UInt32 := [0]

namespace StringInterner

def create (initialArenaCapacity : Nat) : StringInterner :=
  { arena := CharVector.reserve {} initialArenaCapacity }

def intern (lib : Library) (s : StringInterner) (str : List UInt8) :
    Option (InternedString × StringInterner) :=
  if str = [] then some (InternedString.kNull, s)
  else
    match findEntry lib s.arena str s.map with
    | none => none
    | some (some handle) => some (handle, s)
    | some none =>
      let offset := UInt32.ofNat s.arena.bytes.length
      let arena := (s.arena.append lib str).append lib [0]
      let key : ArenaView := ⟨arena.buffer, offset.toNat, str.length⟩
      let handle := UInt32.ofNat s.offsets.length
      match arena.view key with
      | none => none
      | some bytes =>
        (assignEntry lib arena bytes key handle s.map).map fun map =>
          (handle, { arena, map, offsets := s.offsets ++ [offset] })

/-- The result is the view of a string, or the empty view, which has no place in the
arena. -/
def resolve (s : StringInterner) (handle : InternedString) : Option (Option ArenaView) :=
  if handle = 0 then some none
  else
    match s.offsets[handle.toNat]? with
    | none => some none
    | some offset => (s.arena.cString offset.toNat).map some

/-- What the result of `resolve` reads as. -/
def resolved (s : StringInterner) (handle : InternedString) : Option (List UInt8) :=
  match s.resolve handle with
  | none => none
  | some none => some []
  | some (some view) => s.arena.view view

def uniqueStringCount (s : StringInterner) : Nat := s.map.length

def totalArenaBytes (s : StringInterner) : Nat := s.arena.bytes.length

def clear (s : StringInterner) : StringInterner :=
  { arena := s.arena.clear, map := [], offsets := [0] }

/-- One call of `intern` after the other. -/
def internAll (lib : Library) (s : StringInterner) :
    List (List UInt8) → Option (List InternedString × StringInterner)
  | [] => some ([], s)
  | str :: strs =>
    match s.intern lib str with
    | none => none
    | some (handle, s) =>
      match s.internAll lib strs with
      | none => none
      | some (handles, s) => some (handle :: handles, s)

end StringInterner

end Ume
