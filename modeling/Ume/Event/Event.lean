import Ume.Lib.ByteString

/-! The 128-byte event and its image in memory. The enumerations of the source
have a fixed underlying type and are read back from files, so every value of
that type can occur; they are words with named constants here. -/

namespace Ume

open ByteString

inductive Status where
  | kOk | kInvalidArgument | kNullPointer | kOutOfMemory | kCapacityExceeded | kNotFound
  | kAlreadyExists | kNotInitialized | kAlreadyInitialized | kIoError | kJournalCorrupted
  | kSerializationError | kFileNotFound | kInvalidState | kInvalidConfig
  deriving DecidableEq, Repr

abbrev EventCategory := UInt8
abbrev EventType := UInt16
abbrev EventPriority := UInt8
abbrev EventFlags := UInt32
abbrev TierClass := UInt8

namespace EventCategory

def kUnknown : EventCategory := 0

end EventCategory

namespace EventType

def kUnknown : EventType := 0x0000
def kObjectCreated : EventType := 0x0101
def kObjectDestroyed : EventType := 0x0102
def kMigrationCompleted : EventType := 0x0203

end EventType

namespace EventPriority

def kLow : EventPriority := 0
def kNormal : EventPriority := 1
def kCritical : EventPriority := 3

end EventPriority

namespace EventFlags

def kNone : EventFlags := 0
def kReplayed : EventFlags := (1 : UInt32) <<< 2

end EventFlags

namespace TierClass

def kVram : TierClass := 0
def kRam : TierClass := 1
def kNvme : TierClass := 4
def kRemote : TierClass := 5

end TierClass

structure EventHeader where
  id : UInt64 := 0
  timestamp : UInt64 := 0
  objectId : UInt64 := 0
  type : EventType := EventType.kUnknown
  category : EventCategory := EventCategory.kUnknown
  priority : EventPriority := EventPriority.kNormal
  flags : EventFlags := EventFlags.kNone
  sourceTier : UInt16 := 0xFFFF
  targetTier : UInt16 := 0xFFFF
  payloadSize : UInt32 := 0
  sequenceNum : UInt32 := 0
  reserved : Block 20 := Block.zero 20
  deriving DecidableEq

/-- The payload is a union; its members are views of the same 64 bytes. -/
structure Event where
  header : EventHeader := {}
  payload : Block 64 := Block.zero 64
  deriving DecidableEq

namespace EventHeader

def toBytes (h : EventHeader) : List UInt8 :=
  toLE 8 h.id.toNat ++ toLE 8 h.timestamp.toNat ++ toLE 8 h.objectId.toNat ++
    toLE 2 h.type.toNat ++ toLE 1 h.category.toNat ++ toLE 1 h.priority.toNat ++
    toLE 4 h.flags.toNat ++ toLE 2 h.sourceTier.toNat ++ toLE 2 h.targetTier.toNat ++
    toLE 4 h.payloadSize.toNat ++ toLE 4 h.sequenceNum.toNat ++ h.reserved.bytes

def ofBytes (bs : List UInt8) : EventHeader where
  id := readU64 bs 0
  timestamp := readU64 bs 8
  objectId := readU64 bs 16
  type := readU16 bs 24
  category := readU8 bs 26
  priority := readU8 bs 27
  flags := readU32 bs 28
  sourceTier := readU16 bs 32
  targetTier := readU16 bs 34
  payloadSize := readU32 bs 36
  sequenceNum := readU32 bs 40
  reserved := readBlock 20 bs 44

@[simp] theorem length_toBytes (h : EventHeader) : h.toBytes.length = 64 := by
  simp [toBytes]

theorem ofBytes_toBytes_append (h : EventHeader) (rest : List UInt8) :
    ofBytes (h.toBytes ++ rest) = h := by
  cases h
  simp only [ofBytes, EventHeader.mk.injEq]
  refine ⟨readU64_of_slice ?_, readU64_of_slice ?_, readU64_of_slice ?_, readU16_of_slice ?_,
    readU8_of_slice ?_, readU8_of_slice ?_, readU32_of_slice ?_, readU16_of_slice ?_,
    readU16_of_slice ?_, readU32_of_slice ?_, readU32_of_slice ?_, readBlock_of_slice ?_⟩
  all_goals
    simp (disch := simp) only [toBytes, List.append_assoc, slice_append_right, slice_append_left,
      slice_zero_self, length_toLE, Nat.reduceSub]

end EventHeader

namespace Event

def toBytes (e : Event) : List UInt8 := e.header.toBytes ++ e.payload.bytes

def ofBytes (bs : List UInt8) : Event where
  header := EventHeader.ofBytes bs
  payload := readBlock 64 bs 64

@[simp] theorem length_toBytes (e : Event) : e.toBytes.length = 128 := by
  simp [toBytes]

@[simp] theorem ofBytes_toBytes (e : Event) : ofBytes e.toBytes = e := by
  have hh := EventHeader.ofBytes_toBytes_append e.header e.payload.bytes
  have hp : readBlock 64 e.toBytes 64 = e.payload := by
    apply readBlock_of_slice
    rw [toBytes, slice_append_right (by simp), EventHeader.length_toBytes, Nat.sub_self,
      slice_zero_self e.payload.length_bytes]
  rw [ofBytes, hp, toBytes, hh]

theorem toBytes_injective : Function.Injective toBytes := by
  intro e e' h
  rw [← ofBytes_toBytes e, h, ofBytes_toBytes]

/-- The replay loop marks every event before dispatching it. -/
def replayed (e : Event) : Event :=
  { e with header := { e.header with flags := e.header.flags ||| EventFlags.kReplayed } }

def objectSizeBytes (e : Event) : UInt64 := readU64 e.payload.bytes 0
def objectPreferredTier (e : Event) : TierClass := readU8 e.payload.bytes 12

end Event

theorem toNat_add_one {a : UInt64} (h : a.toNat + 1 < 2 ^ 64) : (a + 1).toNat = a.toNat + 1 := by
  rw [UInt64.toNat_add]
  exact Nat.mod_eq_of_lt h

end Ume
