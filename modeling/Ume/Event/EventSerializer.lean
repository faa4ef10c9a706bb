import Ume.Event.Event

/-! The checksum, validation and deserialization of event buffers. A buffer
argument is `none` for a null pointer and otherwise the bytes it points to. -/

namespace Ume

open ByteString

def crc32TableStep (crc : UInt32) : UInt32 :=
  if crc &&& 1 ≠ 0 then (0xED888320 : UInt32) ^^^ (crc >>> 1) else crc >>> 1

def generateCrc32Table : List UInt32 :=
  (List.range 256).map fun i => crc32TableStep^[8] (UInt32.ofNat i)

def kCrc32Table : List UInt32 := generateCrc32Table

def crc32Update (crc : UInt32) (byte : UInt8) : UInt32 :=
  let lookup := ((crc ^^^ byte.toUInt32) &&& 0xFF).toUInt8
  (crc >>> 8) ^^^ kCrc32Table.getD lookup.toNat 0

def computeCrc32 (data : List UInt8) : UInt32 :=
  if data = [] then 0 else data.foldl crc32Update 0xFFFFFFFF ^^^ 0xFFFFFFFF

namespace EventSerializer

def validate : Option (List UInt8) → Status
  | none => .kNullPointer
  | some buffer =>
    if buffer.length < 128 then .kSerializationError
    else
      let header := EventHeader.ofBytes buffer
      if header.category = EventCategory.kUnknown ∧ header.type = EventType.kUnknown then
        if header.id = 0 ∧ header.payloadSize = 0 then .kOk else .kSerializationError
      else if header.payloadSize > 64 then .kSerializationError
      else .kOk

def deserialize (buffer : Option (List UInt8)) : Except Status Event :=
  match validate buffer with
  | .kOk => .ok (Event.ofBytes (buffer.getD []))
  | status => .error status

/-- The events that `validate` accepts in their memory image. -/
def accepts (e : Event) : Bool := validate (some e.toBytes) = .kOk

theorem accepts_iff (e : Event) :
    accepts e = true ↔
      if e.header.category = EventCategory.kUnknown ∧ e.header.type = EventType.kUnknown then
        e.header.id = 0 ∧ e.header.payloadSize = 0
      else e.header.payloadSize ≤ 64 := by
  have hh : EventHeader.ofBytes e.toBytes = e.header :=
    EventHeader.ofBytes_toBytes_append e.header e.payload.bytes
  simp only [accepts, validate, decide_eq_true_eq, Event.length_toBytes, hh]
  split_ifs <;> simp_all

theorem accepts_blank : accepts {} = true := (accepts_iff {}).mpr (by decide)

theorem validate_blank : validate (some ({} : Event).toBytes) = .kOk :=
  of_decide_eq_true accepts_blank

theorem deserialize_of_validate {buffer : List UInt8} (h : validate (some buffer) = .kOk) :
    deserialize (some buffer) = .ok (Event.ofBytes buffer) := by
  simp [deserialize, h]

theorem deserialize_toBytes_of_accepts {e : Event} (h : accepts e = true) :
    deserialize (some e.toBytes) = .ok e := by
  rw [deserialize_of_validate (of_decide_eq_true h), Event.ofBytes_toBytes]

theorem deserialize_toBytes_of_rejects {e : Event} (h : accepts e = false) :
    ∃ status, deserialize (some e.toBytes) = .error status := by
  have hv : validate (some e.toBytes) ≠ .kOk := of_decide_eq_false h
  refine ⟨validate (some e.toBytes), ?_⟩
  rw [deserialize]
  split
  · exact False.elim (hv ‹_›)
  · rfl

theorem validate_of_deserialize {buffer : List UInt8} {e : Event}
    (h : deserialize (some buffer) = .ok e) :
    validate (some buffer) = .kOk ∧ e = Event.ofBytes buffer := by
  unfold deserialize at h
  split at h
  · rename_i hv
    cases h
    exact ⟨hv, rfl⟩
  · cases h

theorem accepts_of_deserialize {buffer : List UInt8} {e : Event}
    (h : deserialize (some buffer) = .ok e) : accepts e = true := by
  obtain ⟨hv, rfl⟩ := validate_of_deserialize h
  rw [accepts_iff]
  unfold validate at hv
  dsimp only at hv
  split_ifs at hv with hlen hunknown hblank hsize
  · exact (if_pos hunknown).mpr hblank
  · exact (if_neg hunknown).mpr (UInt32.not_lt.mp hsize)

end EventSerializer

end Ume
