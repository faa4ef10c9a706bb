import Ume.Event.EventSerializer
import Ume.Lib.Decimal
import Ume.Platform.MmapFile

/-! The journal writer, called from one thread. Offsets are 64-bit words kept
as naturals; a store outside the mapping has no result. -/

namespace Ume

open ByteString

/-- Unsigned 64-bit arithmetic on naturals. -/
def u64 (n : Nat) : Nat := n % 2 ^ 64

theorem u64_of_lt {n : Nat} (h : n < 2 ^ 64) : u64 n = n := Nat.mod_eq_of_lt h

structure JournalSegmentHeader where
  magic : UInt32 := 0x554D454A
  versionMajor : UInt16 := 1
  versionMinor : UInt16 := 0
  segmentId : UInt64 := 0
  createdTimestamp : UInt64 := 0
  segmentSizeBytes : UInt64 := 0
  headerCrc32 : UInt32 := 0
  reserved : Block 20 := Block.zero 20

namespace JournalSegmentHeader

/-- The alignment of the source structure adds eight bytes after `reserved`. -/
def toBytes (h : JournalSegmentHeader) : List UInt8 :=
  toLE 4 h.magic.toNat ++ toLE 2 h.versionMajor.toNat ++ toLE 2 h.versionMinor.toNat ++
    toLE 8 h.segmentId.toNat ++ toLE 8 h.createdTimestamp.toNat ++
    toLE 8 h.segmentSizeBytes.toNat ++ toLE 4 h.headerCrc32.toNat ++ h.reserved.bytes ++
    (Block.zero 8).bytes

def ofBytes (bs : List UInt8) : JournalSegmentHeader where
  magic := readU32 bs 0
  versionMajor := readU16 bs 4
  versionMinor := readU16 bs 6
  segmentId := readU64 bs 8
  createdTimestamp := readU64 bs 16
  segmentSizeBytes := readU64 bs 24
  headerCrc32 := readU32 bs 32
  reserved := readBlock 20 bs 36

end JournalSegmentHeader

structure JournalRecordHeader where
  magic : UInt32 := 0x52454344
  recordSize : UInt32 := 0
  sequenceNum : UInt64 := 0
  payloadCrc32 : UInt32 := 0
  headerCrc32 : UInt32 := 0
  reserved : Block 8 := Block.zero 8

namespace JournalRecordHeader

def toBytes (h : JournalRecordHeader) : List UInt8 :=
  toLE 4 h.magic.toNat ++ toLE 4 h.recordSize.toNat ++ toLE 8 h.sequenceNum.toNat ++
    toLE 4 h.payloadCrc32.toNat ++ toLE 4 h.headerCrc32.toNat ++ h.reserved.bytes

def ofBytes (bs : List UInt8) : JournalRecordHeader where
  magic := readU32 bs 0
  recordSize := readU32 bs 4
  sequenceNum := readU64 bs 8
  payloadCrc32 := readU32 bs 16
  headerCrc32 := readU32 bs 20
  reserved := readBlock 8 bs 24

end JournalRecordHeader

/-- `sizeof(JournalSegmentHeader)`. -/
def segmentHeaderSize : Nat := 64

/-- `sizeof(JournalRecordHeader) + sizeof(Event)`. -/
def totalRecordSize : Nat := 160

/-- The clock reading and the fate of `open_read_write` when the segment with
a given id is opened; a session opens every id at most once. -/
structure SessionEnv where
  now : Nat → UInt64
  openFault : Nat → Option OpenFault

structure JournalWriter where
  segmentSizeBytes : Nat := 64 * 1024 * 1024
  currentSegmentId : Nat := 0
  currentMmap : Option String := none
  writeOffset : Nat := segmentHeaderSize
  sequenceCounter : UInt64 := 0
  totalEventsWritten : UInt64 := 0
  totalBytesWritten : UInt64 := 0
  isOpen : Bool := false

namespace JournalWriter

def buildSegmentPath (segmentId : Nat) : String :=
  "segment_" ++ String.ofList (Decimal.padded 6 segmentId) ++ ".umej"

def segmentHeader (env : SessionEnv) (segmentId segmentSizeBytes : Nat) : JournalSegmentHeader :=
  let header : JournalSegmentHeader :=
    { segmentId := UInt64.ofNat segmentId, createdTimestamp := env.now segmentId,
      segmentSizeBytes := UInt64.ofNat segmentSizeBytes }
  { header with headerCrc32 := computeCrc32 (header.toBytes.take 32) }

/-- A failed open leaves the writer unmapped, and an offset that is not reset. -/
def rollSegmentLocked (env : SessionEnv) (w : JournalWriter) (dir : Directory) :
    Option (Status × JournalWriter × Directory) :=
  let path := buildSegmentPath w.currentSegmentId
  match MmapFile.openReadWrite (env.openFault w.currentSegmentId) dir path w.segmentSizeBytes with
  | (.kOk, dir) => do
    let header := segmentHeader env w.currentSegmentId w.segmentSizeBytes
    let dir ← MmapFile.store dir (some path) 0 header.toBytes
    return (.kOk, { w with currentMmap := some path, writeOffset := segmentHeaderSize }, dir)
  | (status, dir) => some (status, { w with currentMmap := none }, dir)

/-- `open` starts at segment 0 whatever the directory holds, and does not
reset the sequence counter. -/
def «open» (env : SessionEnv) (w : JournalWriter) (dir : Directory) (segmentSizeBytes : Nat) :
    Option (Status × JournalWriter × Directory) :=
  if w.isOpen then some (.kAlreadyInitialized, w, dir)
  else if segmentSizeBytes < 1024 * 1024 then some (.kInvalidArgument, w, dir)
  else do
    let w := { w with segmentSizeBytes := segmentSizeBytes, currentSegmentId := 0 }
    match ← rollSegmentLocked env w dir with
    | (.kOk, w, dir) => return (.kOk, { w with isOpen := true }, dir)
    | (status, w, dir) => return (status, w, dir)

def recordHeader (seq : UInt64) (event : Event) : JournalRecordHeader :=
  let header : JournalRecordHeader :=
    { recordSize := UInt32.ofNat totalRecordSize, sequenceNum := seq,
      payloadCrc32 := computeCrc32 event.toBytes }
  { header with headerCrc32 := computeCrc32 (header.toBytes.take 20) }

/-- The copy of a record into the current mapping. -/
def copyRecord (w : JournalWriter) (dir : Directory) (seq : UInt64) (event : Event)
    (offset : Nat) : Option Directory := do
  let dir ← MmapFile.store dir w.currentMmap offset (recordHeader seq event).toBytes
  MmapFile.store dir w.currentMmap (offset + 32) event.toBytes

/-- The end of `append`, once the offset is known. -/
def writeRecord (w : JournalWriter) (dir : Directory) (event : Event) (offset : Nat) :
    Option (Except Status UInt64 × JournalWriter × Directory) := do
  let seq := w.sequenceCounter + 1
  let dir ← copyRecord w dir seq event offset
  return (.ok seq,
    { w with
      sequenceCounter := seq
      totalEventsWritten := w.totalEventsWritten + 1
      totalBytesWritten := w.totalBytesWritten + UInt64.ofNat totalRecordSize }, dir)

/-- `write_offset_.fetch_add(total_record_size)`, without the value it returns. -/
def reserve (w : JournalWriter) : JournalWriter :=
  { w with writeOffset := u64 (w.writeOffset + totalRecordSize) }

/-- Whether a record at this offset needs another segment. -/
def exceeds (w : JournalWriter) (offset : Nat) : Bool :=
  u64 (offset + totalRecordSize) > w.segmentSizeBytes

def append (env : SessionEnv) (w : JournalWriter) (dir : Directory) (event : Event) :
    Option (Except Status UInt64 × JournalWriter × Directory) :=
  if !w.isOpen then some (.error .kNotInitialized, w, dir)
  else
    let offset := w.writeOffset
    let w := w.reserve
    if w.exceeds offset then
      if w.exceeds w.writeOffset then do
        let w := { w with currentSegmentId := w.currentSegmentId + 1 }
        match ← rollSegmentLocked env w dir with
        | (.kOk, w, dir) => writeRecord w.reserve dir event w.writeOffset
        | (status, w, dir) => return (.error status, w, dir)
      else writeRecord w.reserve dir event w.writeOffset
    else writeRecord w dir event offset

def close (w : JournalWriter) : JournalWriter :=
  if !w.isOpen then w else { w with currentMmap := none, isOpen := false }

/-- The calls `append(e)` for the events of a list in turn. -/
def appendAll (env : SessionEnv) : JournalWriter → Directory → List Event →
    Option (List (Except Status UInt64) × JournalWriter × Directory)
  | w, dir, [] => some ([], w, dir)
  | w, dir, e :: es => do
    let (result, w, dir) ← append env w dir e
    let (results, w, dir) ← appendAll env w dir es
    return (result :: results, w, dir)

/-- One writer session: `open`, the appends, `close`. -/
def session (env : SessionEnv) (w : JournalWriter) (dir : Directory) (segmentSizeBytes : Nat)
    (events : List Event) :
    Option (Status × List (Except Status UInt64) × JournalWriter × Directory) := do
  let (status, w, dir) ← «open» env w dir segmentSizeBytes
  let (results, w, dir) ← appendAll env w dir events
  return (status, results, w.close, dir)

end JournalWriter

end Ume
