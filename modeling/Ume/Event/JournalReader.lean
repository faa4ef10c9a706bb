import Mathlib.Data.String.Basic
import Ume.Event.JournalWriter
import Ume.Lib.Loop

/-! The journal reader. `readNextStep` is one pass of the loop of `read_next`,
with every way it can advance; `readNext` runs it with fuel. -/

namespace Ume

open ByteString

structure JournalReaderStats where
  segmentsRead : UInt64 := 0
  recordsRead : UInt64 := 0
  bytesRead : UInt64 := 0
  corruptedRecordsSkipped : UInt64 := 0
  deriving DecidableEq

structure JournalReader where
  segmentPaths : List String := []
  currentSegmentIndex : Nat := 0
  currentMmap : Option (List UInt8) := none
  currentOffset : Nat := segmentHeaderSize
  stats : JournalReaderStats := {}
  isOpen : Bool := false

/-- What a call of `read_next` gives back: `event` is set when the output
argument is assigned. -/
structure ReadResult where
  status : Status
  event : Option Event
  reader : JournalReader

namespace JournalReader

/-- The mapped bytes, none when nothing is mapped. -/
def data (r : JournalReader) : List UInt8 := r.currentMmap.getD []

def close (r : JournalReader) : JournalReader :=
  { r with
    segmentPaths := [], currentSegmentIndex := 0, currentMmap := none
    currentOffset := segmentHeaderSize, isOpen := false }

def loadCurrentSegment (dir : Directory) (r : JournalReader) : Status × JournalReader :=
  match r.segmentPaths[r.currentSegmentIndex]? with
  | none => (.kNotFound, r)
  | some path =>
    match MmapFile.openReadOnly dir path with
    | .error status => (status, { r with currentMmap := none })
    | .ok bytes =>
      let r := { r with currentMmap := some bytes }
      if bytes.length < segmentHeaderSize then (.kJournalCorrupted, r)
      else
        let header := JournalSegmentHeader.ofBytes bytes
        if header.magic ≠ 0x554D454A then (.kJournalCorrupted, r)
        else if computeCrc32 (bytes.take 32) ≠ header.headerCrc32 then (.kJournalCorrupted, r)
        else
          (.kOk, { r with
            currentOffset := segmentHeaderSize
            stats := { r.stats with segmentsRead := r.stats.segmentsRead + 1 }
            isOpen := true })

/-- `openSegment` and `openDirectory` differ only in the paths they set. -/
def openPaths (dir : Directory) (r : JournalReader) (paths : List String) :
    Status × JournalReader :=
  loadCurrentSegment dir { r.close with segmentPaths := paths }

def openSegment (dir : Directory) (r : JournalReader) (segmentPath : String) :
    Status × JournalReader :=
  openPaths dir r [segmentPath]

/-- `entry.path().extension() == ".umej"`: a name that is all extension has none. -/
def hasUmejExtension (name : String) : Bool :=
  ".umej".toList.isSuffixOf name.toList && name ≠ ".umej"

/-- The regular `.umej` files of the directory, in any order. -/
def umejFiles (dir : Directory) : List String :=
  (dir.entries.filter fun entry => entry.2.isRegularFile && hasUmejExtension entry.1).map
    Sigma.fst

def segmentPathsOf (dir : Directory) : List String :=
  (umejFiles dir).mergeSort (fun a b => decide (a ≤ b))

def openDirectory (dir : Directory) (r : JournalReader) : Status × JournalReader :=
  if umejFiles dir = [] then (.kFileNotFound, r.close)
  else openPaths dir r (segmentPathsOf dir)

/-- `current_segment_index_++`. -/
def nextSegment (r : JournalReader) : JournalReader :=
  { r with currentSegmentIndex := r.currentSegmentIndex + 1 }

/-- Both ends of a segment, by its size and by its zero padding, go on to the
next segment, and a segment that does not load ends the journal. -/
def advanceSegment (dir : Directory) (r : JournalReader) : JournalReader ⊕ ReadResult :=
  match loadCurrentSegment dir r.nextSegment with
  | (.kOk, r) => .inl r
  | (_, r) => .inr ⟨.kNotFound, none, r⟩

def skip (r : JournalReader) (n : Nat) : JournalReader :=
  { r with
    currentOffset := u64 (r.currentOffset + n)
    stats := { r.stats with
      corruptedRecordsSkipped := r.stats.corruptedRecordsSkipped + 1 } }

def deliver (r : JournalReader) (recordSize : UInt32) : JournalReader :=
  { r with
    currentOffset := u64 (r.currentOffset + recordSize.toNat)
    stats := { r.stats with
      recordsRead := r.stats.recordsRead + 1
      bytesRead := r.stats.bytesRead + recordSize.toUInt64 } }

def readNextStep (dir : Directory) (r : JournalReader) : JournalReader ⊕ ReadResult :=
  if u64 (r.currentOffset + totalRecordSize) > r.data.length then advanceSegment dir r
  else
    let record := r.data.drop r.currentOffset
    let header := JournalRecordHeader.ofBytes record
    if header.magic = 0 ∧ header.recordSize = 0 then advanceSegment dir r
    else if header.magic ≠ 0x52454344 then .inl (r.skip 1)
    else if computeCrc32 (record.take 20) ≠ header.headerCrc32 then .inl (r.skip 8)
    else
      let payload := slice record 32 128
      if computeCrc32 payload ≠ header.payloadCrc32 then .inl (r.skip header.recordSize.toNat)
      else
        match EventSerializer.deserialize (some payload) with
        | .error _ => .inl (r.skip header.recordSize.toNat)
        | .ok event => .inr ⟨.kOk, some event, r.deliver header.recordSize⟩

def readNext (dir : Directory) (fuel : Nat) (r : JournalReader) : Option ReadResult :=
  if !r.isOpen then some ⟨.kNotInitialized, none, r⟩
  else Loop.run (readNextStep dir) fuel r

end JournalReader

end Ume
