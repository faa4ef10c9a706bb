import Ume.Event.JournalReader

/-! Replaying a journal into a dispatcher. The dispatcher is any state with a
function that delivers one event to it. -/

namespace Ume

structure ReplayStats where
  segmentsReplayed : UInt64 := 0
  eventsReplayed : UInt64 := 0
  corruptedRecordsSkipped : UInt64 := 0
  bytesRead : UInt64 := 0
  deriving DecidableEq

namespace ReplayEngine

variable {δ : Type*} (dispatch : δ → Event → δ)

def replayLoop (dir : Directory) :
    Nat → JournalReader → δ → UInt64 → Option (JournalReader × δ × UInt64)
  | 0, _, _, _ => none
  | fuel + 1, reader, d, eventsReplayed =>
    match JournalReader.readNext dir fuel reader with
    | none => none
    | some res =>
      if res.status = .kOk then
        let ev := (res.event.getD {}).replayed
        replayLoop dir fuel res.reader (dispatch d ev) (eventsReplayed + 1)
      else some (res.reader, d, eventsReplayed)

/-- What `replay_segment` and `replay_directory` do once the reader is opened. -/
def replayOpened (dir : Directory) (fuel : Nat) (opened : Status × JournalReader) (d : δ) :
    Option (Except Status ReplayStats × δ) :=
  match opened with
  | (.kOk, reader) => do
    let (reader, d, eventsReplayed) ← replayLoop dispatch dir fuel reader d 0
    return (.ok
      { segmentsReplayed := reader.stats.segmentsRead
        eventsReplayed := eventsReplayed
        corruptedRecordsSkipped := reader.stats.corruptedRecordsSkipped
        bytesRead := reader.stats.bytesRead }, d)
  | (status, _) => some (.error status, d)

def replaySegment (dir : Directory) (fuel : Nat) (segmentPath : String) (d : δ) :
    Option (Except Status ReplayStats × δ) :=
  replayOpened dispatch dir fuel (JournalReader.openSegment dir {} segmentPath) d

def replayDirectory (dir : Directory) (fuel : Nat) (d : δ) :
    Option (Except Status ReplayStats × δ) :=
  replayOpened dispatch dir fuel (JournalReader.openDirectory dir {}) d

end ReplayEngine

end Ume
