import Mathlib.Data.List.AList
import Ume.Event.MemoryPlacement
import Ume.Lib.Runs
import Ume.Lib.StreamText

/-! The learning engine and its file of patterns. The file is text: a line for each
pattern, and commas between the fields. An exception that leaves a function that promises
none ends the program, and a signed overflow is undefined; both have no result. -/

namespace Ume

open StreamText

structure MemoryPattern where
  objectId : ObjectId := ObjectId.kNull
  frequencyScore : Binary64 := Binary64.ofNat 0
  recencyScore : Binary64 := Binary64.ofNat 0
  lastStride : Int64 := 0
  confidence : Binary64 := Binary64.ofDecimal 5 1
  lastAddress : UInt64 := 0
  accessCount : UInt32 := 0
  lastSeen : UInt64 := 0
  deriving DecidableEq

namespace DefaultLearningPolicy

/-- The difference of two addresses as signed numbers. -/
def stride (accessAddress lastAddress : UInt64) : Option Int64 :=
  let difference := accessAddress.toInt64.toInt - lastAddress.toInt64.toInt
  if -2 ^ 63 ≤ difference ∧ difference < 2 ^ 63 then some (Int64.ofInt difference) else none

def learnStride (pattern : MemoryPattern) (stride : Int64) : MemoryPattern :=
  if stride = pattern.lastStride then
    { pattern with
      confidence := Binary64.min (Binary64.ofNat 1)
        (Binary64.add pattern.confidence (Binary64.ofDecimal 1 1)) }
  else
    { pattern with
      confidence := Binary64.max (Binary64.ofNat 0)
        (Binary64.sub pattern.confidence (Binary64.ofDecimal 5 2))
      lastStride := stride }

def learnStep (pattern : MemoryPattern) (accessAddress now : UInt64) : Option MemoryPattern :=
  let pattern := { pattern with accessCount := pattern.accessCount + 1, lastSeen := now }
  let learned :=
    if pattern.lastAddress ≠ 0 then
      (stride accessAddress pattern.lastAddress).map (learnStride pattern)
    else some pattern
  learned.map fun pattern =>
    { pattern with
      lastAddress := accessAddress
      frequencyScore := Binary64.add
        (Binary64.mul pattern.frequencyScore (Binary64.ofDecimal 9 1)) (Binary64.ofDecimal 1 1)
      recencyScore := Binary64.ofNat 1 }

end DefaultLearningPolicy

/-- What the platform decides: the width of `unsigned long`, and which tiny results of
`std::stod` are range errors. -/
structure Numerics where
  ulongBits : Nat
  ulongBits_ge : 32 ≤ ulongBits
  underflows : Nat → Nat → Bool
  tiny_of_underflows : ∀ n d, underflows n d = true → tiny n d = true

/-- A platform with a wide `unsigned long` that detects an underflow after rounding. -/
def Numerics.lp64 : Numerics := ⟨64, by decide, tinyRounded, tiny_of_tinyRounded⟩

namespace FilePatternRepository

def savedLine (p : MemoryPattern) : List Char :=
  ofNat p.objectId.toNat ++ ',' :: (ofBinary64 p.frequencyScore ++ ',' ::
    (ofBinary64 p.recencyScore ++ ',' :: (ofInt p.lastStride.toInt ++ ',' ::
      (ofBinary64 p.confidence ++ ',' :: (ofNat p.lastAddress.toNat ++ ',' ::
        ofNat p.accessCount.toNat)))))

/-- The status, and the file after it has been written if it could be opened. -/
def savePatterns (opens : Bool) (patterns : List MemoryPattern) (file : Option (List Char)) :
    Status × Option (List Char) :=
  if opens then (.kOk, some (patterns.flatMap fun p => savedLine p ++ ['\n']))
  else (.kFileNotFound, file)

/-- The fields in the order of a line, each with its conversion. -/
def fields (num : Numerics) : List (List Char → Option (MemoryPattern → MemoryPattern)) :=
  [fun part => (toUnsigned 64 part).map fun n p => { p with objectId := UInt64.ofNat n },
    fun part => (toBinary64 num.underflows part).map fun x p =>
      { p with frequencyScore := x },
    fun part => (toBinary64 num.underflows part).map fun x p => { p with recencyScore := x },
    fun part => (toSigned 64 part).map fun n p => { p with lastStride := Int64.ofInt n },
    fun part => (toBinary64 num.underflows part).map fun x p => { p with confidence := x },
    fun part => (toUnsigned 64 part).map fun n p => { p with lastAddress := UInt64.ofNat n },
    fun part => (toUnsigned num.ulongBits part).map fun n p =>
      { p with accessCount := UInt32.ofNat n }]

/-- Fields are converted one after the other; a line that has too few is skipped, after
those it has. -/
def readFields (p : MemoryPattern) :
    List (List Char → Option (MemoryPattern → MemoryPattern)) → List (List Char) →
      Option (Option MemoryPattern)
  | [], _ => some (some p)
  | _ :: _, [] => some none
  | field :: fields, part :: parts =>
    match field part with
    | none => none
    | some set => readFields (set p) fields parts

def readLine (num : Numerics) (line : List Char) : Option (Option MemoryPattern) :=
  readFields {} (fields num) (pieces ',' line)

def readLines (num : Numerics) : List (List Char) → Option (List MemoryPattern)
  | [] => some []
  | line :: lines =>
    match readLine num line with
    | none => none
    | some pattern => (readLines num lines).map (pattern.toList ++ ·)

/-- A file that cannot be opened is `none`. -/
def loadPatterns (num : Numerics) : Option (List Char) → Option (Except Status (List MemoryPattern))
  | none => some (.error .kFileNotFound)
  | some text => (readLines num (pieces '\n' text)).map .ok

end FilePatternRepository

structure LearningMetrics where
  learnedPatternsCount : UInt64 := 0
  activePatternsCount : UInt64 := 0
  forgottenPatternsCount : UInt64 := 0
  learningPasses : UInt64 := 0
  totalLearningLatencyNs : UInt64 := 0
  deriving DecidableEq

/-- The engine with the default policy and the default repository. -/
structure PatternLearningEngine where
  patternDb : AList (fun _ : UInt64 => MemoryPattern) := ∅
  metrics : LearningMetrics := {}

namespace PatternLearningEngine

/-- The clock is read when the call starts and when it ends. -/
def learnAccess (e : PatternLearningEngine) (objectId : ObjectId) (address : UInt64)
    (startTime endTime : UInt64) : Option PatternLearningEngine :=
  let pattern := (e.patternDb.lookup objectId).getD {}
  let isNew : Bool := pattern.objectId = ObjectId.kNull
  let pattern := if isNew then { pattern with objectId } else pattern
  (DefaultLearningPolicy.learnStep pattern address startTime).map fun pattern =>
    let db := e.patternDb.insert objectId pattern
    { patternDb := db
      metrics :=
        { e.metrics with
          learnedPatternsCount := e.metrics.learnedPatternsCount + if isNew then 1 else 0
          learningPasses := e.metrics.learningPasses + 1
          activePatternsCount := UInt64.ofNat db.entries.length
          totalLearningLatencyNs := e.metrics.totalLearningLatencyNs + (endTime - startTime) } }

def getPattern (e : PatternLearningEngine) (objectId : ObjectId) : Except Status MemoryPattern :=
  match e.patternDb.lookup objectId with
  | some pattern => .ok pattern
  | none => .error .kNotFound

/-- The patterns in the order of the hash table, which is any order of its keys. -/
def activePatterns (e : PatternLearningEngine) (order : List UInt64) : List MemoryPattern :=
  order.filterMap e.patternDb.lookup

def persist (e : PatternLearningEngine) (opens : Bool) (order : List UInt64)
    (file : Option (List Char)) : Status × Option (List Char) :=
  FilePatternRepository.savePatterns opens (e.activePatterns order) file

def restore (num : Numerics) (e : PatternLearningEngine) (file : Option (List Char)) :
    Option (Status × PatternLearningEngine) :=
  (FilePatternRepository.loadPatterns num file).map fun
    | .error status => (status, e)
    | .ok loaded =>
      let db := loaded.foldl (fun db p => db.insert p.objectId p) e.patternDb
      (.kOk,
        { patternDb := db
          metrics :=
            { e.metrics with
              learnedPatternsCount := UInt64.ofNat db.entries.length
              activePatternsCount := UInt64.ofNat db.entries.length } })

def decayed (decayFactor : Binary64) (pattern : MemoryPattern) : MemoryPattern :=
  { pattern with
    confidence := Binary64.max (Binary64.ofNat 0) (Binary64.sub pattern.confidence decayFactor)
    recencyScore :=
      Binary64.max (Binary64.ofNat 0) (Binary64.sub pattern.recencyScore decayFactor) }

/-- The visit of one pattern by `decay_patterns`. -/
def decayPattern (decayFactor : Binary64) (e : PatternLearningEngine) (id : UInt64) :
    PatternLearningEngine :=
  match e.patternDb.lookup id with
  | none => e
  | some pattern =>
    let pattern := decayed decayFactor pattern
    if Binary64.lt pattern.confidence (Binary64.ofDecimal 1 1) &&
        Binary64.lt pattern.recencyScore (Binary64.ofDecimal 1 1) then
      { patternDb := e.patternDb.erase id
        metrics :=
          { e.metrics with forgottenPatternsCount := e.metrics.forgottenPatternsCount + 1 } }
    else { e with patternDb := e.patternDb.insert id pattern }

def decayPatterns (e : PatternLearningEngine) (decayFactor : Binary64) (order : List UInt64) :
    PatternLearningEngine :=
  let e := order.foldl (decayPattern decayFactor) e
  { e with
    metrics := { e.metrics with activePatternsCount := UInt64.ofNat e.patternDb.entries.length } }

inductive Action where
  | learnAccess (objectId : ObjectId) (address startTime endTime : UInt64)
  | decayPatterns (decayFactor : Binary64) (order : List UInt64)

/-- A decay visits every pattern once. -/
def step (e : PatternLearningEngine) : Action → Option PatternLearningEngine
  | .learnAccess objectId address startTime endTime =>
    e.learnAccess objectId address startTime endTime
  | .decayPatterns decayFactor order =>
    if order.Perm e.patternDb.keys then some (e.decayPatterns decayFactor order) else none

end PatternLearningEngine

end Ume
