import Ume.Event.Event
import Ume.Lib.Binary64

/-! The configuration and its TOML file. Integers are 64-bit signed in the document and are
narrowed to the field they are for. -/

namespace Ume

/-- A value of a document. Arrays and times are never asked for. -/
inductive TomlValue where
  | boolean (b : Bool)
  | integer (n : Int64)
  | floating (x : Binary64)
  | string (s : String)
  | table (entries : List (String × TomlValue))
  | other

/-- The exceptions that `load_from_file` tells apart. -/
inductive TomlException where
  | syntaxError
  | other

/-- The functions of the TOML library that are called, each of which may throw. -/
structure Toml where
  contains : TomlValue → String → Except TomlException Bool
  find : TomlValue → String → Except TomlException TomlValue
  findOrInteger : TomlValue → String → Int64 → Except TomlException Int64
  findOrString : TomlValue → String → String → Except TomlException String
  findOrBoolean : TomlValue → String → Bool → Except TomlException Bool
  findOrFloating : TomlValue → String → Binary64 → Except TomlException Binary64

namespace Toml

/-- What a table has for a key is found, and an integer is returned unchanged. -/
structure ReadsIntegers (lib : Toml) : Prop where
  contains : ∀ entries key v, entries.lookup key = some v →
    lib.contains (.table entries) key = .ok true
  find : ∀ entries key v, entries.lookup key = some v → lib.find (.table entries) key = .ok v
  integer : ∀ entries key n default, entries.lookup key = some (.integer n) →
    lib.findOrInteger (.table entries) key default = .ok n

/-- So are the values of the other types, and a key that is not there is not found. -/
structure Lawful (lib : Toml) : Prop extends lib.ReadsIntegers where
  missing : ∀ entries key, entries.lookup key = none →
    lib.contains (.table entries) key = .ok false
  string : ∀ entries key s default, entries.lookup key = some (.string s) →
    lib.findOrString (.table entries) key default = .ok s
  boolean : ∀ entries key b default, entries.lookup key = some (.boolean b) →
    lib.findOrBoolean (.table entries) key default = .ok b
  floating : ∀ entries key x default, entries.lookup key = some (.floating x) →
    lib.findOrFloating (.table entries) key default = .ok x

/-- A table is asked for its entries, and a value of another type is taken for none. -/
def plain : Toml :=
  let entry (v : TomlValue) (key : String) : Option TomlValue :=
    match v with
    | .table entries => entries.lookup key
    | _ => none
  { contains v key := .ok (entry v key).isSome
    find v key := ((entry v key).map .ok).getD (.error .other)
    findOrInteger v key default := match entry v key with
      | some (.integer n) => .ok n
      | _ => .ok default
    findOrString v key default := match entry v key with
      | some (.string s) => .ok s
      | _ => .ok default
    findOrBoolean v key default := match entry v key with
      | some (.boolean b) => .ok b
      | _ => .ok default
    findOrFloating v key default := match entry v key with
      | some (.floating x) => .ok x
      | _ => .ok default }

theorem lawful_plain : plain.Lawful where
  contains entries key v h := by simp [plain, h]
  find entries key v h := by simp [plain, h]
  integer entries key n default h := by simp [plain, h]
  missing entries key h := by simp [plain, h]
  string entries key s default h := by simp [plain, h]
  boolean entries key b default h := by simp [plain, h]
  floating entries key x default h := by simp [plain, h]

variable (lib : Toml)

/-- The four getters look for the key first, and convert what they find. -/
def getAs {α β : Type} (findOr : TomlValue → String → α → Except TomlException α) (widen : β → α)
    (narrow : α → β) (v : TomlValue) (key : String) (default : β) : Except TomlException β := do
  if ← lib.contains v key then
    return narrow (← findOr v key (widen default))
  else
    return default

def getInt {w : Nat} (v : TomlValue) (key : String) (default : BitVec w) :
    Except TomlException (BitVec w) :=
  lib.getAs lib.findOrInteger (fun d => Int64.ofInt d.toNat) (fun n => BitVec.ofInt w n.toInt) v key
    default

def getStr (v : TomlValue) (key : String) (default : String) : Except TomlException String :=
  lib.getAs lib.findOrString id id v key default

def getBool (v : TomlValue) (key : String) (default : Bool) : Except TomlException Bool :=
  lib.getAs lib.findOrBoolean id id v key default

/-- A `float` is a double here, and `toFloat` the rounding to single precision. -/
def getFloat (toFloat : Binary64 → Binary64) (v : TomlValue) (key : String) (default : Binary64) :
    Except TomlException Binary64 :=
  lib.getAs lib.findOrFloating id toFloat v key default

end Toml

structure EngineConfig where
  logLevel : String := "info"
  overheadBudgetCpuPercent : Binary64 := Binary64.ofNat 2
  overheadBudgetMemoryMb : BitVec 32 := 250

structure JournalConfig where
  segmentSizeBytes : BitVec 64 := 64 * 1024 * 1024
  hotRetentionSeconds : BitVec 32 := 60
  warmRetentionSeconds : BitVec 32 := 3600
  compactionEnabled : Bool := true

structure ObjectStoreConfig where
  shardCount : BitVec 32 := 256
  smallAllocThresholdBytes : BitVec 64 := 4096
  tombstoneReapIntervalSeconds : BitVec 32 := 5

structure GraphConfig where
  rcuEpochTimeoutMs : BitVec 32 := 100

structure ProbeConfig where
  sampleRateHz : BitVec 32 := 10
  cudaEnabled : Bool := false
  nvmlEnabled : Bool := false

structure AdapterConfig where
  pythonGilMaxHoldUs : BitVec 32 := 200
  pythonBatchHz : BitVec 32 := 5

structure DashboardConfig where
  websocketPort : BitVec 16 := 9100
  restPort : BitVec 16 := 9101
  maxClients : BitVec 16 := 8

structure PredictionConfig where
  cycleIntervalMs : BitVec 32 := 100
  modelsEnabled : String := "ewma,lru"

structure AdvisorConfig where
  cycleIntervalMs : BitVec 32 := 100
  enabled : Bool := true

structure Config where
  engine : EngineConfig := {}
  journal : JournalConfig := {}
  objectStore : ObjectStoreConfig := {}
  graph : GraphConfig := {}
  probes : ProbeConfig := {}
  adapters : AdapterConfig := {}
  dashboard : DashboardConfig := {}
  prediction : PredictionConfig := {}
  advisor : AdvisorConfig := {}

/-- A file as `load_from_file` finds it. -/
inductive ConfigFile where
  | missing
  | unparsable (e : TomlException)
  | document (entries : List (String × TomlValue))

namespace Config

variable (lib : Toml)

def loadEngine (toFloat : Binary64 → Binary64) (sec : TomlValue) (c : EngineConfig) :
    Except TomlException EngineConfig := do
  let logLevel ← lib.getStr sec "log_level" c.logLevel
  let cpuPercent ← lib.getFloat toFloat sec "overhead_budget_cpu_percent" c.overheadBudgetCpuPercent
  let memoryMb ← lib.getInt sec "overhead_budget_memory_mb" c.overheadBudgetMemoryMb
  return {
    logLevel := logLevel
    overheadBudgetCpuPercent := cpuPercent
    overheadBudgetMemoryMb := memoryMb }

def loadJournal (sec : TomlValue) (c : JournalConfig) : Except TomlException JournalConfig := do
  let defaultMb := c.segmentSizeBytes / (1024 * 1024)
  let segmentSizeMb ← lib.getInt sec "segment_size_mb" defaultMb
  let hotRetentionSeconds ← lib.getInt sec "hot_retention_seconds" c.hotRetentionSeconds
  let warmRetentionSeconds ← lib.getInt sec "warm_retention_seconds" c.warmRetentionSeconds
  let compactionEnabled ← lib.getBool sec "compaction_enabled" c.compactionEnabled
  return {
    segmentSizeBytes := segmentSizeMb * 1024 * 1024
    hotRetentionSeconds := hotRetentionSeconds
    warmRetentionSeconds := warmRetentionSeconds
    compactionEnabled := compactionEnabled }

def loadObjectStore (sec : TomlValue) (c : ObjectStoreConfig) :
    Except TomlException ObjectStoreConfig := do
  let shardCount ← lib.getInt sec "shard_count" c.shardCount
  let smallAlloc ← lib.getInt sec "small_alloc_threshold_bytes" c.smallAllocThresholdBytes
  let reapInterval ←
    lib.getInt sec "tombstone_reap_interval_seconds" c.tombstoneReapIntervalSeconds
  return {
    shardCount := shardCount
    smallAllocThresholdBytes := smallAlloc
    tombstoneReapIntervalSeconds := reapInterval }

def loadGraph (sec : TomlValue) (c : GraphConfig) : Except TomlException GraphConfig := do
  let rcuEpochTimeoutMs ← lib.getInt sec "rcu_epoch_timeout_ms" c.rcuEpochTimeoutMs
  return { rcuEpochTimeoutMs := rcuEpochTimeoutMs }

def loadProbes (sec : TomlValue) (c : ProbeConfig) : Except TomlException ProbeConfig := do
  let sampleRateHz ← lib.getInt sec "sample_rate_hz" c.sampleRateHz
  let cudaEnabled ← lib.getBool sec "cuda_enabled" c.cudaEnabled
  let nvmlEnabled ← lib.getBool sec "nvml_enabled" c.nvmlEnabled
  return { sampleRateHz := sampleRateHz, cudaEnabled := cudaEnabled, nvmlEnabled := nvmlEnabled }

def loadAdapters (sec : TomlValue) (c : AdapterConfig) : Except TomlException AdapterConfig := do
  let gilMaxHoldUs ← lib.getInt sec "python_gil_max_hold_us" c.pythonGilMaxHoldUs
  let batchHz ← lib.getInt sec "python_batch_hz" c.pythonBatchHz
  return { pythonGilMaxHoldUs := gilMaxHoldUs, pythonBatchHz := batchHz }

def loadDashboard (sec : TomlValue) (c : DashboardConfig) :
    Except TomlException DashboardConfig := do
  let websocketPort ← lib.getInt sec "websocket_port" c.websocketPort
  let restPort ← lib.getInt sec "rest_port" c.restPort
  let maxClients ← lib.getInt sec "max_clients" c.maxClients
  return { websocketPort := websocketPort, restPort := restPort, maxClients := maxClients }

def loadPrediction (sec : TomlValue) (c : PredictionConfig) :
    Except TomlException PredictionConfig := do
  let cycleIntervalMs ← lib.getInt sec "cycle_interval_ms" c.cycleIntervalMs
  let modelsEnabled ← lib.getStr sec "models_enabled" c.modelsEnabled
  return { cycleIntervalMs := cycleIntervalMs, modelsEnabled := modelsEnabled }

def loadAdvisor (sec : TomlValue) (c : AdvisorConfig) : Except TomlException AdvisorConfig := do
  let cycleIntervalMs ← lib.getInt sec "cycle_interval_ms" c.cycleIntervalMs
  let enabled ← lib.getBool sec "enabled" c.enabled
  return { cycleIntervalMs := cycleIntervalMs, enabled := enabled }

/-- A section that the document does not have keeps its defaults. -/
def loadSection {α : Type} (data : TomlValue) (name : String)
    (load : TomlValue → α → Except TomlException α) (default : α) : Except TomlException α := do
  if ← lib.contains data name then
    load (← lib.find data name) default
  else
    return default

def loadDocument (toFloat : Binary64 → Binary64) (data : TomlValue) :
    Except TomlException Config := do
  let engine ← loadSection lib data "engine" (loadEngine lib toFloat) {}
  let journal ← loadSection lib data "journal" (loadJournal lib) {}
  let objectStore ← loadSection lib data "object_store" (loadObjectStore lib) {}
  let graph ← loadSection lib data "graph" (loadGraph lib) {}
  let probes ← loadSection lib data "probes" (loadProbes lib) {}
  let adapters ← loadSection lib data "adapters" (loadAdapters lib) {}
  let dashboard ← loadSection lib data "dashboard" (loadDashboard lib) {}
  let prediction ← loadSection lib data "prediction" (loadPrediction lib) {}
  let advisor ← loadSection lib data "advisor" (loadAdvisor lib) {}
  return {
    engine := engine
    journal := journal
    objectStore := objectStore
    graph := graph
    probes := probes
    adapters := adapters
    dashboard := dashboard
    prediction := prediction
    advisor := advisor }

def hasSingleBit (x : BitVec 32) : Bool := x ≠ 0 ∧ x &&& (x - 1) = 0

def validate (c : Config) : Status :=
  if Binary64.lt c.engine.overheadBudgetCpuPercent (Binary64.ofNat 0) ∨
      Binary64.lt (Binary64.ofNat 100) c.engine.overheadBudgetCpuPercent then .kInvalidConfig
  else if c.engine.overheadBudgetMemoryMb < 10 then .kInvalidConfig
  else if c.journal.segmentSizeBytes < 1024 * 1024 then .kInvalidConfig
  else if c.objectStore.shardCount = 0 ∨ ¬ hasSingleBit c.objectStore.shardCount then
    .kInvalidConfig
  else if c.probes.sampleRateHz < 1 ∨ c.probes.sampleRateHz > 1000 then .kInvalidConfig
  else .kOk

def loadFromFile (toFloat : Binary64 → Binary64) (file : ConfigFile) : Except Status Config :=
  match file with
  | .missing => .error .kFileNotFound
  | .unparsable .syntaxError => .error .kInvalidConfig
  | .unparsable .other => .error .kIoError
  | .document data =>
    match loadDocument lib toFloat (.table data) with
    | .error .syntaxError => .error .kInvalidConfig
    | .error .other => .error .kIoError
    | .ok config =>
      if config.validate = .kOk then .ok config else .error config.validate

def defaultTestConfig : Config where
  engine :=
    { logLevel := "debug"
      overheadBudgetCpuPercent := Binary64.ofNat 50
      overheadBudgetMemoryMb := 100 }
  journal :=
    { segmentSizeBytes := 1 * 1024 * 1024
      hotRetentionSeconds := 10
      compactionEnabled := false }
  objectStore := { shardCount := 16 }
  graph := { rcuEpochTimeoutMs := 50 }
  probes := { sampleRateHz := 1, cudaEnabled := false, nvmlEnabled := false }
  dashboard := { websocketPort := 0, restPort := 0 }
  prediction := { cycleIntervalMs := 1000 }
  advisor := { enabled := false }

/-- The two configurations that are not read from a file pass the check. -/
theorem validate_defaults : validate {} = .kOk ∧ validate defaultTestConfig = .kOk := by
  decide +kernel

end Config

end Ume
