import Mathlib.Algebra.Order.Ring.Int
import Mathlib.Tactic.Positivity
import Ume.Config.Config

/-! What becomes of the integers of a configuration file. Each is taken modulo the width of its
field, and the check sees it only after that. -/

namespace Ume

namespace Config

/-- The integer keys that are read from the document. -/
inductive IntKey where
  | overheadBudgetMemoryMb
  | segmentSizeMb
  | hotRetentionSeconds
  | warmRetentionSeconds
  | shardCount
  | smallAllocThresholdBytes
  | tombstoneReapIntervalSeconds
  | rcuEpochTimeoutMs
  | sampleRateHz
  | pythonGilMaxHoldUs
  | pythonBatchHz
  | websocketPort
  | restPort
  | maxClients
  | predictionCycleIntervalMs
  | advisorCycleIntervalMs

namespace IntKey

def path : IntKey → String × String
  | overheadBudgetMemoryMb => ("engine", "overhead_budget_memory_mb")
  | segmentSizeMb => ("journal", "segment_size_mb")
  | hotRetentionSeconds => ("journal", "hot_retention_seconds")
  | warmRetentionSeconds => ("journal", "warm_retention_seconds")
  | shardCount => ("object_store", "shard_count")
  | smallAllocThresholdBytes => ("object_store", "small_alloc_threshold_bytes")
  | tombstoneReapIntervalSeconds => ("object_store", "tombstone_reap_interval_seconds")
  | rcuEpochTimeoutMs => ("graph", "rcu_epoch_timeout_ms")
  | sampleRateHz => ("probes", "sample_rate_hz")
  | pythonGilMaxHoldUs => ("adapters", "python_gil_max_hold_us")
  | pythonBatchHz => ("adapters", "python_batch_hz")
  | websocketPort => ("dashboard", "websocket_port")
  | restPort => ("dashboard", "rest_port")
  | maxClients => ("dashboard", "max_clients")
  | predictionCycleIntervalMs => ("prediction", "cycle_interval_ms")
  | advisorCycleIntervalMs => ("advisor", "cycle_interval_ms")

def bits : IntKey → Nat
  | segmentSizeMb | smallAllocThresholdBytes => 64
  | websocketPort | restPort | maxClients => 16
  | _ => 32

def scale : IntKey → Int
  | segmentSizeMb => 2 ^ 20
  | _ => 1

def field (c : Config) : IntKey → Nat
  | overheadBudgetMemoryMb => c.engine.overheadBudgetMemoryMb.toNat
  | segmentSizeMb => c.journal.segmentSizeBytes.toNat
  | hotRetentionSeconds => c.journal.hotRetentionSeconds.toNat
  | warmRetentionSeconds => c.journal.warmRetentionSeconds.toNat
  | shardCount => c.objectStore.shardCount.toNat
  | smallAllocThresholdBytes => c.objectStore.smallAllocThresholdBytes.toNat
  | tombstoneReapIntervalSeconds => c.objectStore.tombstoneReapIntervalSeconds.toNat
  | rcuEpochTimeoutMs => c.graph.rcuEpochTimeoutMs.toNat
  | sampleRateHz => c.probes.sampleRateHz.toNat
  | pythonGilMaxHoldUs => c.adapters.pythonGilMaxHoldUs.toNat
  | pythonBatchHz => c.adapters.pythonBatchHz.toNat
  | websocketPort => c.dashboard.websocketPort.toNat
  | restPort => c.dashboard.restPort.toNat
  | maxClients => c.dashboard.maxClients.toNat
  | predictionCycleIntervalMs => c.prediction.cycleIntervalMs.toNat
  | advisorCycleIntervalMs => c.advisor.cycleIntervalMs.toNat

/-- The document gives the key this integer. -/
def Given (data : List (String × TomlValue)) (key : IntKey) (n : Int64) : Prop :=
  ∃ entries, data.lookup key.path.1 = some (.table entries) ∧
    entries.lookup key.path.2 = some (.integer n)

end IntKey

theorem bind_eq_ok {ε α β : Type} {x : Except ε α} {f : α → Except ε β} {b : β} :
    (x >>= f) = .ok b ↔ ∃ a, x = .ok a ∧ f a = .ok b := by
  cases x with
  | error e => exact iff_of_false (fun h => nomatch h) (fun ⟨_, h, _⟩ => nomatch h)
  | ok a =>
    constructor
    · exact fun h => ⟨a, rfl, h⟩
    · rintro ⟨a', ha, h⟩
      rwa [Except.ok.inj ha]

theorem pure_eq_ok {ε α : Type} {a b : α} : (pure a : Except ε α) = .ok b ↔ a = b :=
  Except.ok.injEq a b ▸ Iff.rfl

section Sections

variable {lib : Toml} {toFloat : Binary64 → Binary64} {sec : TomlValue}

theorem engine_ints {c c' : EngineConfig} (h : loadEngine lib toFloat sec c = .ok c') :
    lib.getInt sec "overhead_budget_memory_mb" c.overheadBudgetMemoryMb =
      .ok c'.overheadBudgetMemoryMb := by
  simp only [loadEngine, bind_eq_ok, pure_eq_ok] at h
  obtain ⟨_, -, _, -, _, hmemory, rfl⟩ := h
  exact hmemory

theorem journal_ints {c c' : JournalConfig} (h : loadJournal lib sec c = .ok c') :
    (∃ mb, lib.getInt sec "segment_size_mb" (c.segmentSizeBytes / (1024 * 1024)) = .ok mb ∧
        c'.segmentSizeBytes = mb * 1024 * 1024) ∧
      lib.getInt sec "hot_retention_seconds" c.hotRetentionSeconds = .ok c'.hotRetentionSeconds ∧
      lib.getInt sec "warm_retention_seconds" c.warmRetentionSeconds =
        .ok c'.warmRetentionSeconds := by
  simp only [loadJournal, bind_eq_ok, pure_eq_ok] at h
  obtain ⟨mb, hsegment, _, hhot, _, hwarm, _, -, rfl⟩ := h
  exact ⟨⟨mb, hsegment, rfl⟩, hhot, hwarm⟩

theorem objectStore_ints {c c' : ObjectStoreConfig} (h : loadObjectStore lib sec c = .ok c') :
    lib.getInt sec "shard_count" c.shardCount = .ok c'.shardCount ∧
      lib.getInt sec "small_alloc_threshold_bytes" c.smallAllocThresholdBytes =
        .ok c'.smallAllocThresholdBytes ∧
      lib.getInt sec "tombstone_reap_interval_seconds" c.tombstoneReapIntervalSeconds =
        .ok c'.tombstoneReapIntervalSeconds := by
  simp only [loadObjectStore, bind_eq_ok, pure_eq_ok] at h
  obtain ⟨_, hshards, _, hsmall, _, hreap, rfl⟩ := h
  exact ⟨hshards, hsmall, hreap⟩

theorem graph_ints {c c' : GraphConfig} (h : loadGraph lib sec c = .ok c') :
    lib.getInt sec "rcu_epoch_timeout_ms" c.rcuEpochTimeoutMs = .ok c'.rcuEpochTimeoutMs := by
  simp only [loadGraph, bind_eq_ok, pure_eq_ok] at h
  obtain ⟨_, htimeout, rfl⟩ := h
  exact htimeout

theorem probes_ints {c c' : ProbeConfig} (h : loadProbes lib sec c = .ok c') :
    lib.getInt sec "sample_rate_hz" c.sampleRateHz = .ok c'.sampleRateHz := by
  simp only [loadProbes, bind_eq_ok, pure_eq_ok] at h
  obtain ⟨_, hrate, _, -, _, -, rfl⟩ := h
  exact hrate

theorem adapters_ints {c c' : AdapterConfig} (h : loadAdapters lib sec c = .ok c') :
    lib.getInt sec "python_gil_max_hold_us" c.pythonGilMaxHoldUs = .ok c'.pythonGilMaxHoldUs ∧
      lib.getInt sec "python_batch_hz" c.pythonBatchHz = .ok c'.pythonBatchHz := by
  simp only [loadAdapters, bind_eq_ok, pure_eq_ok] at h
  obtain ⟨_, hhold, _, hbatch, rfl⟩ := h
  exact ⟨hhold, hbatch⟩

theorem dashboard_ints {c c' : DashboardConfig} (h : loadDashboard lib sec c = .ok c') :
    lib.getInt sec "websocket_port" c.websocketPort = .ok c'.websocketPort ∧
      lib.getInt sec "rest_port" c.restPort = .ok c'.restPort ∧
      lib.getInt sec "max_clients" c.maxClients = .ok c'.maxClients := by
  simp only [loadDashboard, bind_eq_ok, pure_eq_ok] at h
  obtain ⟨_, hwebsocket, _, hrest, _, hclients, rfl⟩ := h
  exact ⟨hwebsocket, hrest, hclients⟩

theorem prediction_ints {c c' : PredictionConfig} (h : loadPrediction lib sec c = .ok c') :
    lib.getInt sec "cycle_interval_ms" c.cycleIntervalMs = .ok c'.cycleIntervalMs := by
  simp only [loadPrediction, bind_eq_ok, pure_eq_ok] at h
  obtain ⟨_, hcycle, _, -, rfl⟩ := h
  exact hcycle

theorem advisor_ints {c c' : AdvisorConfig} (h : loadAdvisor lib sec c = .ok c') :
    lib.getInt sec "cycle_interval_ms" c.cycleIntervalMs = .ok c'.cycleIntervalMs := by
  simp only [loadAdvisor, bind_eq_ok, pure_eq_ok] at h
  obtain ⟨_, hcycle, _, -, rfl⟩ := h
  exact hcycle

end Sections

structure Loaded (lib : Toml) (toFloat : Binary64 → Binary64) (data : TomlValue) (c : Config) :
    Prop where
  engine : loadSection lib data "engine" (loadEngine lib toFloat) {} = .ok c.engine
  journal : loadSection lib data "journal" (loadJournal lib) {} = .ok c.journal
  objectStore : loadSection lib data "object_store" (loadObjectStore lib) {} = .ok c.objectStore
  graph : loadSection lib data "graph" (loadGraph lib) {} = .ok c.graph
  probes : loadSection lib data "probes" (loadProbes lib) {} = .ok c.probes
  adapters : loadSection lib data "adapters" (loadAdapters lib) {} = .ok c.adapters
  dashboard : loadSection lib data "dashboard" (loadDashboard lib) {} = .ok c.dashboard
  prediction : loadSection lib data "prediction" (loadPrediction lib) {} = .ok c.prediction
  advisor : loadSection lib data "advisor" (loadAdvisor lib) {} = .ok c.advisor

section Document

variable {lib : Toml} {toFloat : Binary64 → Binary64} {data : List (String × TomlValue)}
  {c : Config}

theorem loaded_of_loadDocument (h : loadDocument lib toFloat (.table data) = .ok c) :
    Loaded lib toFloat (.table data) c := by
  simp only [loadDocument, bind_eq_ok, pure_eq_ok] at h
  obtain ⟨_, hengine, _, hjournal, _, hstore, _, hgraph, _, hprobes, _, hadapters, _, hdashboard, _,
    hprediction, _, hadvisor, rfl⟩ := h
  exact ⟨hengine, hjournal, hstore, hgraph, hprobes, hadapters, hdashboard, hprediction, hadvisor⟩

theorem loadDocument_of_loaded {data : TomlValue} (h : Loaded lib toFloat data c) :
    loadDocument lib toFloat data = .ok c := by
  simp only [loadDocument, bind_eq_ok, pure_eq_ok]
  exact ⟨_, h.engine, _, h.journal, _, h.objectStore, _, h.graph, _, h.probes, _, h.adapters, _,
    h.dashboard, _, h.prediction, _, h.advisor, rfl⟩

theorem loadFromFile_eq_ok {file : ConfigFile} :
    loadFromFile lib toFloat file = .ok c ↔ ∃ data, file = .document data ∧
      loadDocument lib toFloat (.table data) = .ok c ∧ c.validate = .kOk := by
  cases file with
  | missing => simp [loadFromFile]
  | unparsable e => cases e <;> simp [loadFromFile]
  | document data =>
    cases hload : loadDocument lib toFloat (.table data) with
    | error e => cases e <;> simp [loadFromFile, hload]
    | ok c' =>
      by_cases hvalid : c'.validate = .kOk
      · simp only [loadFromFile, hload, hvalid, if_true, ConfigFile.document.injEq,
          exists_eq_left', Except.ok.injEq]
        exact ⟨fun h => ⟨h, h ▸ hvalid⟩, fun h => h.1⟩
      · simp only [loadFromFile, hload, hvalid, if_false, ConfigFile.document.injEq,
          exists_eq_left', Except.ok.injEq, reduceCtorEq, false_iff]
        rintro ⟨rfl, h⟩
        exact hvalid h

theorem loadSection_of_lookup (hlib : lib.ReadsIntegers) {α : Type} {name : String}
    {load : TomlValue → α → Except TomlException α} {default : α} {sec : TomlValue}
    (hsec : data.lookup name = some sec) :
    loadSection lib (.table data) name load default = load sec default := by
  rw [loadSection, hlib.contains _ _ _ hsec, hlib.find _ _ _ hsec]
  rfl

theorem loadSection_of_missing (hlib : lib.Lawful) {α : Type} {name : String}
    {load : TomlValue → α → Except TomlException α} {default : α}
    (hsec : data.lookup name = none) :
    loadSection lib (.table data) name load default = .ok default := by
  rw [loadSection, hlib.missing _ _ hsec]
  rfl

theorem load_of_lookup (hlib : lib.ReadsIntegers) {α : Type} {name : String}
    {load : TomlValue → α → Except TomlException α} {default loaded : α} {sec : TomlValue}
    (hsec : data.lookup name = some sec)
    (h : loadSection lib (.table data) name load default = .ok loaded) :
    load sec default = .ok loaded :=
  (loadSection_of_lookup hlib hsec).symm.trans h

theorem getAs_given (hlib : lib.ReadsIntegers) {α β : Type}
    {findOr : TomlValue → String → α → Except TomlException α} {widen : β → α} {narrow : α → β}
    {entries : List (String × TomlValue)} {key : String} {v : TomlValue} {x : α} {default : β}
    (hkey : entries.lookup key = some v)
    (hx : findOr (.table entries) key (widen default) = .ok x) :
    lib.getAs findOr widen narrow (.table entries) key default = .ok (narrow x) := by
  rw [Toml.getAs, hlib.contains _ _ _ hkey, hx]
  rfl

theorem getAs_missing (hlib : lib.Lawful) {α β : Type}
    {findOr : TomlValue → String → α → Except TomlException α} {widen : β → α} {narrow : α → β}
    {entries : List (String × TomlValue)} {key : String} (hkey : entries.lookup key = none)
    (default : β) : lib.getAs findOr widen narrow (.table entries) key default = .ok default := by
  rw [Toml.getAs, hlib.missing _ _ hkey]
  rfl

/-- An integer in the document is taken modulo the width of its field. -/
theorem getInt_of_lookup (hlib : lib.ReadsIntegers) {w : Nat} {entries : List (String × TomlValue)}
    {key : String} {n : Int64} (hkey : entries.lookup key = some (.integer n))
    (default : BitVec w) :
    lib.getInt (.table entries) key default = .ok (BitVec.ofInt w n.toInt) :=
  getAs_given hlib hkey (hlib.integer _ _ _ _ hkey)

theorem toNat_ofInt (w : Nat) (i : Int) : ((BitVec.ofInt w i).toNat : Int) = i % 2 ^ w := by
  rw [BitVec.toNat_ofInt, Int.toNat_of_nonneg (Int.emod_nonneg _ (by positivity)),
    Nat.cast_pow, Nat.cast_ofNat]

theorem emod_of_getInt (hlib : lib.ReadsIntegers) {w : Nat} {entries : List (String × TomlValue)}
    {key : String} {n : Int64} {default x : BitVec w}
    (hkey : entries.lookup key = some (.integer n))
    (h : lib.getInt (.table entries) key default = .ok x) :
    (x.toNat : Int) = n.toInt * 1 % 2 ^ w := by
  rw [getInt_of_lookup hlib hkey] at h
  rw [← Except.ok.inj h, toNat_ofInt, Int.mul_one]

theorem field_eq_emod (hlib : lib.ReadsIntegers) (h : Loaded lib toFloat (.table data) c)
    {key : IntKey} {n : Int64} (hgiven : key.Given data n) :
    (key.field c : Int) = n.toInt * key.scale % 2 ^ key.bits := by
  obtain ⟨entries, hsec, hkey⟩ := hgiven
  cases key with
  | overheadBudgetMemoryMb =>
    exact emod_of_getInt hlib hkey (engine_ints (load_of_lookup hlib hsec h.engine))
  | segmentSizeMb =>
    obtain ⟨mb, hmb, hbytes⟩ := (journal_ints (load_of_lookup hlib hsec h.journal)).1
    have hscaled : mb * 1024 * 1024 = BitVec.ofInt 64 (n.toInt * 2 ^ 20) := by
      have hgiven := (getInt_of_lookup hlib hkey _).symm.trans hmb
      rw [← Except.ok.inj hgiven, BitVec.ofInt_mul, BitVec.mul_assoc]
      rfl
    show (c.journal.segmentSizeBytes.toNat : Int) = _
    rw [hbytes, hscaled, toNat_ofInt]
    rfl
  | hotRetentionSeconds =>
    exact emod_of_getInt hlib hkey (journal_ints (load_of_lookup hlib hsec h.journal)).2.1
  | warmRetentionSeconds =>
    exact emod_of_getInt hlib hkey (journal_ints (load_of_lookup hlib hsec h.journal)).2.2
  | shardCount =>
    exact emod_of_getInt hlib hkey (objectStore_ints (load_of_lookup hlib hsec h.objectStore)).1
  | smallAllocThresholdBytes =>
    exact emod_of_getInt hlib hkey (objectStore_ints (load_of_lookup hlib hsec h.objectStore)).2.1
  | tombstoneReapIntervalSeconds =>
    exact emod_of_getInt hlib hkey (objectStore_ints (load_of_lookup hlib hsec h.objectStore)).2.2
  | rcuEpochTimeoutMs =>
    exact emod_of_getInt hlib hkey (graph_ints (load_of_lookup hlib hsec h.graph))
  | sampleRateHz =>
    exact emod_of_getInt hlib hkey (probes_ints (load_of_lookup hlib hsec h.probes))
  | pythonGilMaxHoldUs =>
    exact emod_of_getInt hlib hkey (adapters_ints (load_of_lookup hlib hsec h.adapters)).1
  | pythonBatchHz =>
    exact emod_of_getInt hlib hkey (adapters_ints (load_of_lookup hlib hsec h.adapters)).2
  | websocketPort =>
    exact emod_of_getInt hlib hkey (dashboard_ints (load_of_lookup hlib hsec h.dashboard)).1
  | restPort =>
    exact emod_of_getInt hlib hkey (dashboard_ints (load_of_lookup hlib hsec h.dashboard)).2.1
  | maxClients =>
    exact emod_of_getInt hlib hkey (dashboard_ints (load_of_lookup hlib hsec h.dashboard)).2.2
  | predictionCycleIntervalMs =>
    exact emod_of_getInt hlib hkey (prediction_ints (load_of_lookup hlib hsec h.prediction))
  | advisorCycleIntervalMs =>
    exact emod_of_getInt hlib hkey (advisor_ints (load_of_lookup hlib hsec h.advisor))

theorem emod_eq_self_iff (x : Int) (w : Nat) : x % 2 ^ w = x ↔ 0 ≤ x ∧ x < 2 ^ w := by
  have hpos : (0 : Int) < 2 ^ w := by positivity
  constructor
  · intro h
    exact ⟨h ▸ Int.emod_nonneg x hpos.ne', h ▸ Int.emod_lt_of_pos x hpos⟩
  · rintro ⟨hnonneg, hlt⟩
    exact Int.emod_eq_of_lt hnonneg hlt

end Document

/-- A configuration that is returned has an integer of the document in its field exactly if the
integer, in the unit of the field, is in its range. -/
theorem integer_kept_iff {lib : Toml} (hlib : lib.ReadsIntegers) (toFloat : Binary64 → Binary64)
    {file : List (String × TomlValue)} {c : Config}
    (h : loadFromFile lib toFloat (.document file) = .ok c) {key : IntKey} {n : Int64}
    (hgiven : key.Given file n) :
    (key.field c : Int) = n.toInt * key.scale ↔
      0 ≤ n.toInt * key.scale ∧ n.toInt * key.scale < 2 ^ key.bits := by
  obtain ⟨_, hfile, hload, -⟩ := loadFromFile_eq_ok.mp h
  obtain rfl := ConfigFile.document.inj hfile
  rw [field_eq_emod hlib (loaded_of_loadDocument hload) hgiven]
  exact emod_eq_self_iff _ _

/-- A document that only sets the port of the dashboard. -/
def portDocument (port : Int64) : List (String × TomlValue) :=
  [("dashboard", .table [("websocket_port", .integer port)])]

theorem loadFromFile_portDocument {lib : Toml} (hlib : lib.Lawful) (toFloat : Binary64 → Binary64)
    (port : Int64) : loadFromFile lib toFloat (.document (portDocument port)) =
      .ok { dashboard := { websocketPort := BitVec.ofInt 16 port.toInt } } := by
  refine loadFromFile_eq_ok.mpr ⟨_, rfl, loadDocument_of_loaded ?_, validate_defaults.1⟩
  constructor
  case dashboard =>
    refine (loadSection_of_lookup hlib.toReadsIntegers rfl).trans ?_
    simp only [loadDashboard, bind_eq_ok, pure_eq_ok]
    exact ⟨_, getInt_of_lookup hlib.toReadsIntegers rfl _, _, getAs_missing hlib rfl _, _,
      getAs_missing hlib rfl _, rfl⟩
  all_goals exact loadSection_of_missing hlib rfl

theorem given_portDocument (port : Int64) :
    IntKey.websocketPort.Given (portDocument port) port := ⟨_, rfl, rfl⟩

theorem port_kept :
    loadFromFile .plain id (.document (portDocument 8080)) =
        .ok { dashboard := { websocketPort := 8080 } } ∧
      (IntKey.websocketPort.field { dashboard := { websocketPort := 8080 } } : Int) = 8080 :=
  have hload := loadFromFile_portDocument Toml.lawful_plain id 8080
  ⟨hload, (integer_kept_iff Toml.lawful_plain.toReadsIntegers id hload
    (given_portDocument 8080)).mpr (by decide)⟩

/-- Port 70000 is accepted and becomes port 4464. -/
theorem port_changed :
    IntKey.websocketPort.Given (portDocument 70000) 70000 ∧ Toml.plain.Lawful ∧
      ∀ lib toFloat, Toml.Lawful lib →
        loadFromFile lib toFloat (.document (portDocument 70000)) =
          .ok { dashboard := { websocketPort := 4464 } } :=
  ⟨given_portDocument 70000, Toml.lawful_plain,
    fun _ toFloat hlib => loadFromFile_portDocument hlib toFloat 70000⟩

end Config

end Ume
