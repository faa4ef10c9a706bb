import Ume.Config.Integers

/-! Which configurations a file can give. A document that spells out every setting is loaded
back as it was, and what is loaded has passed the checks. -/

namespace Ume

/-- A power of two has its only bit where its logarithm says. -/
theorem Config.hasSingleBit_iff (x : BitVec 32) :
    hasSingleBit x = true ↔ ∃ k < 32, x.toNat = 2 ^ k := by
  constructor
  · intro h
    obtain ⟨hne, hand⟩ := of_decide_eq_true h
    have hpos : x.toNat ≠ 0 := fun h => hne (BitVec.eq_of_toNat_eq h)
    have hle : 2 ^ x.toNat.log2 ≤ x.toNat := Nat.log2_self_le hpos
    have hlt : x.toNat < 2 ^ (x.toNat.log2 + 1) := Nat.lt_log2_self
    refine ⟨x.toNat.log2, (Nat.log2_lt hpos).mpr x.isLt, ?_⟩
    by_contra hother
    have hbelow : (x - 1).toNat = x.toNat - 1 := by
      apply BitVec.toNat_sub_of_le
      rw [BitVec.le_def]
      exact Nat.pos_of_ne_zero hpos
    have hclear : (x.toNat &&& (x.toNat - 1)).testBit x.toNat.log2 = false := by
      rw [← hbelow, ← BitVec.toNat_and, hand]
      simp
    have htop : x.toNat.testBit x.toNat.log2 = true :=
      Nat.testBit_of_two_pow_le_and_two_pow_add_one_gt hle hlt
    have htop' : (x.toNat - 1).testBit x.toNat.log2 = true :=
      Nat.testBit_of_two_pow_le_and_two_pow_add_one_gt (by omega) (by omega)
    rw [Nat.testBit_and, htop, htop'] at hclear
    cases hclear
  · rintro ⟨k, hk, hx⟩
    have hall : ∀ k < 32, hasSingleBit (BitVec.ofNat 32 (2 ^ k)) = true := by decide
    have hx' : x = BitVec.ofNat 32 (2 ^ k) := by
      apply BitVec.eq_of_toNat_eq
      rw [BitVec.toNat_ofNat, hx, Nat.mod_eq_of_lt (Nat.pow_lt_pow_right (by decide) hk)]
    rw [hx']
    exact hall k hk

namespace Config

/-- The settings that the checks allow. -/
structure InRange (c : Config) : Prop where
  cpu : Binary64.lt c.engine.overheadBudgetCpuPercent (Binary64.ofNat 0) = false ∧
    Binary64.lt (Binary64.ofNat 100) c.engine.overheadBudgetCpuPercent = false
  memory : 10 ≤ c.engine.overheadBudgetMemoryMb.toNat
  segment : 2 ^ 20 ≤ c.journal.segmentSizeBytes.toNat
  shards : ∃ k < 32, c.objectStore.shardCount.toNat = 2 ^ k
  rate : 1 ≤ c.probes.sampleRateHz.toNat ∧ c.probes.sampleRateHz.toNat ≤ 1000

theorem validate_eq_ok_iff (c : Config) : c.validate = .kOk ↔ c.InRange := by
  have hmemory : ¬ c.engine.overheadBudgetMemoryMb < 10 ↔
      10 ≤ c.engine.overheadBudgetMemoryMb.toNat := by
    rw [BitVec.lt_def, Nat.not_lt]
    rfl
  have hsegment : ¬ c.journal.segmentSizeBytes < 1024 * 1024 ↔
      2 ^ 20 ≤ c.journal.segmentSizeBytes.toNat := by
    rw [BitVec.lt_def, Nat.not_lt]
    rfl
  have hrate : ¬ (c.probes.sampleRateHz < 1 ∨ c.probes.sampleRateHz > 1000) ↔
      1 ≤ c.probes.sampleRateHz.toNat ∧ c.probes.sampleRateHz.toNat ≤ 1000 := by
    rw [not_or, gt_iff_lt, BitVec.lt_def, BitVec.lt_def, Nat.not_lt, Nat.not_lt]
    rfl
  have hshards : ¬ (c.objectStore.shardCount = 0 ∨ ¬ hasSingleBit c.objectStore.shardCount) ↔
      ∃ k < 32, c.objectStore.shardCount.toNat = 2 ^ k := by
    rw [← hasSingleBit_iff, not_or, not_not, and_iff_right_iff_imp]
    intro hbit
    exact (of_decide_eq_true hbit).1
  have hcpu : ¬ (Binary64.lt c.engine.overheadBudgetCpuPercent (Binary64.ofNat 0) ∨
      Binary64.lt (Binary64.ofNat 100) c.engine.overheadBudgetCpuPercent) ↔
      Binary64.lt c.engine.overheadBudgetCpuPercent (Binary64.ofNat 0) = false ∧
        Binary64.lt (Binary64.ofNat 100) c.engine.overheadBudgetCpuPercent = false := by
    rw [not_or, Bool.not_eq_true, Bool.not_eq_true]
  unfold validate
  constructor
  · intro h
    split_ifs at h with h₁ h₂ h₃ h₄ h₅
    exact ⟨hcpu.mp h₁, hmemory.mp h₂, hsegment.mp h₃, hshards.mp h₄, hrate.mp h₅⟩
  · rintro ⟨h₁, h₂, h₃, h₄, h₅⟩
    rw [if_neg (hcpu.mpr h₁), if_neg (hmemory.mpr h₂), if_neg (hsegment.mpr h₃),
      if_neg (hshards.mpr h₄), if_neg (hrate.mpr h₅)]

/-- The settings that a file can hold: its segment size is in whole megabytes, and its
percentage is rounded to single precision unless it is left out. -/
structure Expressible (toFloat : Binary64 → Binary64) (c : Config) : Prop where
  cpu : c.engine.overheadBudgetCpuPercent = Binary64.ofNat 2 ∨
    ∃ x, c.engine.overheadBudgetCpuPercent = toFloat x
  segment : 2 ^ 20 ∣ c.journal.segmentSizeBytes.toNat

/-! ### What is loaded can be held -/

/-- A section is loaded or keeps its defaults. -/
theorem load_or_default {lib : Toml} {α : Type} {data : TomlValue} {name : String}
    {load : TomlValue → α → Except TomlException α} {default loaded : α}
    (h : loadSection lib data name load default = .ok loaded) :
    loaded = default ∨ ∃ sec, load sec default = .ok loaded := by
  rw [loadSection, bind_eq_ok] at h
  obtain ⟨found, -, h⟩ := h
  split_ifs at h
  · obtain ⟨sec, -, h⟩ := bind_eq_ok.mp h
    exact .inr ⟨sec, h⟩
  · exact .inl (pure_eq_ok.mp h).symm

theorem expressible_cpu {lib : Toml} {toFloat : Binary64 → Binary64} {data : TomlValue}
    {c : EngineConfig} (h : loadSection lib data "engine" (loadEngine lib toFloat) {} = .ok c) :
    c.overheadBudgetCpuPercent = Binary64.ofNat 2 ∨
      ∃ x, c.overheadBudgetCpuPercent = toFloat x := by
  rcases load_or_default h with rfl | ⟨sec, hsec⟩
  · left
    dsimp only
  · simp only [loadEngine, bind_eq_ok, pure_eq_ok] at hsec
    obtain ⟨_, -, cpu, hcpu, _, -, rfl⟩ := hsec
    rw [Toml.getFloat, Toml.getAs, bind_eq_ok] at hcpu
    obtain ⟨found, -, hcpu⟩ := hcpu
    dsimp only
    split_ifs at hcpu
    · obtain ⟨x, -, hx⟩ := bind_eq_ok.mp hcpu
      exact .inr ⟨x, (pure_eq_ok.mp hx).symm⟩
    · exact .inl (pure_eq_ok.mp hcpu).symm

theorem dvd_toNat_megabytes (mb : BitVec 64) : 2 ^ 20 ∣ (mb * 1024 * 1024).toNat := by
  have hmul : (mb * 1024 * 1024).toNat = mb.toNat * 1024 % 2 ^ 64 * 1024 % 2 ^ 64 := by
    rw [BitVec.toNat_mul, BitVec.toNat_mul]
    rfl
  omega

theorem expressible_segment {lib : Toml} {data : TomlValue} {c : JournalConfig}
    (h : loadSection lib data "journal" (loadJournal lib) {} = .ok c) :
    2 ^ 20 ∣ c.segmentSizeBytes.toNat := by
  rcases load_or_default h with rfl | ⟨sec, hsec⟩
  · decide
  · obtain ⟨⟨mb, -, hsize⟩, -⟩ := journal_ints hsec
    rw [hsize]
    exact dvd_toNat_megabytes mb

/-! ### A document for every configuration -/

theorem narrow_widen {w : Nat} (hw : w ≤ 64) (x : BitVec w) :
    BitVec.ofInt w (Int64.ofInt x.toNat).toInt = x := by
  have hdvd : (2 : Int) ^ w ∣ (2 ^ 64 : Nat) := by
    rw [Nat.cast_pow, Nat.cast_ofNat]
    exact pow_dvd_pow 2 hw
  have hword : (Int64.ofInt x.toNat).toInt = Int.bmod x.toNat (2 ^ 64) := Int64.toInt_ofInt
  apply BitVec.eq_of_toNat_eq
  rw [BitVec.toNat_ofInt, Nat.cast_pow, Nat.cast_ofNat, hword, ← Int.emod_emod_of_dvd _ hdvd,
    Int.bmod_emod, Int.emod_emod_of_dvd _ hdvd, Int.emod_eq_of_lt (by omega)]
  · exact Int.toNat_natCast _
  · exact_mod_cast x.isLt

/-- Every setting spelled out, but for the percentage, which is given apart. -/
def document (cpu : List (String × TomlValue)) (c : Config) : List (String × TomlValue) :=
  let int {w : Nat} (key : String) (x : BitVec w) : String × TomlValue :=
    (key, .integer (Int64.ofInt x.toNat))
  [("engine", .table (cpu ++
      [("log_level", .string c.engine.logLevel),
        int "overhead_budget_memory_mb" c.engine.overheadBudgetMemoryMb])),
    ("journal", .table
      [int "segment_size_mb" (c.journal.segmentSizeBytes / (1024 * 1024)),
        int "hot_retention_seconds" c.journal.hotRetentionSeconds,
        int "warm_retention_seconds" c.journal.warmRetentionSeconds,
        ("compaction_enabled", .boolean c.journal.compactionEnabled)]),
    ("object_store", .table
      [int "shard_count" c.objectStore.shardCount,
        int "small_alloc_threshold_bytes" c.objectStore.smallAllocThresholdBytes,
        int "tombstone_reap_interval_seconds" c.objectStore.tombstoneReapIntervalSeconds]),
    ("graph", .table [int "rcu_epoch_timeout_ms" c.graph.rcuEpochTimeoutMs]),
    ("probes", .table
      [int "sample_rate_hz" c.probes.sampleRateHz, ("cuda_enabled", .boolean c.probes.cudaEnabled),
        ("nvml_enabled", .boolean c.probes.nvmlEnabled)]),
    ("adapters", .table
      [int "python_gil_max_hold_us" c.adapters.pythonGilMaxHoldUs,
        int "python_batch_hz" c.adapters.pythonBatchHz]),
    ("dashboard", .table
      [int "websocket_port" c.dashboard.websocketPort, int "rest_port" c.dashboard.restPort,
        int "max_clients" c.dashboard.maxClients]),
    ("prediction", .table
      [int "cycle_interval_ms" c.prediction.cycleIntervalMs,
        ("models_enabled", .string c.prediction.modelsEnabled)]),
    ("advisor", .table
      [int "cycle_interval_ms" c.advisor.cycleIntervalMs, ("enabled", .boolean c.advisor.enabled)])]

/-- The percentage is left out where it is the default, or given as what is rounded to it. -/
def GivenBy (toFloat : Binary64 → Binary64) (c : Config) (cpu : List (String × TomlValue)) : Prop :=
  cpu = [] ∧ c.engine.overheadBudgetCpuPercent = Binary64.ofNat 2 ∨
    ∃ x, cpu = [("overhead_budget_cpu_percent", .floating x)] ∧
      c.engine.overheadBudgetCpuPercent = toFloat x

theorem Expressible.exists_givenBy {toFloat : Binary64 → Binary64} {c : Config}
    (h : c.Expressible toFloat) : ∃ cpu, c.GivenBy toFloat cpu := by
  rcases h.cpu with hcpu | ⟨x, hcpu⟩
  · exact ⟨[], .inl ⟨rfl, hcpu⟩⟩
  · exact ⟨_, .inr ⟨x, rfl, hcpu⟩⟩

theorem megabytes_mul {x : BitVec 64} (h : 2 ^ 20 ∣ x.toNat) :
    x / (1024 * 1024) * 1024 * 1024 = x := by
  apply BitVec.eq_of_toNat_eq
  have hdiv : (x / (1024 * 1024)).toNat = x.toNat / 2 ^ 20 := by
    rw [BitVec.toNat_udiv]
    rfl
  have hmul : (x / (1024 * 1024) * 1024 * 1024).toNat =
      x.toNat / 2 ^ 20 * 1024 % 2 ^ 64 * 1024 % 2 ^ 64 := by
    rw [BitVec.toNat_mul, BitVec.toNat_mul, hdiv]
    rfl
  have hlt : x.toNat < 2 ^ 64 := x.isLt
  omega

section Given

variable {lib : Toml} (hlib : lib.Lawful) {entries : List (String × TomlValue)} {key : String}

include hlib

theorem getInt_given {w : Nat} (hw : w ≤ 64) {x : BitVec w}
    (hkey : entries.lookup key = some (.integer (Int64.ofInt x.toNat))) (default : BitVec w) :
    lib.getInt (.table entries) key default = .ok x := by
  rw [getInt_of_lookup hlib.toReadsIntegers hkey, narrow_widen hw]

theorem getStr_given {x : String} (hkey : entries.lookup key = some (.string x))
    (default : String) : lib.getStr (.table entries) key default = .ok x :=
  getAs_given hlib.toReadsIntegers hkey (hlib.string _ _ _ _ hkey)

theorem getBool_given {x : Bool} (hkey : entries.lookup key = some (.boolean x))
    (default : Bool) : lib.getBool (.table entries) key default = .ok x :=
  getAs_given hlib.toReadsIntegers hkey (hlib.boolean _ _ _ _ hkey)

theorem getFloat_given {x : Binary64} (hkey : entries.lookup key = some (.floating x))
    (toFloat : Binary64 → Binary64) (default : Binary64) :
    lib.getFloat toFloat (.table entries) key default = .ok (toFloat x) :=
  getAs_given hlib.toReadsIntegers hkey (hlib.floating _ _ _ _ hkey)

end Given

section Document

variable {lib : Toml} (hlib : lib.Lawful) {toFloat : Binary64 → Binary64} {c : Config}
  {cpu : List (String × TomlValue)}

include hlib

/-- All sections but the first have their settings in fixed places. -/
theorem loaded_document (hsegment : 2 ^ 20 ∣ c.journal.segmentSizeBytes.toNat)
    (hengine : loadSection lib (.table (document cpu c)) "engine" (loadEngine lib toFloat) {} =
      .ok c.engine) :
    Loaded lib toFloat (.table (document cpu c)) c where
  engine := hengine
  journal := by
    refine (loadSection_of_lookup hlib.toReadsIntegers rfl).trans ?_
    simp only [loadJournal, bind_eq_ok, pure_eq_ok]
    refine ⟨_, getInt_given hlib (by decide) rfl _, _, getInt_given hlib (by decide) rfl _, _,
      getInt_given hlib (by decide) rfl _, _, getBool_given hlib rfl _, ?_⟩
    rw [megabytes_mul hsegment]
  objectStore := by
    refine (loadSection_of_lookup hlib.toReadsIntegers rfl).trans ?_
    simp only [loadObjectStore, bind_eq_ok, pure_eq_ok]
    exact ⟨_, getInt_given hlib (by decide) rfl _, _, getInt_given hlib (by decide) rfl _, _,
      getInt_given hlib (by decide) rfl _, rfl⟩
  graph := by
    refine (loadSection_of_lookup hlib.toReadsIntegers rfl).trans ?_
    simp only [loadGraph, bind_eq_ok, pure_eq_ok]
    exact ⟨_, getInt_given hlib (by decide) rfl _, rfl⟩
  probes := by
    refine (loadSection_of_lookup hlib.toReadsIntegers rfl).trans ?_
    simp only [loadProbes, bind_eq_ok, pure_eq_ok]
    exact ⟨_, getInt_given hlib (by decide) rfl _, _, getBool_given hlib rfl _, _,
      getBool_given hlib rfl _, rfl⟩
  adapters := by
    refine (loadSection_of_lookup hlib.toReadsIntegers rfl).trans ?_
    simp only [loadAdapters, bind_eq_ok, pure_eq_ok]
    exact ⟨_, getInt_given hlib (by decide) rfl _, _, getInt_given hlib (by decide) rfl _, rfl⟩
  dashboard := by
    refine (loadSection_of_lookup hlib.toReadsIntegers rfl).trans ?_
    simp only [loadDashboard, bind_eq_ok, pure_eq_ok]
    exact ⟨_, getInt_given hlib (by decide) rfl _, _, getInt_given hlib (by decide) rfl _, _,
      getInt_given hlib (by decide) rfl _, rfl⟩
  prediction := by
    refine (loadSection_of_lookup hlib.toReadsIntegers rfl).trans ?_
    simp only [loadPrediction, bind_eq_ok, pure_eq_ok]
    exact ⟨_, getInt_given hlib (by decide) rfl _, _, getStr_given hlib rfl _, rfl⟩
  advisor := by
    refine (loadSection_of_lookup hlib.toReadsIntegers rfl).trans ?_
    simp only [loadAdvisor, bind_eq_ok, pure_eq_ok]
    exact ⟨_, getInt_given hlib (by decide) rfl _, _, getBool_given hlib rfl _, rfl⟩

theorem loadDocument_document (h : c.GivenBy toFloat cpu)
    (hsegment : 2 ^ 20 ∣ c.journal.segmentSizeBytes.toNat) :
    loadDocument lib toFloat (.table (document cpu c)) = .ok c := by
  refine loadDocument_of_loaded (loaded_document hlib hsegment ?_)
  rcases h with ⟨rfl, hcpu⟩ | ⟨x, rfl, hcpu⟩
  · refine (loadSection_of_lookup hlib.toReadsIntegers rfl).trans ?_
    simp only [loadEngine, bind_eq_ok, pure_eq_ok]
    refine ⟨_, getStr_given hlib rfl _, _, getAs_missing hlib rfl _, _,
      getInt_given hlib (by decide) rfl _, ?_⟩
    rw [← hcpu]
  · refine (loadSection_of_lookup hlib.toReadsIntegers rfl).trans ?_
    simp only [loadEngine, bind_eq_ok, pure_eq_ok]
    refine ⟨_, getStr_given hlib rfl _, _, getFloat_given hlib rfl _ _, _,
      getInt_given hlib (by decide) rfl _, ?_⟩
    rw [← hcpu]

end Document

theorem givenBy_defaultTestConfig : defaultTestConfig.GivenBy id
    [("overhead_budget_cpu_percent", .floating (Binary64.ofNat 50))] := by
  refine .inr ⟨Binary64.ofNat 50, rfl, ?_⟩
  rw [defaultTestConfig, id]

end Config

end Ume
