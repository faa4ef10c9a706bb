import Ume.Event.EventAnalyzer
import Ume.Event.StatisticsBalance

/-! The table of the analyzer against the figures kept beside it: the bytes by
tier of the collector, and the summary of the context. -/

namespace Ume

open ByteString

namespace EventAnalyzer

/-- What every event does before it is handled by its type. -/
def tick (a : EventAnalyzer) (event : Event) : EventAnalyzer :=
  let a :=
    { a with
      contextState :=
        { a.contextState with totalEventsProcessed := a.contextState.totalEventsProcessed + 1 } }
  if event.header.timestamp < a.lastTimestamp then
    { a with
      contextState :=
        { a.contextState with outOfOrderEvents := a.contextState.outOfOrderEvents + 1 } }
  else { a with lastTimestamp := event.header.timestamp }

theorem processEvent_eq (a : EventAnalyzer) (e : Event) : a.processEvent e =
    if e.header.type = EventType.kObjectCreated then (a.tick e).handleObjectCreated e
    else if e.header.type = EventType.kObjectDestroyed then (a.tick e).handleObjectDestroyed e
    else if e.header.type = EventType.kMigrationCompleted then
      (a.tick e).handleMigrationCompleted e
    else a.tick e := rfl

section Tick

variable (a : EventAnalyzer) (e : Event)

@[simp] theorem activeMap_tick : (a.tick e).activeMap = a.activeMap := by
  unfold tick
  dsimp only
  split_ifs <;> rfl

@[simp] theorem statsCollector_tick : (a.tick e).statsCollector = a.statsCollector := by
  unfold tick
  dsimp only
  split_ifs <;> rfl

@[simp] theorem activeBytes_tick :
    (a.tick e).contextState.activeBytes = a.contextState.activeBytes := by
  unfold tick
  dsimp only
  split_ifs <;> rfl

@[simp] theorem peakBytes_tick :
    (a.tick e).contextState.peakBytes = a.contextState.peakBytes := by
  unfold tick
  dsimp only
  split_ifs <;> rfl

@[simp] theorem activeAllocationsCount_tick :
    (a.tick e).contextState.activeAllocationsCount = a.contextState.activeAllocationsCount := by
  unfold tick
  dsimp only
  split_ifs <;> rfl

end Tick

abbrev ActiveMap := AList fun _ : UInt64 => ActiveAllocation

/-- The bytes of the table, and its bytes in one tier. -/
def tableBytes (m : ActiveMap) : Nat := Table.sum (fun alloc => alloc.sizeBytes.toNat) m

def tierBytes (m : ActiveMap) (t : TierClass) : Nat :=
  Table.sum (fun alloc => if alloc.tier = t then alloc.sizeBytes.toNat else 0) m

theorem tierBytes_le (m : ActiveMap) (t : TierClass) : tierBytes m t ≤ tableBytes m := by
  apply List.sum_le_sum
  intro entry _
  dsimp only
  split_ifs
  · exact Nat.le_refl _
  · exact Nat.zero_le _

theorem tableBytes_erase_le (m : ActiveMap) (k : UInt64) :
    tableBytes (m.erase k) ≤ tableBytes m := by
  cases h : m.lookup k with
  | none => rw [Table.erase_of_lookup h]
  | some alloc =>
    rw [tableBytes, tableBytes, Table.sum_of_lookup _ h]
    exact Nat.le_add_left ..

theorem activeMap_destroyed (a : EventAnalyzer) (e : Event) :
    (a.handleObjectDestroyed e).activeMap = a.activeMap.erase e.header.objectId := by
  unfold handleObjectDestroyed
  cases h : a.activeMap.lookup e.header.objectId with
  | none => exact (Table.erase_of_lookup h).symm
  | some alloc => rfl

theorem tableBytes_migrated (a : EventAnalyzer) (e : Event) :
    tableBytes (a.handleMigrationCompleted e).activeMap = tableBytes a.activeMap := by
  unfold handleMigrationCompleted
  cases h : a.activeMap.lookup e.header.objectId with
  | none => rfl
  | some alloc =>
    dsimp only
    rw [tableBytes, tableBytes, Table.sum_replace _ h, Table.sum_of_lookup _ h]

/-- The bytes an event adds to the table. -/
def createdBytes (e : Event) : Nat :=
  if e.header.type = EventType.kObjectCreated then e.objectSizeBytes.toNat else 0

theorem tableBytes_processEvent_le (a : EventAnalyzer) (e : Event) :
    tableBytes (a.processEvent e).activeMap ≤ tableBytes a.activeMap + createdBytes e := by
  rw [processEvent_eq, createdBytes]
  split_ifs with hc hd hm
  · rw [handleObjectCreated, tableBytes, Table.sum_insert, activeMap_tick, Nat.add_comm]
    exact Nat.add_le_add_right (tableBytes_erase_le ..) _
  · rw [activeMap_destroyed, activeMap_tick]
    exact tableBytes_erase_le ..
  · rw [tableBytes_migrated, activeMap_tick]
    exact Nat.le_refl _
  · rw [activeMap_tick]
    exact Nat.le_refl _

theorem tableBytes_le_created (events : List Event) (a : EventAnalyzer) :
    tableBytes (events.foldl processEvent a).activeMap ≤
      tableBytes a.activeMap + (events.map createdBytes).sum := by
  induction events generalizing a with
  | nil => exact Nat.le_refl _
  | cons e events ih =>
    have h := tableBytes_processEvent_le a e
    have hrest := ih (a.processEvent e)
    rw [List.foldl_cons, List.map_cons, List.sum_cons]
    omega

theorem tableBytes_add_lt {a : EventAnalyzer} {events before : List Event} {e : Event}
    (ha : a.activeMap = ∅) (hb : before ++ [e] <+: events)
    (hlt : (events.map createdBytes).sum < 2 ^ 64) :
    tableBytes (before.foldl processEvent a).activeMap + createdBytes e < 2 ^ 64 := by
  have hle := tableBytes_le_created before a
  have hempty : tableBytes a.activeMap = 0 := by rw [ha]; rfl
  obtain ⟨rest, rfl⟩ := hb
  rw [List.append_assoc, List.map_append, List.sum_append, List.singleton_append, List.map_cons,
    List.sum_cons] at hlt
  omega

/-- The collector has the bytes of the table in every tier. -/
def TiersAgree (a : EventAnalyzer) : Prop :=
  ∀ c ∈ a.statsCollector, ∀ t, (c.tierStatistics t).currentBytes.toNat = tierBytes a.activeMap t

section Tiers

variable {a : EventAnalyzer} {e : Event}

theorem TiersAgree.created (h : TiersAgree a) (hnew : a.activeMap.lookup e.header.objectId = none)
    (hlt : tableBytes a.activeMap + e.objectSizeBytes.toNat < 2 ^ 64) :
    TiersAgree (a.handleObjectCreated e) := by
  intro c' hc' t
  obtain ⟨c, hc, rfl⟩ := Option.map_eq_some_iff.mp hc'
  have hle := tierBytes_le a.activeMap t
  have hsum : tierBytes (a.handleObjectCreated e).activeMap t =
      (if e.objectPreferredTier = t then e.objectSizeBytes.toNat else 0) +
        tierBytes a.activeMap t := by
    rw [handleObjectCreated, tierBytes, Table.sum_insert, Table.erase_of_lookup hnew, tierBytes]
  rw [hsum, StatisticsCollector.tierStatistics_recordAllocation]
  split_ifs with ht
  · subst ht
    rw [TierStatistics.recordAllocation, UInt64.toNat_add, h c hc]
    omega
  · rw [h c hc, Nat.zero_add]

theorem TiersAgree.destroyed (h : TiersAgree a) : TiersAgree (a.handleObjectDestroyed e) := by
  cases hl : a.activeMap.lookup e.header.objectId with
  | none =>
    unfold TiersAgree handleObjectDestroyed
    rw [hl]
    exact h
  | some alloc =>
    intro c' hc' t
    simp only [handleObjectDestroyed, hl] at hc' ⊢
    obtain ⟨c, hc, rfl⟩ := Option.map_eq_some_iff.mp hc'
    have hsum := Table.sum_of_lookup
      (fun alloc => if alloc.tier = t then alloc.sizeBytes.toNat else 0) hl
    have ht := h c hc t
    rw [StatisticsCollector.tierStatistics_recordFree]
    unfold tierBytes at ht ⊢
    rw [hsum] at ht
    split_ifs at ht ⊢ with htier
    · subst htier
      have hle : alloc.sizeBytes ≤ (c.tierStatistics alloc.tier).currentBytes :=
        UInt64.le_iff_toNat_le.mpr (by omega)
      rw [TierStatistics.recordFree, toNat_saturatingSub hle, ht]
      omega
    · rw [ht, Nat.zero_add]

/-- A finished migration renames the tier in the table only. -/
theorem TiersAgree.migrated_iff (h : TiersAgree a) (hc : a.statsCollector.isSome) :
    TiersAgree (a.handleMigrationCompleted e) ↔
      ∀ alloc ∈ a.activeMap.lookup e.header.objectId,
        alloc.sizeBytes = 0 ∨ alloc.tier = TierClass.kRam := by
  cases hl : a.activeMap.lookup e.header.objectId with
  | none =>
    unfold TiersAgree handleMigrationCompleted
    rw [hl]
    exact iff_of_true h (by simp)
  | some alloc =>
    obtain ⟨c, hc⟩ := Option.isSome_iff_exists.mp hc
    have hold : ∀ t, (c.tierStatistics t).currentBytes.toNat =
        (if alloc.tier = t then alloc.sizeBytes.toNat else 0) +
          tierBytes (a.activeMap.erase e.header.objectId) t := by
      intro t
      rw [h c hc, tierBytes, Table.sum_of_lookup _ hl, tierBytes]
    have hnew : ∀ t, tierBytes (a.handleMigrationCompleted e).activeMap t =
        (if TierClass.kRam = t then alloc.sizeBytes.toNat else 0) +
          tierBytes (a.activeMap.erase e.header.objectId) t := by
      intro t
      unfold handleMigrationCompleted
      rw [hl]
      exact Table.sum_replace _ hl _
    have hsame : (a.handleMigrationCompleted e).statsCollector = some c := by
      unfold handleMigrationCompleted
      rw [hl]
      exact hc
    constructor
    · intro hagree alloc' halloc
      obtain rfl := Option.some.inj halloc
      have ht := hagree c hsame alloc.tier
      rw [hold, hnew, if_pos rfl] at ht
      by_cases htier : alloc.tier = TierClass.kRam
      · exact .inr htier
      · rw [if_neg (Ne.symm htier)] at ht
        exact .inl (UInt64.toNat_inj.mp (by simpa using ht))
    · intro hsafe c' hc' t
      obtain rfl : c = c' := Option.some.inj (hsame.symm.trans hc')
      rw [hold, hnew]
      rcases hsafe alloc rfl with hz | hram
      · rw [hz]
        simp
      · rw [hram]

/-- No object is created again while it is active. -/
def CreatesNew (a : EventAnalyzer) (e : Event) : Prop :=
  e.header.type = EventType.kObjectCreated → a.isAllocated e.header.objectId = false

/-- A finished migration is of an object that is not active, is empty, or is
already counted in RAM. -/
def MigratesWithinRam (a : EventAnalyzer) (e : Event) : Prop :=
  e.header.type = EventType.kMigrationCompleted →
    ∀ alloc ∈ a.activeMap.lookup e.header.objectId,
      alloc.sizeBytes = 0 ∨ alloc.tier = TierClass.kRam

theorem tiersAgree_tick : TiersAgree (a.tick e) ↔ TiersAgree a := by
  unfold TiersAgree
  rw [activeMap_tick, statsCollector_tick]

theorem TiersAgree.processEvent_iff (h : TiersAgree a) (hc : a.statsCollector.isSome)
    (hnew : CreatesNew a e) (hlt : tableBytes a.activeMap + createdBytes e < 2 ^ 64) :
    TiersAgree (a.processEvent e) ↔ MigratesWithinRam a e := by
  have ht : TiersAgree (a.tick e) := tiersAgree_tick.mpr h
  rw [processEvent_eq]
  split_ifs with hcreated hdestroyed hmigrated
  · have hnone : a.activeMap.lookup e.header.objectId = none := by
      simpa [isAllocated] using hnew hcreated
    rw [createdBytes, if_pos hcreated] at hlt
    refine iff_of_true (ht.created (by rwa [activeMap_tick]) (by rwa [activeMap_tick])) ?_
    intro hm
    exact absurd (hcreated.symm.trans hm) (by decide)
  · refine iff_of_true ht.destroyed fun hm => ?_
    exact absurd (hdestroyed.symm.trans hm) (by decide)
  · rw [ht.migrated_iff (by rwa [statsCollector_tick]), activeMap_tick]
    exact ⟨fun hsafe _ => hsafe, fun hsafe => hsafe hmigrated⟩
  · exact iff_of_true ht fun hm => absurd hm hmigrated

theorem isSome_statsCollector_processEvent (a : EventAnalyzer) (e : Event) :
    (a.processEvent e).statsCollector.isSome = a.statsCollector.isSome := by
  rw [processEvent_eq, ← statsCollector_tick a e]
  split_ifs
  · rw [handleObjectCreated, Option.isSome_map]
  · unfold handleObjectDestroyed
    split
    · rfl
    · rw [Option.isSome_map]
  · unfold handleMigrationCompleted
    split <;> rfl
  · rfl

theorem isSome_statsCollector_foldl (events : List Event) (a : EventAnalyzer) :
    (events.foldl processEvent a).statsCollector.isSome = a.statsCollector.isSome := by
  induction events generalizing a with
  | nil => rfl
  | cons e events ih => rw [List.foldl_cons, ih, isSome_statsCollector_processEvent]

/-- The collector and the table agree on every tier after every event exactly when
no migration of an active object that has bytes outside RAM is finished. -/
theorem tiers_agree_iff {events : List Event}
    (hnew : Folds.Along processEvent CreatesNew fresh events)
    (hlt : (events.map createdBytes).sum < 2 ^ 64) :
    (∀ before, before <+: events → TiersAgree (before.foldl processEvent fresh)) ↔
      Folds.Along processEvent MigratesWithinRam fresh events := by
  have hstep : ∀ before e, before ++ [e] <+: events →
      TiersAgree (before.foldl processEvent fresh) →
      (TiersAgree ((before ++ [e]).foldl processEvent fresh) ↔
        MigratesWithinRam (before.foldl processEvent fresh) e) := by
    intro before e hb hagree
    rw [List.foldl_append]
    exact hagree.processEvent_iff (isSome_statsCollector_foldl before fresh)
      (hnew before e hb) (tableBytes_add_lt rfl hb hlt)
  constructor
  · intro hall before e hb
    exact (hstep before e hb (hall before ((List.prefix_append before [e]).trans hb))).mp
      (hall (before ++ [e]) hb)
  · intro hok
    refine hok.induction ?_ fun before e hb hm hagree => (hstep before e hb hagree).mpr hm
    intro c hc t
    obtain rfl := Option.some.inj hc
    rfl

def eightBytes (tier : TierClass) : Event where
  header := { type := EventType.kObjectCreated, objectId := 7 }
  payload := Block.ofList 64 [8, 0, 0, 0, 0, 0, 0, 0, 0, 0, 0, 0, tier]

def migrationCompleted : Event where
  header := { type := EventType.kMigrationCompleted, objectId := 7 }

theorem tiers_agree_in_ram :
    Folds.Along processEvent CreatesNew fresh [eightBytes TierClass.kRam, migrationCompleted] ∧
      TiersAgree ([eightBytes TierClass.kRam, migrationCompleted].foldl processEvent fresh) := by
  have hnew : Folds.Along processEvent CreatesNew fresh
      [eightBytes TierClass.kRam, migrationCompleted] := by
    refine Folds.along_cons (fun _ => rfl) (Folds.along_cons (fun h => ?_) Folds.along_nil)
    exact absurd h (by decide)
  refine ⟨hnew, (tiers_agree_iff hnew (by decide +kernel)).mpr ?_ _ List.prefix_rfl⟩
  refine Folds.along_cons (fun h => absurd h (by decide))
    (Folds.along_cons (fun _ alloc halloc => .inr ?_) Folds.along_nil)
  obtain rfl := Option.some.inj halloc
  decide +kernel

/-- A migration out of VRAM leaves its bytes there in the collector. -/
theorem migration_splits_tiers :
    ¬ TiersAgree ([eightBytes TierClass.kVram, migrationCompleted].foldl processEvent fresh) := by
  intro h
  have ht := h _ rfl TierClass.kVram
  revert ht
  decide +kernel

end Tiers

section Summary

variable {a : EventAnalyzer} {e : Event}

/-- The summary of the context, and the count of the collector, are those of the
table of active allocations. -/
structure SummaryAgrees (a : EventAnalyzer) : Prop where
  bytes : a.context.activeBytes.toNat =
    (a.activeAllocations.map fun alloc => alloc.sizeBytes.toNat).sum
  count : a.context.activeAllocationsCount = UInt64.ofNat a.activeAllocations.length
  collector : ∀ c ∈ a.statsCollector,
    c.snapshot.activeAllocationsCount = UInt64.ofNat a.activeAllocations.length

structure Summed (a : EventAnalyzer) : Prop where
  bytes : a.contextState.activeBytes.toNat = tableBytes a.activeMap
  count : a.contextState.activeAllocationsCount = UInt64.ofNat a.activeMap.entries.length
  counted : ∀ c ∈ a.statsCollector,
    c.totalAllocations.toNat = c.totalFrees.toNat + a.activeMap.entries.length

theorem Summed.agrees (h : Summed a) : SummaryAgrees a where
  bytes := by
    rw [activeAllocations, List.map_map]
    exact h.bytes
  count := by
    rw [activeAllocations, List.length_map]
    exact h.count
  collector := by
    intro c hc
    have hcount := h.counted c hc
    have hle : c.totalFrees ≤ c.totalAllocations := UInt64.le_iff_toNat_le.mpr (by omega)
    rw [StatisticsCollector.snapshot, activeAllocations, List.length_map]
    dsimp only
    rw [if_pos hle]
    apply UInt64.toNat_inj.mp
    rw [UInt64.toNat_sub_of_le _ _ hle, hcount, Nat.add_sub_cancel_left, UInt64.toNat_ofNat',
      Nat.mod_eq_of_lt]
    have := c.totalAllocations.toNat_lt
    omega

/-- The event does not replace an entry that is counted, and the count of
allocations does not wrap. -/
def KeepsSummary (a : EventAnalyzer) (e : Event) : Prop :=
  e.header.type = EventType.kObjectCreated →
    (∀ old ∈ a.activeMap.lookup e.header.objectId,
      old.sizeBytes = 0 ∧ a.statsCollector = none) ∧
    ∀ c ∈ a.statsCollector, c.totalAllocations.toNat + 1 < 2 ^ 64

theorem Summed.created (h : Summed a)
    (hold : ∀ old ∈ a.activeMap.lookup e.header.objectId,
      old.sizeBytes = 0 ∧ a.statsCollector = none)
    (hwrap : ∀ c ∈ a.statsCollector, c.totalAllocations.toNat + 1 < 2 ^ 64)
    (hlt : tableBytes a.activeMap + e.objectSizeBytes.toNat < 2 ^ 64) :
    Summed (a.handleObjectCreated e) where
  bytes := by
    have herase : tableBytes (a.activeMap.erase e.header.objectId) = tableBytes a.activeMap := by
      cases hl : a.activeMap.lookup e.header.objectId with
      | none => rw [Table.erase_of_lookup hl]
      | some old =>
        rw [tableBytes, tableBytes, Table.sum_of_lookup _ hl, (hold old hl).1]
        exact (Nat.zero_add _).symm
    have hsum : tableBytes (a.handleObjectCreated e).activeMap =
        e.objectSizeBytes.toNat + tableBytes (a.activeMap.erase e.header.objectId) :=
      Table.sum_insert ..
    rw [hsum, herase, handleObjectCreated, UInt64.toNat_add, h.bytes]
    omega
  count := by rw [handleObjectCreated, activeCount, Table.length_keys]
  counted := by
    intro c' hc'
    obtain ⟨c, hc, rfl⟩ := Option.map_eq_some_iff.mp hc'
    have hcount := h.counted c hc
    have hnone : a.activeMap.lookup e.header.objectId = none := by
      by_contra hsome
      obtain ⟨old, hl⟩ := Option.ne_none_iff_exists'.mp hsome
      rw [(hold old hl).2] at hc
      cases hc
    have hlen : (a.handleObjectCreated e).activeMap.entries.length =
        a.activeMap.entries.length + 1 := Table.length_insert hnone _
    rw [hlen, (StatisticsCollector.counts_recordAllocation ..).1,
      (StatisticsCollector.counts_recordAllocation ..).2, toNat_add_one (hwrap c hc), hcount]
    rfl

theorem Summed.destroyed (h : Summed a) : Summed (a.handleObjectDestroyed e) := by
  cases hl : a.activeMap.lookup e.header.objectId with
  | none =>
    unfold handleObjectDestroyed
    rw [hl]
    exact { h with }
  | some alloc =>
    have hsum := Table.sum_of_lookup (fun alloc => alloc.sizeBytes.toNat) hl
    have hlen := Table.length_erase hl
    unfold handleObjectDestroyed
    rw [hl]
    exact
      { bytes := by
          have hbytes := h.bytes
          unfold tableBytes at hbytes ⊢
          rw [hsum] at hbytes
          have hle : alloc.sizeBytes ≤ a.contextState.activeBytes :=
            UInt64.le_iff_toNat_le.mpr (by omega)
          dsimp only
          rw [toNat_saturatingSub hle]
          omega
        count := by
          dsimp only
          rw [activeCount, Table.length_keys]
        counted := by
          intro c' hc'
          obtain ⟨c, hc, rfl⟩ := Option.map_eq_some_iff.mp hc'
          have hcount := h.counted c hc
          have := c.totalAllocations.toNat_lt
          dsimp only
          rw [(StatisticsCollector.counts_recordFree ..).1,
            (StatisticsCollector.counts_recordFree ..).2, toNat_add_one (by omega), hcount, hlen]
          omega }

theorem Summed.migrated (h : Summed a) : Summed (a.handleMigrationCompleted e) where
  bytes := by
    rw [tableBytes_migrated, ← h.bytes]
    unfold handleMigrationCompleted
    split <;> rfl
  count := by
    unfold handleMigrationCompleted
    split
    · exact h.count
    · dsimp only
      rw [Table.length_replace]
      exact h.count
  counted := by
    unfold handleMigrationCompleted
    split
    · exact h.counted
    · dsimp only
      rw [Table.length_replace]
      exact h.counted

theorem Summed.tick (h : Summed a) : Summed (a.tick e) where
  bytes := by rw [activeBytes_tick, activeMap_tick, h.bytes]
  count := by rw [activeAllocationsCount_tick, activeMap_tick, h.count]
  counted := by
    rw [statsCollector_tick, activeMap_tick]
    exact h.counted

theorem Summed.processEvent (h : Summed a) (hok : KeepsSummary a e)
    (hlt : tableBytes a.activeMap + createdBytes e < 2 ^ 64) : Summed (a.processEvent e) := by
  rw [processEvent_eq]
  split_ifs with hcreated
  · obtain ⟨hold, hwrap⟩ := hok hcreated
    rw [createdBytes, if_pos hcreated] at hlt
    rw [← activeMap_tick a e, ← statsCollector_tick a e] at hold
    rw [← statsCollector_tick a e] at hwrap
    rw [← activeMap_tick a e] at hlt
    exact h.tick.created hold hwrap hlt
  · exact h.tick.destroyed
  · exact h.tick.migrated
  · exact h.tick

theorem peakBytes_processEvent (a : EventAnalyzer) (e : Event)
    (h : a.context.activeBytes.toNat ≤ a.context.peakBytes.toNat) :
    (a.processEvent e).context.peakBytes.toNat =
      max (a.processEvent e).context.activeBytes.toNat a.context.peakBytes.toNat := by
  have hsame : a.context.peakBytes.toNat =
      max a.context.activeBytes.toNat a.context.peakBytes.toNat := (Nat.max_eq_right h).symm
  simp only [context] at h hsame ⊢
  rw [processEvent_eq]
  split_ifs
  · rw [handleObjectCreated, activeBytes_tick, peakBytes_tick,
      StatisticsCollector.toNat_max, Nat.max_comm]
  · unfold handleObjectDestroyed
    split
    · dsimp only
      rwa [activeBytes_tick, peakBytes_tick]
    · dsimp only
      rw [activeBytes_tick, peakBytes_tick]
      have hle := UInt64.le_iff_toNat_le.mp
        (saturatingSub_le a.contextState.activeBytes (ActiveAllocation.sizeBytes ‹_›))
      exact (Nat.max_eq_right (hle.trans h)).symm
  · unfold handleMigrationCompleted
    split
    · rwa [activeBytes_tick, peakBytes_tick]
    · dsimp only
      rwa [activeBytes_tick, peakBytes_tick]
  · rwa [activeBytes_tick, peakBytes_tick]

/-- The summary is that of the table after every event of a stream in which no
counted entry is replaced. The peak is the maximum in any case. -/
theorem summary_agrees {attached : Option StatisticsCollector}
    (hattached : attached = none ∨ attached = some {}) {events : List Event}
    (hok : Folds.Along processEvent KeepsSummary { statsCollector := attached } events)
    (hlt : (events.map createdBytes).sum < 2 ^ 64) (before : List Event)
    (hb : before <+: events) :
    SummaryAgrees (before.foldl processEvent { statsCollector := attached }) ∧
      IsGreatest
        (Folds.Takes processEvent { statsCollector := attached }
          (fun a => a.context.activeBytes.toNat) before)
        (before.foldl processEvent { statsCollector := attached }).context.peakBytes.toNat := by
  refine ⟨Summed.agrees ?_, Folds.isGreatest_peak (by rfl) peakBytes_processEvent before⟩
  refine hok.induction (motive := fun before => Summed (before.foldl processEvent _)) ?_ ?_
    before hb
  · refine ⟨rfl, rfl, fun c hc => ?_⟩
    rcases hattached with rfl | rfl
    · cases hc
    · obtain rfl := Option.some.inj hc
      rfl
  · intro before e hb he h
    rw [List.foldl_append]
    exact h.processEvent he (tableBytes_add_lt rfl hb hlt)

instance (a : EventAnalyzer) (e : Event) : Decidable (KeepsSummary a e) :=
  inferInstanceAs (Decidable (_ → _))

def objectDestroyed (id : UInt64) : Event where
  header := { type := EventType.kObjectDestroyed, objectId := id }

/-- An object is created, destroyed and created once more; in between one is destroyed that
was never created. -/
theorem summary_agrees_recreated :
    let events := [eightBytes TierClass.kVram, objectDestroyed 9, objectDestroyed 7,
      objectDestroyed 7, eightBytes TierClass.kRam]
    let a := events.foldl processEvent { statsCollector := some {} }
    a.context.activeBytes = 8 ∧ a.context.activeAllocationsCount = 1 ∧ SummaryAgrees a := by
  intro events a
  have hok : Folds.Along processEvent KeepsSummary { statsCollector := some {} } events :=
    Folds.along_cons (by decide +kernel) (Folds.along_cons (by decide +kernel)
      (Folds.along_cons (by decide +kernel) (Folds.along_cons (by decide +kernel)
        (Folds.along_cons (by decide +kernel) Folds.along_nil))))
  exact ⟨by decide +kernel, by decide +kernel,
    (summary_agrees (.inr rfl) hok (by decide +kernel) events List.prefix_rfl).1⟩

/-- An object that is created twice is counted twice, and is one entry. -/
theorem recreation_breaks_summary :
    ¬ SummaryAgrees ([eightBytes TierClass.kRam, eightBytes TierClass.kRam].foldl processEvent
      { statsCollector := some {} }) := by
  intro h
  exact absurd h.bytes (by decide +kernel)

end Summary

end EventAnalyzer

end Ume
