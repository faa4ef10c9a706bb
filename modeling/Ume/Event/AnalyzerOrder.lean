import Ume.Event.AnalyzerBalance

/-! The analyzer on the events of many objects. What it keeps for an object comes from that
object's own events, so the events of different objects may be interleaved in any way. -/

namespace Ume

namespace EventAnalyzer

def eventsOf (id : UInt64) (events : List Event) : List Event :=
  events.filter (·.header.objectId = id)

def Creates (id : UInt64) (e : Event) : Prop :=
  e.header.objectId = id ∧ e.header.type = EventType.kObjectCreated

def Destroys (id : UInt64) (e : Event) : Prop :=
  e.header.objectId = id ∧ e.header.type = EventType.kObjectDestroyed

/-- The entry that a creation makes. -/
def allocationOf (e : Event) : ActiveAllocation where
  objectId := e.header.objectId
  sizeBytes := e.objectSizeBytes
  allocatedTimestamp := e.header.timestamp
  tier := e.objectPreferredTier
  processId := e.header.sequenceNum

/-- What an event makes of the entry of its own object. -/
def track (entry : Option ActiveAllocation) (e : Event) : Option ActiveAllocation :=
  if e.header.type = EventType.kObjectCreated then some (allocationOf e)
  else if e.header.type = EventType.kObjectDestroyed then none
  else if e.header.type = EventType.kMigrationCompleted then
    entry.map fun alloc => { alloc with tier := TierClass.kRam }
  else entry

def entry (a : EventAnalyzer) (id : UInt64) : Option ActiveAllocation := a.activeMap.lookup id

section Step

variable (a : EventAnalyzer) (e : Event)

theorem entry_migrated (id : UInt64) : (a.handleMigrationCompleted e).entry id =
    if e.header.objectId = id then
      (a.entry id).map fun alloc => { alloc with tier := TierClass.kRam }
    else a.entry id := by
  unfold handleMigrationCompleted entry
  by_cases hid : e.header.objectId = id
  · subst hid
    cases h : a.activeMap.lookup e.header.objectId with
    | none => simp [h]
    | some alloc => simp [Table.lookup_replace, h]
  · cases h : a.activeMap.lookup e.header.objectId with
    | none => simp [hid]
    | some alloc => simp [Table.lookup_replace, hid]

theorem entry_processEvent (id : UInt64) : (a.processEvent e).entry id =
    if e.header.objectId = id then track (a.entry id) e else a.entry id := by
  have htick : (a.tick e).entry id = a.entry id := by simp [entry]
  rw [processEvent_eq]
  unfold track
  by_cases hid : e.header.objectId = id
  · rw [if_pos hid]
    subst hid
    split_ifs with hc hd hm
    · simp [entry, handleObjectCreated, allocationOf]
    · simp [entry, activeMap_destroyed]
    · rw [entry_migrated, if_pos rfl, htick]
    · exact htick
  · rw [if_neg hid]
    split_ifs with hc hd hm
    · simp [entry, handleObjectCreated, AList.lookup_insert_ne (Ne.symm hid)]
    · simp [entry, activeMap_destroyed, AList.lookup_erase_ne (Ne.symm hid)]
    · rw [entry_migrated, if_neg hid, htick]
    · exact htick

theorem isSome_entry_processEvent {id : UInt64} (h : ¬ Creates id e) :
    ((a.processEvent e).entry id).isSome ↔ ¬ Destroys id e ∧ (a.entry id).isSome := by
  rw [entry_processEvent]
  by_cases hid : e.header.objectId = id
  · have hc : e.header.type ≠ EventType.kObjectCreated := fun hc => h ⟨hid, hc⟩
    rw [if_pos hid, track, if_neg hc]
    by_cases hd : e.header.type = EventType.kObjectDestroyed
    · simp [Destroys, hid, hd]
    · by_cases hm : e.header.type = EventType.kMigrationCompleted
      · rw [if_neg hd, if_pos hm, Option.isSome_map]
        simp [Destroys, hd]
      · simp [Destroys, hd, hm]
  · simp [hid, Destroys]

theorem activeAllocationsCount_processEvent
    (h : a.contextState.activeAllocationsCount = activeCount a.activeMap) :
    (a.processEvent e).contextState.activeAllocationsCount =
      activeCount (a.processEvent e).activeMap := by
  rw [processEvent_eq]
  split_ifs with hc hd hm
  · rfl
  · unfold handleObjectDestroyed
    cases hl : (a.tick e).activeMap.lookup e.header.objectId with
    | none => simpa using h
    | some alloc => rfl
  · unfold handleMigrationCompleted
    cases hl : (a.tick e).activeMap.lookup e.header.objectId with
    | none => simpa using h
    | some alloc => simpa [activeCount] using h
  · simpa using h

theorem totalEventsProcessed_processEvent : (a.processEvent e).contextState.totalEventsProcessed =
    a.contextState.totalEventsProcessed + 1 := by
  have htick : (a.tick e).contextState.totalEventsProcessed =
      a.contextState.totalEventsProcessed + 1 := by
    unfold tick
    dsimp only
    split_ifs <;> rfl
  rw [processEvent_eq]
  split_ifs with hc hd hm
  · exact htick
  · unfold handleObjectDestroyed
    cases (a.tick e).activeMap.lookup e.header.objectId <;> exact htick
  · unfold handleMigrationCompleted
    cases (a.tick e).activeMap.lookup e.header.objectId <;> exact htick
  · exact htick

end Step

section Stream

variable (a : EventAnalyzer) (events : List Event)

theorem entry_foldl (id : UInt64) : (events.foldl processEvent a).entry id =
    (eventsOf id events).foldl track (a.entry id) :=
  Folds.look_foldl entry_processEvent a events id

theorem activeAllocationsCount_foldl
    (h : a.contextState.activeAllocationsCount = activeCount a.activeMap) :
    (events.foldl processEvent a).contextState.activeAllocationsCount =
      activeCount (events.foldl processEvent a).activeMap := by
  induction events generalizing a with
  | nil => exact h
  | cons e events ih => exact ih _ (activeAllocationsCount_processEvent a e h)

theorem totalEventsProcessed_foldl :
    (events.foldl processEvent a).contextState.totalEventsProcessed =
      a.contextState.totalEventsProcessed + UInt64.ofNat events.length := by
  induction events generalizing a with
  | nil => simp
  | cons e events ih =>
    rw [List.foldl_cons, ih, totalEventsProcessed_processEvent, List.length_cons,
      Nat.add_comm events.length, UInt64.ofNat_add, ← UInt64.add_assoc]
    rfl

end Stream

/-- An object has an entry exactly if it was created and not destroyed since. -/
theorem isSome_entry_iff {a : EventAnalyzer} {id : UInt64} (hnew : a.entry id = none)
    (events : List Event) : ((events.foldl processEvent a).entry id).isSome ↔
      ∃ before e after, events = before ++ e :: after ∧ Creates id e ∧
        ∀ x ∈ after, ¬ Destroys id x := by
  induction events using List.reverseRecOn with
  | nil => simp [hnew]
  | append_singleton events x ih =>
    rw [List.foldl_append, List.foldl_cons, List.foldl_nil, entry_processEvent]
    by_cases hcreates : Creates id x
    · rw [if_pos hcreates.1, track, if_pos hcreates.2]
      exact iff_of_true rfl ⟨events, x, [], rfl, hcreates, by simp⟩
    · rw [← entry_processEvent, isSome_entry_processEvent _ _ hcreates, ih]
      constructor
      · rintro ⟨hkeep, before, e, after, rfl, hc, hafter⟩
        refine ⟨before, e, after ++ [x], by simp, hc, fun y hy => ?_⟩
        rcases List.mem_append.mp hy with hy | hy
        · exact hafter y hy
        · rwa [List.mem_singleton.mp hy]
      · rintro ⟨before, e, after, heq, hc, hafter⟩
        rcases List.eq_nil_or_concat after with rfl | ⟨init, y, rfl⟩
        · have hlast : x = e := List.singleton_inj.mp (List.append_inj' heq rfl).2
          exact absurd (hlast ▸ hc) hcreates
        · have heq' : events ++ [x] = (before ++ e :: init) ++ [y] := by simpa using heq
          obtain ⟨hinit, hlast⟩ := List.append_inj' heq' rfl
          have hxy : x = y := List.singleton_inj.mp hlast
          refine ⟨hxy ▸ hafter y (by simp), before, e, init, hinit, hc, fun z hz => ?_⟩
          exact hafter z (by simp [hz])

/-- Two streams that have the same events for each object, in whatever way these are
interleaved, leave the same open allocations, and these are the objects that were created and
not destroyed since. -/
theorem analysis_by_object (attached : Option StatisticsCollector) {events events' : List Event}
    (h : ∀ id, eventsOf id events = eventsOf id events') :
    let a := events.foldl processEvent { statsCollector := attached }
    let a' := events'.foldl processEvent { statsCollector := attached }
    (∀ id, a.getAllocation id = a'.getAllocation id) ∧
      a.activeAllocations.Perm a'.activeAllocations ∧
      a.context.totalLeaksDetected = a'.context.totalLeaksDetected ∧
      a.context.activeAllocationsCount = a'.context.activeAllocationsCount ∧
      a.context.totalEventsProcessed = a'.context.totalEventsProcessed ∧
      ∀ id, a.isAllocated id = true ↔ ∃ before e after, events = before ++ e :: after ∧
        Creates id e ∧ ∀ x ∈ after, ¬ Destroys id x := by
  intro a a'
  have hentry : ∀ id, a.entry id = a'.entry id := by
    intro id
    rw [entry_foldl, entry_foldl, h]
  have hperm := Table.perm_of_lookup hentry
  have hcount : activeCount a.activeMap = activeCount a'.activeMap := by
    rw [activeCount, activeCount, Table.length_keys, Table.length_keys, hperm.length_eq]
  refine ⟨fun id => ?_, hperm.map _, hcount, ?_, ?_, fun id => ?_⟩
  · have hlookup : a.activeMap.lookup id = a'.activeMap.lookup id := hentry id
    rw [getAllocation, getAllocation, hlookup]
  · have hleft := activeAllocationsCount_foldl { statsCollector := attached } events rfl
    have hright := activeAllocationsCount_foldl { statsCollector := attached } events' rfl
    exact hleft.trans (hcount.trans hright.symm)
  · have hlen : events.length = events'.length := (Folds.perm_of_filter_eq h).length_eq
    have hleft := totalEventsProcessed_foldl { statsCollector := attached } events
    have hright := totalEventsProcessed_foldl { statsCollector := attached } events'
    rw [hlen] at hleft
    exact hleft.trans hright.symm
  · exact isSome_entry_iff rfl events

def lifecycle (type : EventType) (id : UInt64) : Event where
  header := { type := type, objectId := id }

/-- The life of one object falls between the events of another. -/
def interleaved : List Event :=
  [lifecycle .kObjectCreated 2, lifecycle .kObjectCreated 1, lifecycle .kMigrationCompleted 2,
    lifecycle .kObjectDestroyed 1]

def oneByOne : List Event :=
  [lifecycle .kObjectCreated 1, lifecycle .kObjectDestroyed 1, lifecycle .kObjectCreated 2,
    lifecycle .kMigrationCompleted 2]

theorem eventsOf_interleaved (id : UInt64) : eventsOf id interleaved = eventsOf id oneByOne := by
  by_cases hone : id = 1
  · subst hone
    rfl
  · by_cases htwo : id = 2
    · subst htwo
      rfl
    · simp [eventsOf, interleaved, oneByOne, lifecycle, Ne.symm hone, Ne.symm htwo]

theorem analysis_by_object_interleaved :
    (∀ id, (interleaved.foldl processEvent {}).getAllocation id =
      (oneByOne.foldl processEvent {}).getAllocation id) ∧
    (oneByOne.foldl processEvent {}).activeAllocations = [{ objectId := 2 }] ∧
      interleaved ≠ oneByOne :=
  ⟨(analysis_by_object none eventsOf_interleaved).1, by decide, by decide⟩

end EventAnalyzer

end Ume
