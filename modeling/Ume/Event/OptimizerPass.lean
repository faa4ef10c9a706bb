import Mathlib.Data.List.Nodup
import Ume.Event.MemoryOptimizer

/-! What a pass of the optimizer does to a single object. The objects do not
interfere: of the tasks for one object, the first is completed unless the
placement engine refuses the object, and all others stay. -/

namespace Ume

/-- What a task does to its object. -/
structure Move where
  source : TierClass
  target : TierClass
  sizeBytes : UInt64
  deriving DecidableEq

def MigrationTask.move (task : MigrationTask) : Move :=
  ⟨task.sourceTier, task.targetTier, task.sizeBytes⟩

/-- The moves of the tasks for one object. -/
def moves (tasks : List MigrationTask) (id : ObjectId) : List Move :=
  (tasks.filter fun task => task.objectId = id).map MigrationTask.move

@[simp] theorem moves_nil (id : ObjectId) : moves [] id = [] := rfl

theorem moves_cons_self (task : MigrationTask) (tasks : List MigrationTask) :
    moves (task :: tasks) task.objectId = task.move :: moves tasks task.objectId := by
  simp [moves]

theorem moves_cons_of_ne {task : MigrationTask} {id : ObjectId} (h : id ≠ task.objectId)
    (tasks : List MigrationTask) : moves (task :: tasks) id = moves tasks id := by
  simp [moves, Ne.symm h]

theorem moves_append (tasks tasks' : List MigrationTask) (id : ObjectId) :
    moves (tasks ++ tasks') id = moves tasks id ++ moves tasks' id := by
  simp [moves]

theorem moves_eq_nil_iff {tasks : List MigrationTask} {id : ObjectId} :
    moves tasks id = [] ↔ ∀ task ∈ tasks, task.objectId ≠ id := by
  simp [moves]

theorem mem_moves {tasks : List MigrationTask} {id : ObjectId} {m : Move} :
    m ∈ moves tasks id ↔ ∃ task ∈ tasks, task.objectId = id ∧ task.move = m := by
  simp [moves, and_assoc]

theorem nodup_objectIds_iff {tasks : List MigrationTask} :
    (tasks.map MigrationTask.objectId).Nodup ↔ ∀ id, (moves tasks id).length ≤ 1 := by
  rw [List.nodup_iff_count_le_one]
  refine forall_congr' fun id => ?_
  rw [moves, List.length_map, List.count_eq_length_filter, List.filter_map, List.length_map]
  simp only [Function.comp_def, beq_eq_decide]

namespace MemoryOptimizer

/-! ### Ageing -/

/-- The move that a pass schedules for an object it finds in the table. -/
def moveFor (decayRate : Binary64) (res : ResidencyInfo) : Option Move :=
  if Binary64.lt (aged decayRate res) (Binary64.ofNat 20) ∧ res.currentTier = TierClass.kVram then
    some ⟨TierClass.kVram, TierClass.kRam, res.sizeBytes⟩
  else if Binary64.lt (Binary64.ofNat 80) (aged decayRate res) ∧
      res.currentTier = TierClass.kRam then
    some ⟨TierClass.kRam, TierClass.kVram, res.sizeBytes⟩
  else none

def scheduled (opt : MemoryOptimizer) (id : ObjectId) : Option Move :=
  (opt.residencyMap.lookup id).bind (moveFor opt.decayRate)

theorem vram_ne_ram : TierClass.kVram ≠ TierClass.kRam := by decide

theorem moveFor_eq_some {decayRate : Binary64} {res : ResidencyInfo} {m : Move}
    (h : moveFor decayRate res = some m) :
    m.source = res.currentTier ∧ m.source ≠ m.target ∧ m.sizeBytes = res.sizeBytes := by
  rw [moveFor] at h
  split_ifs at h with hcold hhot
  · obtain rfl := Option.some.inj h
    exact ⟨hcold.2.symm, vram_ne_ram, rfl⟩
  · obtain rfl := Option.some.inj h
    exact ⟨hhot.2.symm, vram_ne_ram.symm, rfl⟩

/-- The table is keyed by the objects it describes. -/
def Keyed (opt : MemoryOptimizer) : Prop :=
  ∀ id res, opt.residencyMap.lookup id = some res → res.objectId = id

section AgeObject

variable {opt : MemoryOptimizer} {id : ObjectId}

theorem ageObject_of_some {res : ResidencyInfo} (hk : opt.Keyed)
    (h : opt.residencyMap.lookup id = some res) :
    ∃ tasks, (∀ task ∈ tasks, task.objectId = id) ∧
      tasks.map MigrationTask.move = (moveFor opt.decayRate res).toList ∧
      (opt.ageObject id).pendingMigrations = opt.pendingMigrations ++ tasks ∧
      (opt.ageObject id).decayRate = opt.decayRate ∧
      (opt.ageObject id).residencyMap =
        opt.residencyMap.insert id { res with temperature := aged opt.decayRate res } := by
  have hid := hk id res h
  rw [ageObject, h, moveFor]
  dsimp only
  split_ifs with hcold hhot
  · refine ⟨[_], ?_, ?_, rfl, rfl, rfl⟩
    · simpa using hid
    · rfl
  · refine ⟨[_], ?_, ?_, rfl, rfl, rfl⟩
    · simpa using hid
    · rfl
  · exact ⟨[], by simp, rfl, (List.append_nil _).symm, rfl, rfl⟩

theorem decayRate_ageObject (hk : opt.Keyed) : (opt.ageObject id).decayRate = opt.decayRate := by
  cases h : opt.residencyMap.lookup id with
  | none => rw [ageObject, h]
  | some res =>
    obtain ⟨tasks, -, -, -, hrate, -⟩ := ageObject_of_some hk h
    exact hrate

theorem lookup_ageObject (hk : opt.Keyed) (id' : ObjectId) :
    (opt.ageObject id).residencyMap.lookup id' =
      (opt.residencyMap.lookup id').map fun res =>
        if id' = id then { res with temperature := aged opt.decayRate res } else res := by
  cases h : opt.residencyMap.lookup id with
  | none =>
    rw [ageObject, h]
    by_cases hid : id' = id
    · rw [hid, h]
      rfl
    · simp [hid]
  | some res =>
    obtain ⟨tasks, -, -, -, -, hmap⟩ := ageObject_of_some hk h
    rw [hmap]
    by_cases hid : id' = id
    · subst hid
      rw [AList.lookup_insert, h]
      simp
    · rw [AList.lookup_insert_ne hid]
      simp [hid]

theorem moves_ageObject (hk : opt.Keyed) (id' : ObjectId) :
    moves (opt.ageObject id).pendingMigrations id' =
      moves opt.pendingMigrations id' ++ if id' = id then (opt.scheduled id).toList else [] := by
  cases h : opt.residencyMap.lookup id with
  | none => simp [ageObject, scheduled, h]
  | some res =>
    obtain ⟨tasks, hids, htasks, hpending, -, -⟩ := ageObject_of_some hk h
    rw [hpending, moves_append]
    by_cases hid : id' = id
    · subst hid
      have hall : tasks.filter (fun task => task.objectId = id') = tasks :=
        List.filter_eq_self.mpr (by simpa using hids)
      rw [if_pos rfl, scheduled, h, Option.bind_some, ← htasks, moves, moves, hall]
    · have hnone : moves tasks id' = [] :=
        moves_eq_nil_iff.mpr fun task ht he => hid ((hids task ht).symm.trans he).symm
      rw [hnone, if_neg hid]

theorem Keyed.ageObject (hk : opt.Keyed) : (opt.ageObject id).Keyed := by
  intro id' res h
  rw [lookup_ageObject hk, Option.map_eq_some_iff] at h
  obtain ⟨entry, hentry, rfl⟩ := h
  split_ifs
  · exact hk id' entry hentry
  · exact hk id' entry hentry

theorem scheduled_ageObject (hk : opt.Keyed) {id' : ObjectId} (hid : id' ≠ id) :
    (opt.ageObject id).scheduled id' = opt.scheduled id' := by
  rw [scheduled, scheduled, lookup_ageObject hk, decayRate_ageObject hk]
  simp [hid]

end AgeObject

/-- The loop over the residency table. -/
def age (opt : MemoryOptimizer) (order : List UInt64) : MemoryOptimizer :=
  order.foldl ageObject opt

theorem age_cons (opt : MemoryOptimizer) (id : UInt64) (order : List UInt64) :
    opt.age (id :: order) = (opt.ageObject id).age order := rfl

theorem lookup_age {opt : MemoryOptimizer} (hk : opt.Keyed) {order : List UInt64}
    (hnodup : order.Nodup) (id : ObjectId) :
    (opt.age order).residencyMap.lookup id =
      (opt.residencyMap.lookup id).map fun res =>
        if id ∈ order then { res with temperature := aged opt.decayRate res } else res := by
  induction order generalizing opt with
  | nil => simp [age]
  | cons id' order ih =>
    obtain ⟨hnot, hnodup⟩ := List.nodup_cons.mp hnodup
    rw [age_cons, ih hk.ageObject hnodup, decayRate_ageObject hk, lookup_ageObject hk,
      Option.map_map]
    congr 1
    funext res
    by_cases hid : id = id'
    · subst hid
      simp [hnot]
    · simp [hid]

theorem moves_age {opt : MemoryOptimizer} (hk : opt.Keyed) {order : List UInt64}
    (hnodup : order.Nodup) (id : ObjectId) :
    moves (opt.age order).pendingMigrations id =
      moves opt.pendingMigrations id ++ if id ∈ order then (opt.scheduled id).toList else [] := by
  induction order generalizing opt with
  | nil => simp [age]
  | cons id' order ih =>
    obtain ⟨hnot, hnodup⟩ := List.nodup_cons.mp hnodup
    rw [age_cons, ih hk.ageObject hnodup, moves_ageObject hk]
    by_cases hid : id = id'
    · subst hid
      simp [hnot]
    · simp [hid, scheduled_ageObject hk hid]

/-! ### The pending tasks -/

/-- The move that the loop over the pending tasks makes with an object. -/
def taken (placement : MemoryPlacementEngine) (tasks : List MigrationTask) (id : ObjectId) :
    Option Move :=
  if placement.Refuses id then none else (moves tasks id).head?

theorem taken_of_refuses {placement : MemoryPlacementEngine} {id : ObjectId}
    (h : placement.Refuses id) (tasks : List MigrationTask) : taken placement tasks id = none :=
  if_pos h

theorem taken_of_not_refuses {placement : MemoryPlacementEngine} {id : ObjectId}
    (h : ¬placement.Refuses id) (tasks : List MigrationTask) :
    taken placement tasks id = (moves tasks id).head? :=
  if_neg h

end MemoryOptimizer

/-- What a move leaves of the record of its object. -/
def ResidencyInfo.after (res : ResidencyInfo) : Option Move → ResidencyInfo
  | some m => { res with currentTier := m.target }
  | none => res

namespace MemoryOptimizer

/-- The placement engine when it has accepted the request of a task. -/
def acceptTask (placement : MemoryPlacementEngine) (task : MigrationTask) (now : UInt64) :
    MemoryPlacementEngine :=
  placement.accept ⟨placement.requestIdCounter + 1, decisionOf task, now⟩

theorem refuses_acceptTask_self (placement : MemoryPlacementEngine) (task : MigrationTask)
    (now : UInt64) : (acceptTask placement task now).Refuses task.objectId :=
  (placement.refuses_accept _ _).mpr (.inl rfl)

theorem refuses_acceptTask_of_ne (placement : MemoryPlacementEngine) {task : MigrationTask}
    {id : ObjectId} (hid : id ≠ task.objectId) (now : UInt64) :
    (acceptTask placement task now).Refuses id ↔ placement.Refuses id :=
  (placement.refuses_accept _ _).trans (or_iff_right hid)

section ProcessTask

variable (opt : MemoryOptimizer) {placement : MemoryPlacementEngine} {task : MigrationTask}

theorem processTask_of_refuses (h : placement.Refuses task.objectId) (now : UInt64) :
    opt.processTask placement task now = (false, opt.attempt.cancel, placement) := by
  obtain ⟨status, hs⟩ := MemoryPlacementEngine.enqueueRequest_of_refuses
    (show placement.Refuses (decisionOf task).objectId from h) now
  rw [processTask, hs]

theorem processTask_of_not_refuses (h : ¬placement.Refuses task.objectId) (now : UInt64) :
    opt.processTask placement task now =
      (true, opt.attempt.complete task, acceptTask placement task now) := by
  have hs := MemoryPlacementEngine.enqueueRequest_of_not_refuses
    (show ¬placement.Refuses (decisionOf task).objectId from h) now
  rw [processTask, hs]
  rfl

theorem lookup_complete_self (task : MigrationTask) :
    (opt.complete task).residencyMap.lookup task.objectId =
      (opt.residencyMap.lookup task.objectId).map (·.after (some task.move)) := by
  cases h : opt.residencyMap.lookup task.objectId with
  | none => simp [complete, h]
  | some res => simp [complete, h, ResidencyInfo.after, MigrationTask.move]

theorem lookup_complete_of_ne {id : ObjectId} (hid : id ≠ task.objectId) :
    (opt.complete task).residencyMap.lookup id = opt.residencyMap.lookup id := by
  cases h : opt.residencyMap.lookup task.objectId with
  | none => simp [complete, h]
  | some res => simp [complete, h, AList.lookup_insert_ne hid]

end ProcessTask

section ProcessPending

variable (opt : MemoryOptimizer) (placement : MemoryPlacementEngine) (clock : Nat → UInt64)
  (tasks : List MigrationTask) (id : ObjectId)

theorem processPending_cons_of_refuses {placement : MemoryPlacementEngine} {task : MigrationTask}
    (h : placement.Refuses task.objectId) :
    opt.processPending placement clock (task :: tasks) =
      let rest := opt.attempt.cancel.processPending placement (fun i => clock (i + 1)) tasks
      (task :: rest.1, rest.2) := by
  rw [processPending, processTask_of_refuses opt h]

theorem processPending_cons_of_not_refuses {placement : MemoryPlacementEngine}
    {task : MigrationTask} (h : ¬placement.Refuses task.objectId) :
    opt.processPending placement clock (task :: tasks) =
      (opt.attempt.complete task).processPending (acceptTask placement task (clock 0))
        (fun i => clock (i + 1)) tasks := by
  rw [processPending, processTask_of_not_refuses opt h]

/-- The first task for an object is erased unless the object is refused. -/
theorem moves_processPending :
    moves (opt.processPending placement clock tasks).1 id =
      if placement.Refuses id then moves tasks id else (moves tasks id).tail := by
  induction tasks generalizing opt placement clock with
  | nil => simp [processPending]
  | cons task tasks ih =>
    by_cases href : placement.Refuses task.objectId
    · rw [processPending_cons_of_refuses opt clock tasks href]
      by_cases hid : id = task.objectId
      · subst hid
        rw [moves_cons_self, ih, if_pos href, if_pos href, moves_cons_self]
      · rw [moves_cons_of_ne hid, moves_cons_of_ne hid, ih]
    · rw [processPending_cons_of_not_refuses opt clock tasks href, ih]
      by_cases hid : id = task.objectId
      · subst hid
        rw [if_pos (refuses_acceptTask_self _ _ _), if_neg href, moves_cons_self, List.tail_cons]
      · simp only [refuses_acceptTask_of_ne _ hid, moves_cons_of_ne hid]

theorem lookup_processPending :
    (opt.processPending placement clock tasks).2.1.residencyMap.lookup id =
      (opt.residencyMap.lookup id).map (·.after (taken placement tasks id)) := by
  induction tasks generalizing opt placement clock with
  | nil => simp [processPending, taken, ResidencyInfo.after]
  | cons task tasks ih =>
    by_cases href : placement.Refuses task.objectId
    · rw [processPending_cons_of_refuses opt clock tasks href, ih]
      by_cases hid : id = task.objectId
      · subst hid
        rw [taken_of_refuses href, taken_of_refuses href]
        rfl
      · rw [taken, taken, moves_cons_of_ne hid]
        rfl
    · rw [processPending_cons_of_not_refuses opt clock tasks href, ih]
      by_cases hid : id = task.objectId
      · subst hid
        rw [taken_of_refuses (refuses_acceptTask_self _ _ _), taken_of_not_refuses href,
          moves_cons_self, lookup_complete_self, Option.map_map]
        rfl
      · simp only [taken, refuses_acceptTask_of_ne _ hid, moves_cons_of_ne hid,
          lookup_complete_of_ne _ hid, attempt]

end ProcessPending

/-- A task that is completed, with the states in which its turn finds it. -/
structure Completion where
  task : MigrationTask
  optimizer : MemoryOptimizer
  placement : MemoryPlacementEngine

/-- The tasks that the loop over the pending tasks completes. -/
def completions (opt : MemoryOptimizer) (placement : MemoryPlacementEngine)
    (clock : Nat → UInt64) : List MigrationTask → List Completion
  | [] => []
  | task :: tasks =>
    match opt.processTask placement task (clock 0) with
    | (true, opt', placement') =>
      ⟨task, opt, placement⟩ :: opt'.completions placement' (fun i => clock (i + 1)) tasks
    | (false, opt', placement') => opt'.completions placement' (fun i => clock (i + 1)) tasks

section Completions

variable (opt : MemoryOptimizer) (clock : Nat → UInt64) (tasks : List MigrationTask)

theorem completions_cons_of_refuses {placement : MemoryPlacementEngine} {task : MigrationTask}
    (h : placement.Refuses task.objectId) :
    opt.completions placement clock (task :: tasks) =
      opt.attempt.cancel.completions placement (fun i => clock (i + 1)) tasks := by
  rw [completions, processTask_of_refuses opt h]

theorem completions_cons_of_not_refuses {placement : MemoryPlacementEngine}
    {task : MigrationTask} (h : ¬placement.Refuses task.objectId) :
    opt.completions placement clock (task :: tasks) =
      ⟨task, opt, placement⟩ :: (opt.attempt.complete task).completions
        (acceptTask placement task (clock 0)) (fun i => clock (i + 1)) tasks := by
  rw [completions, processTask_of_not_refuses opt h]

/-- A completed task makes the move that its object is due, and finds the record of
the object as it was before the loop. -/
theorem taken_of_mem_completions (placement : MemoryPlacementEngine) {c : Completion}
    (h : c ∈ opt.completions placement clock tasks) :
    taken placement tasks c.task.objectId = some c.task.move ∧
      c.optimizer.residencyMap.lookup c.task.objectId =
        opt.residencyMap.lookup c.task.objectId := by
  induction tasks generalizing opt placement clock with
  | nil => exact absurd h List.not_mem_nil
  | cons task tasks ih =>
    by_cases href : placement.Refuses task.objectId
    · rw [completions_cons_of_refuses opt clock tasks href] at h
      obtain ⟨htaken, hlookup⟩ := ih _ _ _ h
      refine ⟨?_, hlookup⟩
      have hid : c.task.objectId ≠ task.objectId := by
        intro hid
        rw [hid, taken_of_refuses href] at htaken
        exact Option.some_ne_none _ htaken.symm
      rwa [taken, moves_cons_of_ne hid, ← taken]
    · rw [completions_cons_of_not_refuses opt clock tasks href, List.mem_cons] at h
      rcases h with rfl | h
      · refine ⟨?_, rfl⟩
        rw [taken_of_not_refuses href, moves_cons_self]
        rfl
      · obtain ⟨htaken, hlookup⟩ := ih _ _ _ h
        have hid : c.task.objectId ≠ task.objectId := by
          intro hid
          rw [hid, taken_of_refuses (refuses_acceptTask_self _ _ _)] at htaken
          exact Option.some_ne_none _ htaken.symm
        rw [lookup_complete_of_ne _ hid] at hlookup
        refine ⟨?_, hlookup⟩
        simp only [taken, refuses_acceptTask_of_ne _ hid] at htaken
        rwa [taken, moves_cons_of_ne hid]

end Completions

/-! ### A pass -/

/-- The moves that a pass finds or schedules for an object, in the order of their
tasks. -/
def due (opt : MemoryOptimizer) (id : ObjectId) : List Move :=
  moves opt.pendingMigrations id ++ (opt.scheduled id).toList

/-- The move that a pass makes with an object. -/
def passMove (opt : MemoryOptimizer) (placement : MemoryPlacementEngine) (id : ObjectId) :
    Option Move :=
  if placement.Refuses id then none else (opt.due id).head?

theorem optimizePass_eq (opt : MemoryOptimizer) (placement : MemoryPlacementEngine)
    (order : List UInt64) (clock : Nat → UInt64) :
    opt.optimizePass placement order clock =
      let r := (opt.age order).processPending placement clock (opt.age order).pendingMigrations
      ({ r.2.1 with pendingMigrations := r.1 }, r.2.2) := rfl

section Pass

variable {opt : MemoryOptimizer} {order : List UInt64} (hk : opt.Keyed)
  (horder : order.Perm opt.residencyMap.keys) (placement : MemoryPlacementEngine)
  (clock : Nat → UInt64) (id : ObjectId)

include hk horder

theorem lookup_age_of_perm :
    (opt.age order).residencyMap.lookup id =
      (opt.residencyMap.lookup id).map fun res =>
        { res with temperature := aged opt.decayRate res } := by
  have hnodup : order.Nodup := horder.nodup_iff.mpr opt.residencyMap.nodupKeys
  rw [lookup_age hk hnodup]
  by_cases hmem : id ∈ order
  · simp [hmem]
  · rw [AList.lookup_eq_none.mpr fun h => hmem (horder.mem_iff.mpr h)]
    rfl

theorem moves_age_of_perm : moves (opt.age order).pendingMigrations id = opt.due id := by
  have hnodup : order.Nodup := horder.nodup_iff.mpr opt.residencyMap.nodupKeys
  rw [moves_age hk hnodup, due]
  by_cases hmem : id ∈ order
  · rw [if_pos hmem]
  · rw [if_neg hmem, scheduled, AList.lookup_eq_none.mpr fun h => hmem (horder.mem_iff.mpr h)]
    rfl

theorem taken_age : taken placement (opt.age order).pendingMigrations id =
    opt.passMove placement id := by
  rw [taken, moves_age_of_perm hk horder, passMove]

theorem moves_optimizePass :
    moves (opt.optimizePass placement order clock).1.pendingMigrations id =
      if placement.Refuses id then opt.due id else (opt.due id).tail := by
  rw [← moves_age_of_perm hk horder, optimizePass_eq, moves_processPending]

theorem lookup_optimizePass :
    (opt.optimizePass placement order clock).1.residencyMap.lookup id =
      (opt.residencyMap.lookup id).map fun res =>
        { res.after (opt.passMove placement id) with temperature := aged opt.decayRate res } := by
  rw [← taken_age hk horder placement, optimizePass_eq, lookup_processPending,
    lookup_age_of_perm hk horder, Option.map_map]
  cases taken placement (opt.age order).pendingMigrations id with
  | none => simp only [ResidencyInfo.after, Function.comp_def]
  | some m => simp only [ResidencyInfo.after, Function.comp_def]

end Pass

/-- The tasks that a pass completes. -/
def passCompletions (opt : MemoryOptimizer) (placement : MemoryPlacementEngine)
    (order : List UInt64) (clock : Nat → UInt64) : List Completion :=
  (opt.age order).completions placement clock (opt.age order).pendingMigrations

end MemoryOptimizer

end Ume
