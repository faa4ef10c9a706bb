import Ume.Event.OptimizerPass
import Ume.Lib.Runs

/-! Runs of an optimizer whose placement engine is also used by others. A task that
the engine has refused stays, and it is the only one for its object and starts
from the tier the object is in for as long as no pass schedules the object anew
and no access is recorded in another tier. -/

namespace Ume

structure OptimizerSystem where
  optimizer : MemoryOptimizer
  placement : MemoryPlacementEngine

namespace OptimizerSystem

open MemoryOptimizer

inductive Action where
  | recordAccess (objectId : ObjectId) (sizeBytes : UInt64) (tier : TierClass) (now : UInt64)
  | optimizePass (order : List UInt64) (clock : Nat → UInt64)
  | setDecayRate (decayRate : Binary64)
  | enqueue (decision : SchedulingDecision) (now : UInt64)
  | dequeue
  | clear

/-- A pass may visit the table in any order. -/
def step (s : OptimizerSystem) : Action → Option OptimizerSystem
  | .recordAccess objectId sizeBytes tier now =>
    some { s with optimizer := s.optimizer.recordAccess objectId sizeBytes tier now }
  | .optimizePass order clock =>
    if order.Perm s.optimizer.residencyMap.keys then
      let (optimizer, placement) := s.optimizer.optimizePass s.placement order clock
      some { optimizer := optimizer, placement := placement }
    else none
  | .setDecayRate decayRate => some { s with optimizer := s.optimizer.setDecayRate decayRate }
  | .enqueue decision now =>
    some { s with placement := (s.placement.enqueueRequest decision now).2 }
  | .dequeue => some { s with placement := s.placement.dequeueRequest.2 }
  | .clear => some { s with placement := s.placement.clearQueue }

theorem step_optimizePass {s s' : OptimizerSystem} {order : List UInt64} {clock : Nat → UInt64}
    (h : s.step (.optimizePass order clock) = some s') :
    order.Perm s.optimizer.residencyMap.keys ∧
      s'.optimizer = (s.optimizer.optimizePass s.placement order clock).1 ∧
      s'.placement = (s.optimizer.optimizePass s.placement order clock).2 := by
  rw [step] at h
  split_ifs at h with hperm
  obtain rfl := Option.some.inj h
  exact ⟨hperm, rfl, rfl⟩

end OptimizerSystem

namespace MemoryOptimizer

/-- The tier an object is recorded in. -/
def tierOf (opt : MemoryOptimizer) (id : ObjectId) : Option TierClass :=
  (opt.residencyMap.lookup id).map ResidencyInfo.currentTier

/-- At most one task is pending for an object, and it starts from the tier the
object is recorded in. -/
structure TasksFresh (opt : MemoryOptimizer) : Prop where
  unique : (opt.pendingMigrations.map MigrationTask.objectId).Nodup
  current : ∀ task ∈ opt.pendingMigrations, opt.tierOf task.objectId = some task.sourceTier

theorem tasksFresh_iff {opt : MemoryOptimizer} :
    opt.TasksFresh ↔ ∀ id, (moves opt.pendingMigrations id).length ≤ 1 ∧
      ∀ m ∈ moves opt.pendingMigrations id, opt.tierOf id = some m.source := by
  constructor
  · intro h id
    refine ⟨nodup_objectIds_iff.mp h.unique id, ?_⟩
    intro m hm
    obtain ⟨task, htask, rfl, rfl⟩ := mem_moves.mp hm
    exact h.current task htask
  · intro h
    refine ⟨nodup_objectIds_iff.mpr fun id => (h id).1, ?_⟩
    intro task htask
    exact (h task.objectId).2 task.move (mem_moves.mpr ⟨task, htask, rfl, rfl⟩)

/-- What holds of the table and the tasks in every run: an object is described under
its own key, and a task leads to another tier and is for an object in the table. -/
structure WellFormed (opt : MemoryOptimizer) : Prop where
  keyed : opt.Keyed
  moving : ∀ id, ∀ m ∈ moves opt.pendingMigrations id, m.source ≠ m.target
  known : ∀ id, ∀ m ∈ moves opt.pendingMigrations id, (opt.residencyMap.lookup id).isSome

section RecordAccess

variable (opt : MemoryOptimizer) (objectId : ObjectId) (sizeBytes : UInt64) (tier : TierClass)
  (now : UInt64)

theorem lookup_recordAccess_self :
    ∃ res, (opt.recordAccess objectId sizeBytes tier now).residencyMap.lookup objectId = some res ∧
      res.objectId = objectId ∧ res.currentTier = tier ∧ res.sizeBytes = sizeBytes :=
  ⟨_, AList.lookup_insert _, rfl, rfl, rfl⟩

theorem lookup_recordAccess_of_ne {id : ObjectId} (hid : id ≠ objectId) :
    (opt.recordAccess objectId sizeBytes tier now).residencyMap.lookup id =
      opt.residencyMap.lookup id :=
  AList.lookup_insert_ne hid

theorem WellFormed.recordAccess {opt : MemoryOptimizer} (h : opt.WellFormed) :
    (opt.recordAccess objectId sizeBytes tier now).WellFormed := by
  obtain ⟨res', hres', hobj, -, -⟩ := opt.lookup_recordAccess_self objectId sizeBytes tier now
  refine ⟨?_, h.moving, ?_⟩
  · intro id res hres
    by_cases hid : id = objectId
    · rw [hid, hres'] at hres
      rw [hid, ← hobj, Option.some.inj hres]
    · rw [lookup_recordAccess_of_ne _ _ _ _ _ hid] at hres
      exact h.keyed id res hres
  · intro id m hm
    by_cases hid : id = objectId
    · rw [hid, hres']
      rfl
    · rw [lookup_recordAccess_of_ne _ _ _ _ _ hid]
      exact h.known id m hm

/-- An access keeps the tasks fresh exactly if it finds the objects with tasks where
they are recorded. -/
theorem tasksFresh_recordAccess_iff {opt : MemoryOptimizer} (h : opt.TasksFresh) :
    (opt.recordAccess objectId sizeBytes tier now).TasksFresh ↔
      ∀ task ∈ opt.pendingMigrations, task.objectId = objectId → task.sourceTier = tier := by
  obtain ⟨res, hres, -, htier, -⟩ := opt.lookup_recordAccess_self objectId sizeBytes tier now
  have hself : (opt.recordAccess objectId sizeBytes tier now).tierOf objectId = some tier := by
    rw [tierOf, hres, Option.map_some, htier]
  constructor
  · rintro hf task htask rfl
    have hcurrent := hf.current task htask
    rw [hself] at hcurrent
    exact (Option.some.inj hcurrent).symm
  · intro hok
    refine ⟨h.unique, ?_⟩
    intro task htask
    by_cases hid : task.objectId = objectId
    · rw [hid, hself, hok task htask hid]
    · rw [tierOf, lookup_recordAccess_of_ne _ _ _ _ _ hid]
      exact h.current task htask

end RecordAccess

section Pass

variable {opt : MemoryOptimizer} {order : List UInt64}

theorem scheduled_eq_some {id : ObjectId} {m : Move} (h : opt.scheduled id = some m) :
    opt.tierOf id = some m.source ∧ m.source ≠ m.target := by
  rw [scheduled, Option.bind_eq_some_iff] at h
  obtain ⟨res, hres, hm⟩ := h
  obtain ⟨hsource, hne, -⟩ := moveFor_eq_some hm
  exact ⟨by rw [tierOf, hres, hsource]; rfl, hne⟩

theorem WellFormed.due {id : ObjectId} (h : opt.WellFormed) {m : Move} (hm : m ∈ opt.due id) :
    m.source ≠ m.target := by
  rcases List.mem_append.mp hm with hm | hm
  · exact h.moving id m hm
  · exact (scheduled_eq_some (Option.mem_toList.mp hm)).2

theorem WellFormed.known_due {id : ObjectId} (h : opt.WellFormed) {m : Move}
    (hm : m ∈ opt.due id) : (opt.residencyMap.lookup id).isSome := by
  rcases List.mem_append.mp hm with hm | hm
  · exact h.known id m hm
  · obtain ⟨res, hres, -⟩ := Option.bind_eq_some_iff.mp (Option.mem_toList.mp hm)
    rw [hres]
    rfl

theorem TasksFresh.due {id : ObjectId} (h : opt.TasksFresh) {m : Move} (hm : m ∈ opt.due id) :
    opt.tierOf id = some m.source := by
  rcases List.mem_append.mp hm with hm | hm
  · exact (tasksFresh_iff.mp h id).2 m hm
  · exact (scheduled_eq_some (Option.mem_toList.mp hm)).1

theorem tierOf_optimizePass (hk : opt.Keyed) (horder : order.Perm opt.residencyMap.keys)
    (placement : MemoryPlacementEngine) (clock : Nat → UInt64) (id : ObjectId) :
    (opt.optimizePass placement order clock).1.tierOf id =
      match opt.passMove placement id with
      | some m => (opt.tierOf id).map fun _ => m.target
      | none => opt.tierOf id := by
  rw [tierOf, lookup_optimizePass hk horder, Option.map_map, tierOf]
  cases opt.passMove placement id with
  | none => rfl
  | some m => cases opt.residencyMap.lookup id <;> rfl

theorem mem_due_of_mem_moves (hk : opt.Keyed) (horder : order.Perm opt.residencyMap.keys)
    {placement : MemoryPlacementEngine} {clock : Nat → UInt64} {id : ObjectId} {m : Move}
    (hm : m ∈ moves (opt.optimizePass placement order clock).1.pendingMigrations id) :
    m ∈ opt.due id := by
  rw [moves_optimizePass hk horder] at hm
  split_ifs at hm
  · exact hm
  · exact List.mem_of_mem_tail hm

theorem WellFormed.optimizePass (h : opt.WellFormed) (horder : order.Perm opt.residencyMap.keys)
    (placement : MemoryPlacementEngine) (clock : Nat → UInt64) :
    (opt.optimizePass placement order clock).1.WellFormed := by
  constructor
  · intro id res hres
    rw [lookup_optimizePass h.keyed horder, Option.map_eq_some_iff] at hres
    obtain ⟨entry, hentry, rfl⟩ := hres
    cases opt.passMove placement id <;> exact h.keyed id entry hentry
  · intro id m hm
    exact h.due (mem_due_of_mem_moves h.keyed horder hm)
  · intro id m hm
    rw [lookup_optimizePass h.keyed horder, Option.isSome_map]
    exact h.known_due (mem_due_of_mem_moves h.keyed horder hm)

/-- A pass keeps the tasks fresh exactly if it schedules no object that has one. -/
theorem tasksFresh_optimizePass_iff (hw : opt.WellFormed) (hf : opt.TasksFresh)
    (horder : order.Perm opt.residencyMap.keys) (placement : MemoryPlacementEngine)
    (clock : Nat → UInt64) :
    (opt.optimizePass placement order clock).1.TasksFresh ↔
      ∀ task ∈ opt.pendingMigrations, opt.scheduled task.objectId = none := by
  rw [tasksFresh_iff]
  constructor
  · intro h task htask
    by_contra hne
    obtain ⟨m, hm⟩ := Option.ne_none_iff_exists'.mp hne
    obtain ⟨hlen, htier⟩ := h task.objectId
    have hmem : task.move ∈ moves opt.pendingMigrations task.objectId :=
      mem_moves.mpr ⟨task, htask, rfl, rfl⟩
    obtain ⟨hone, -⟩ := tasksFresh_iff.mp hf task.objectId
    have hdue : opt.due task.objectId = [task.move, m] := by
      obtain ⟨m', hm'⟩ := List.length_eq_one_iff.mp
        (le_antisymm hone (List.length_pos_of_mem hmem))
      rw [hm', List.mem_singleton] at hmem
      rw [due, hm', hm, hmem]
      rfl
    have hsource := hf.due (hdue ▸ List.mem_cons_self : task.move ∈ opt.due task.objectId)
    have hsource' := hf.due
      (hdue ▸ List.mem_cons_of_mem _ List.mem_cons_self : m ∈ opt.due task.objectId)
    rw [moves_optimizePass hw.keyed horder, hdue] at hlen htier
    by_cases href : placement.Refuses task.objectId
    · rw [if_pos href] at hlen
      exact absurd hlen (by simp)
    · rw [if_neg href, tierOf_optimizePass hw.keyed horder, passMove, if_neg href, hdue,
        hsource] at htier
      have htarget : task.move.target = m.source :=
        Option.some.inj (htier m List.mem_cons_self)
      rw [hsource] at hsource'
      exact hw.moving _ _ hmem ((Option.some.inj hsource').trans htarget.symm)
  · intro h id
    have hdue : (opt.due id).length ≤ 1 := by
      rw [due, List.length_append]
      by_cases hnil : moves opt.pendingMigrations id = []
      · rw [hnil, List.length_nil, Nat.zero_add, Option.length_toList]
        split_ifs <;> decide
      · obtain ⟨m, hm⟩ := List.exists_mem_of_ne_nil _ hnil
        obtain ⟨task, htask, rfl, -⟩ := mem_moves.mp hm
        rw [h task htask]
        exact (tasksFresh_iff.mp hf _).1
    rw [moves_optimizePass hw.keyed horder]
    by_cases href : placement.Refuses id
    · rw [if_pos href]
      refine ⟨hdue, ?_⟩
      intro m hm
      rw [tierOf_optimizePass hw.keyed horder, passMove, if_pos href]
      exact hf.due hm
    · have hnil : (opt.due id).tail = [] := by
        rw [← List.length_eq_zero_iff, List.length_tail]
        omega
      rw [if_neg href, hnil]
      exact ⟨Nat.zero_le _, fun m hm => absurd hm List.not_mem_nil⟩

/-- A completed task moves its object out of the tier it is in. -/
def MovesOut (c : Completion) : Prop :=
  c.optimizer.tierOf c.task.objectId = some c.task.sourceTier ∧
    c.task.targetTier ≠ c.task.sourceTier

theorem movesOut_of_tasksFresh (hw : opt.WellFormed) (hf : opt.TasksFresh)
    (horder : order.Perm opt.residencyMap.keys) {placement : MemoryPlacementEngine}
    {clock : Nat → UInt64} {c : Completion}
    (hc : c ∈ opt.passCompletions placement order clock) : MovesOut c := by
  obtain ⟨htaken, hlookup⟩ := taken_of_mem_completions _ _ _ _ hc
  rw [taken_age hw.keyed horder, passMove] at htaken
  split_ifs at htaken
  have hdue : c.task.move ∈ opt.due c.task.objectId := List.mem_of_head? htaken
  refine ⟨?_, (hw.due hdue).symm⟩
  rw [tierOf, hlookup, lookup_age_of_perm hw.keyed horder, Option.map_map]
  exact hf.due hdue

end Pass

end MemoryOptimizer

namespace OptimizerSystem

open MemoryOptimizer

/-- An access finds an object with a pending task in the tier the task starts from,
and a pass schedules no object that has a pending task. -/
def Undisturbed (s : OptimizerSystem) : Action → Prop
  | .recordAccess objectId _ tier _ =>
    ∀ task ∈ s.optimizer.pendingMigrations, task.objectId = objectId → task.sourceTier = tier
  | .optimizePass _ _ =>
    ∀ task ∈ s.optimizer.pendingMigrations, s.optimizer.scheduled task.objectId = none
  | _ => True

instance (s : OptimizerSystem) : ∀ a, Decidable (s.Undisturbed a)
  | .recordAccess objectId _ tier _ =>
    inferInstanceAs (Decidable (∀ task ∈ s.optimizer.pendingMigrations,
      task.objectId = objectId → task.sourceTier = tier))
  | .optimizePass _ _ =>
    inferInstanceAs (Decidable (∀ task ∈ s.optimizer.pendingMigrations,
      s.optimizer.scheduled task.objectId = none))
  | .setDecayRate _ => .isTrue trivial
  | .enqueue _ _ => .isTrue trivial
  | .dequeue => .isTrue trivial
  | .clear => .isTrue trivial

/-- The tasks that an action completes move their objects out of the tier they are
in. -/
def CompletionsMove (s : OptimizerSystem) : Action → Prop
  | .optimizePass order clock =>
    ∀ c ∈ s.optimizer.passCompletions s.placement order clock, MovesOut c
  | _ => True

theorem wellFormed_step {s s' : OptimizerSystem} {a : Action} (h : s.optimizer.WellFormed)
    (hs : s.step a = some s') : s'.optimizer.WellFormed := by
  cases a with
  | recordAccess objectId sizeBytes tier now =>
    obtain rfl := Option.some.inj hs
    exact h.recordAccess objectId sizeBytes tier now
  | optimizePass order clock =>
    obtain ⟨horder, hopt, -⟩ := step_optimizePass hs
    rw [hopt]
    exact h.optimizePass horder s.placement clock
  | setDecayRate decayRate =>
    obtain rfl := Option.some.inj hs
    exact ⟨h.keyed, h.moving, h.known⟩
  | enqueue _ _ | dequeue | clear =>
    obtain rfl := Option.some.inj hs
    exact h

theorem tasksFresh_step_iff {s s' : OptimizerSystem} {a : Action} (hw : s.optimizer.WellFormed)
    (hf : s.optimizer.TasksFresh) (hs : s.step a = some s') :
    s.Undisturbed a ↔ s'.optimizer.TasksFresh := by
  cases a with
  | recordAccess objectId sizeBytes tier now =>
    obtain rfl := Option.some.inj hs
    exact (tasksFresh_recordAccess_iff objectId sizeBytes tier now hf).symm
  | optimizePass order clock =>
    obtain ⟨horder, hopt, -⟩ := step_optimizePass hs
    rw [hopt]
    exact (tasksFresh_optimizePass_iff hw hf horder s.placement clock).symm
  | setDecayRate decayRate =>
    obtain rfl := Option.some.inj hs
    exact iff_of_true trivial ⟨hf.unique, hf.current⟩
  | enqueue _ _ | dequeue | clear =>
    obtain rfl := Option.some.inj hs
    exact iff_of_true trivial hf

theorem completionsMove_of_tasksFresh {s s' : OptimizerSystem} {a : Action}
    (hw : s.optimizer.WellFormed) (hf : s.optimizer.TasksFresh) (hs : s.step a = some s') :
    s.CompletionsMove a := by
  cases a with
  | optimizePass order clock =>
    intro c hc
    exact movesOut_of_tasksFresh hw hf (step_optimizePass hs).1 hc
  | _ => trivial

section Run

variable {s t : OptimizerSystem} {as : List Action}

theorem keeps_tasksFresh (s : OptimizerSystem) (a : Action) (s' : OptimizerSystem)
    (hi : s.optimizer.WellFormed ∧ s.optimizer.TasksFresh) (hok : s.Undisturbed a)
    (hs : s.step a = some s') : s'.optimizer.WellFormed ∧ s'.optimizer.TasksFresh :=
  ⟨wellFormed_step hi.1 hs, (tasksFresh_step_iff hi.1 hi.2 hs).mp hok⟩

theorem throughout_tasksFresh_iff (hi : s.optimizer.WellFormed ∧ s.optimizer.TasksFresh)
    (h : Runs.run step s as = some t) :
    Runs.Throughout step (fun s => s.optimizer.TasksFresh) s as ↔
      Runs.Along step Undisturbed s as :=
  Runs.throughout_iff_along (fun _ _ _ hw hf hs => (tasksFresh_step_iff hw hf hs).symm)
    (fun _ _ _ hw hs => wellFormed_step hw hs) hi.1 hi.2 h

theorem along_completionsMove (hi : s.optimizer.WellFormed ∧ s.optimizer.TasksFresh)
    (h : Runs.run step s as = some t) (hok : Runs.Along step Undisturbed s as) :
    Runs.Along step CompletionsMove s as :=
  hok.imp_of_invariant
    (fun _ _ _ hi _ hs => completionsMove_of_tasksFresh hi.1 hi.2 hs) keeps_tasksFresh hi h

theorem new_tasksFresh : WellFormed {} ∧ TasksFresh {} := by
  refine ⟨⟨?_, fun _ m hm => absurd hm List.not_mem_nil, fun _ m hm => absurd hm List.not_mem_nil⟩,
    ⟨List.nodup_nil, fun _ ht => absurd ht List.not_mem_nil⟩⟩
  intro id res hres
  exact absurd hres (Option.some_ne_none res).symm

end Run

/-- In a run from a new optimizer, on an engine in any state, the tasks are unique
and fresh in every state exactly if every step is undisturbed; and then every task
that completes moves its object out of the tier it is in. -/
theorem tasksFresh_throughout_iff {placement : MemoryPlacementEngine} {as : List Action}
    {t : OptimizerSystem} (h : Runs.run step ⟨{}, placement⟩ as = some t) :
    (Runs.Throughout step (fun s => s.optimizer.TasksFresh) ⟨{}, placement⟩ as ↔
        Runs.Along step Undisturbed ⟨{}, placement⟩ as) ∧
      (Runs.Along step Undisturbed ⟨{}, placement⟩ as →
        Runs.Along step CompletionsMove ⟨{}, placement⟩ as) :=
  ⟨throughout_tasksFresh_iff new_tasksFresh h, along_completionsMove new_tasksFresh h⟩

/-- An object becomes hot while another user of the engine has it queued. -/
def queuedByOther : List Action :=
  List.replicate 4 (Action.recordAccess 1 64 TierClass.kRam 0) ++
    [Action.enqueue { objectId := 1 } 0, Action.optimizePass [1] fun _ => 0]

theorem tasksFresh_queuedByOther :
    Runs.Along step Undisturbed ⟨{}, ⟨4096, 4096, 4096, 0, 0, 0, [], ∅, 0, 0⟩⟩ queuedByOther ∧
      Runs.Throughout step (fun s => s.optimizer.TasksFresh)
        ⟨{}, ⟨4096, 4096, 4096, 0, 0, 0, [], ∅, 0, 0⟩⟩ queuedByOther := by
  have hok : Runs.Along step Undisturbed ⟨{}, ⟨4096, 4096, 4096, 0, 0, 0, [], ∅, 0, 0⟩⟩
      queuedByOther := by decide +kernel
  have hrun : (Runs.run step ⟨{}, ⟨4096, 4096, 4096, 0, 0, 0, [], ∅, 0, 0⟩⟩
      queuedByOther).isSome := by decide +kernel
  obtain ⟨t, ht⟩ := Option.isSome_iff_exists.mp hrun
  exact ⟨hok, (tasksFresh_throughout_iff ht).1.mpr hok⟩

theorem queuedByOther_twice :
    (Runs.run step ⟨{}, ⟨4096, 4096, 4096, 0, 0, 0, [], ∅, 0, 0⟩⟩
        (queuedByOther ++ [Action.optimizePass [1] fun _ => 0])).map
      (fun s => s.optimizer.pendingMigrations.map MigrationTask.objectId) = some [1, 1] := by
  decide +kernel

end OptimizerSystem

end Ume
