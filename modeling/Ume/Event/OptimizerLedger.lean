import Mathlib.Data.List.Perm.Basic
import Ume.Event.OptimizerTasks

/-! The tasks of the optimizer over whole runs. Each one is given its own number, and it is
completed once or still pending; the metrics count what was done. -/

namespace Ume

namespace MemoryOptimizer

/-- The numbers that have been given to tasks, as the 64 bits of the counter. -/
def taskIds (n : Nat) : List UInt64 := (List.range' 1 n).map UInt64.ofNat

theorem taskIds_succ (n : Nat) : taskIds (n + 1) = taskIds n ++ [UInt64.ofNat n + 1] := by
  rw [taskIds, List.range'_1_concat, List.map_append, List.map_singleton, Nat.add_comm 1 n,
    UInt64.ofNat_add]
  rfl

def totalSize (start : UInt64) (tasks : List MigrationTask) : UInt64 :=
  tasks.foldl (fun n task => n + task.sizeBytes) start

def totalCost (start : UInt64) (tasks : List MigrationTask) : UInt64 :=
  tasks.foldl (fun n task => n + Binary64.toUInt64 task.costEstimateUs) start

theorem totalSize_concat (start : UInt64) (tasks : List MigrationTask) (task : MigrationTask) :
    totalSize start (tasks ++ [task]) = totalSize start tasks + task.sizeBytes :=
  List.foldl_append

theorem totalCost_concat (start : UInt64) (tasks : List MigrationTask) (task : MigrationTask) :
    totalCost start (tasks ++ [task]) =
      totalCost start tasks + Binary64.toUInt64 task.costEstimateUs :=
  List.foldl_append

/-- The metrics that count what has been done with the tasks. -/
structure Counted (done : List MigrationTask) (m : OptimizerMetrics) : Prop where
  completed : m.migrationsCompleted = UInt64.ofNat done.length
  attempted : m.migrationsAttempted = m.migrationsCompleted + m.migrationsCancelled
  bandwidth : m.totalBandwidthUsedBytes = totalSize 0 done
  time : m.totalMigrationTimeUs = totalCost 0 done

theorem Counted.complete {done : List MigrationTask} {opt : MemoryOptimizer}
    (h : Counted done opt.metrics) (task : MigrationTask) :
    Counted (done ++ [task]) (opt.attempt.complete task).metrics where
  completed := by
    rw [List.length_append, UInt64.ofNat_add, ← h.completed]
    rfl
  attempted := by
    show opt.metrics.migrationsAttempted + 1 = opt.metrics.migrationsCompleted + 1 + _
    rw [h.attempted, UInt64.add_assoc, UInt64.add_comm _ 1, ← UInt64.add_assoc]
    rfl
  bandwidth := by
    rw [totalSize_concat, ← h.bandwidth]
    rfl
  time := by
    rw [totalCost_concat, ← h.time]
    rfl

theorem Counted.cancel {done : List MigrationTask} {opt : MemoryOptimizer}
    (h : Counted done opt.metrics) : Counted done opt.attempt.cancel.metrics where
  completed := h.completed
  attempted := by
    show opt.metrics.migrationsAttempted + 1 = opt.metrics.migrationsCompleted + (_ + 1)
    rw [h.attempted, UInt64.add_assoc]
    rfl
  bandwidth := h.bandwidth
  time := h.time

/-- The loop over the pending tasks keeps those that it does not complete, in their order. -/
theorem processPending_ledger (opt : MemoryOptimizer) (placement : MemoryPlacementEngine)
    (clock : Nat → UInt64) (tasks : List MigrationTask) {done : List MigrationTask}
    (h : Counted done opt.metrics) :
    let result := opt.processPending placement clock tasks
    let completed := (opt.completions placement clock tasks).map Completion.task
    result.1.Sublist tasks ∧ (completed ++ result.1).Perm tasks ∧
      result.2.1.taskIdCounter = opt.taskIdCounter ∧
      Counted (done ++ completed) result.2.1.metrics := by
  induction tasks generalizing opt placement clock done with
  | nil => exact ⟨.slnil, .nil, rfl, by simpa [completions, processPending] using h⟩
  | cons task tasks ih =>
    by_cases href : placement.Refuses task.objectId
    · rw [processPending_cons_of_refuses opt clock tasks href,
        completions_cons_of_refuses opt clock tasks href]
      obtain ⟨hsub, hperm, hcounter, hcounted⟩ :=
        ih opt.attempt.cancel placement (fun i => clock (i + 1)) h.cancel
      refine ⟨hsub.cons_cons task, ?_, hcounter, hcounted⟩
      exact List.perm_middle.trans (hperm.cons task)
    · rw [processPending_cons_of_not_refuses opt clock tasks href,
        completions_cons_of_not_refuses opt clock tasks href]
      obtain ⟨hsub, hperm, hcounter, hcounted⟩ :=
        ih (opt.attempt.complete task) (acceptTask placement task (clock 0))
          (fun i => clock (i + 1)) (h.complete task)
      refine ⟨hsub.cons task, hperm.cons task, hcounter, ?_⟩
      simpa using hcounted

/-- Each task has its own number, and is done or pending. -/
structure Accounts (done : List MigrationTask) (opt : MemoryOptimizer) : Prop where
  numbered : ∃ n, opt.taskIdCounter = UInt64.ofNat n ∧
    ((done ++ opt.pendingMigrations).map MigrationTask.taskId).Perm (taskIds n) ∧
    (opt.pendingMigrations.map MigrationTask.taskId).Sublist (taskIds n)
  counted : Counted done opt.metrics

theorem accounts_new : Accounts [] {} where
  numbered := ⟨0, rfl, .nil, .slnil⟩
  counted := ⟨rfl, rfl, rfl, rfl⟩

theorem Accounts.pushMigration {done : List MigrationTask} {opt : MemoryOptimizer}
    (h : Accounts done opt) (res : ResidencyInfo) (source target : TierClass)
    (priority : UInt32) : Accounts done (opt.pushMigration res source target priority) := by
  obtain ⟨n, hcounter, hperm, hsub⟩ := h.numbered
  refine ⟨⟨n + 1, ?_, ?_, ?_⟩, h.counted⟩
  · rw [UInt64.ofNat_add, ← hcounter]
    rfl
  · rw [taskIds_succ, ← hcounter, MemoryOptimizer.pushMigration, ← List.append_assoc,
      List.map_append, List.map_singleton]
    exact hperm.append_right _
  · rw [taskIds_succ, ← hcounter, MemoryOptimizer.pushMigration, List.map_append,
      List.map_singleton]
    exact hsub.append (List.Sublist.refl _)

theorem Accounts.congr {done : List MigrationTask} {opt opt' : MemoryOptimizer}
    (h : Accounts done opt) (hcounter : opt'.taskIdCounter = opt.taskIdCounter)
    (hpending : opt'.pendingMigrations = opt.pendingMigrations)
    (hmetrics : opt'.metrics = opt.metrics) : Accounts done opt' :=
  ⟨by rw [hcounter, hpending]; exact h.numbered, hmetrics ▸ h.counted⟩

theorem Accounts.ageObject {done : List MigrationTask} {opt : MemoryOptimizer}
    (h : Accounts done opt) (id : UInt64) : Accounts done (opt.ageObject id) := by
  rw [MemoryOptimizer.ageObject]
  cases opt.residencyMap.lookup id with
  | none => exact h
  | some entry =>
    dsimp only
    split_ifs
    · apply Accounts.pushMigration
      exact h.congr rfl rfl rfl
    · apply Accounts.pushMigration
      exact h.congr rfl rfl rfl
    · exact h.congr rfl rfl rfl

theorem Accounts.age {done : List MigrationTask} {opt : MemoryOptimizer} (h : Accounts done opt)
    (order : List UInt64) : Accounts done (opt.age order) := by
  induction order generalizing opt with
  | nil => exact h
  | cons id order ih => exact ih (h.ageObject id)

theorem Accounts.optimizePass {done : List MigrationTask} {opt : MemoryOptimizer}
    (h : Accounts done opt) (placement : MemoryPlacementEngine) (order : List UInt64)
    (clock : Nat → UInt64) :
    Accounts (done ++ (opt.passCompletions placement order clock).map Completion.task)
      (opt.optimizePass placement order clock).1 := by
  have haged := h.age order
  obtain ⟨n, hcounter, hperm, hsub⟩ := haged.numbered
  obtain ⟨hkept, hsplit, hsame, hcounted⟩ := processPending_ledger (opt.age order) placement clock
    (opt.age order).pendingMigrations haged.counted
  refine ⟨⟨n, hsame.trans hcounter, ?_, (hkept.map _).trans hsub⟩, hcounted⟩
  refine List.Perm.trans ?_ hperm
  rw [List.append_assoc]
  exact (hsplit.append_left done).map _

end MemoryOptimizer

namespace OptimizerSystem

open MemoryOptimizer

/-- The tasks that an action completes. -/
def completedBy (s : OptimizerSystem) : Action → List MigrationTask
  | .optimizePass order clock =>
    (s.optimizer.passCompletions s.placement order clock).map Completion.task
  | _ => []

theorem accounts_step {done : List MigrationTask} {s s' : OptimizerSystem} {a : Action}
    (h : Accounts done s.optimizer) (hs : s.step a = some s') :
    Accounts (done ++ s.completedBy a) s'.optimizer := by
  cases a with
  | optimizePass order clock =>
    obtain ⟨-, hopt, -⟩ := step_optimizePass hs
    rw [hopt]
    exact h.optimizePass s.placement order clock
  | recordAccess _ _ _ _ | setDecayRate _ | enqueue _ _ | dequeue | clear =>
    obtain rfl := Option.some.inj hs
    refine ((List.append_nil done).symm ▸ h).congr rfl rfl rfl

/-- A pass is refused its task because another user has queued the object; the next pass
schedules the object again, and completes the first of the two tasks. -/
def refusedOnce : List Action := queuedByOther ++ [.dequeue, .optimizePass [1] fun _ => 0]

end OptimizerSystem

end Ume
