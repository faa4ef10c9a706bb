import Mathlib.Algebra.BigOperators.Group.Finset.Basic
import Mathlib.Algebra.Order.BigOperators.Group.Finset
import Ume.Event.OptimizerTasks
import Ume.Event.PlacementQueue

/-! The objects that are in the video memory because a pass has promoted them, and
the capacity that the placement engine would have to check for it. -/

namespace Ume

open MemoryOptimizer OptimizerSystem

/-- The system with the objects that a pass has promoted and that are recorded in the
video memory ever since. -/
structure Promotions where
  system : OptimizerSystem
  promoted : Finset ObjectId := ∅

namespace Promotions

def follow (promoted : Finset ObjectId) (c : Completion) : Finset ObjectId :=
  if c.task.targetTier = TierClass.kVram then insert c.task.objectId promoted
  else promoted.erase c.task.objectId

def promotedAfter (p : Promotions) : Action → Finset ObjectId
  | .recordAccess objectId _ tier _ =>
    if tier = TierClass.kVram then p.promoted else p.promoted.erase objectId
  | .optimizePass order clock =>
    (p.system.optimizer.passCompletions p.system.placement order clock).foldl follow p.promoted
  | _ => p.promoted

def step (p : Promotions) (a : Action) : Option Promotions :=
  (p.system.step a).map fun system => ⟨system, p.promotedAfter a⟩

theorem step_eq_some {p p' : Promotions} {a : Action} (h : p.step a = some p') :
    p.system.step a = some p'.system ∧ p'.promoted = p.promotedAfter a := by
  obtain ⟨system, hs, rfl⟩ := Option.map_eq_some_iff.mp h
  exact ⟨hs, rfl⟩

end Promotions

/-- The size an object is recorded with. -/
def MemoryOptimizer.sizeOf (opt : MemoryOptimizer) (id : ObjectId) : Nat :=
  ((opt.residencyMap.lookup id).map fun res => res.sizeBytes.toNat).getD 0

namespace Promotions

def residentBytes (p : Promotions) : Nat :=
  ∑ id ∈ p.promoted, p.system.optimizer.sizeOf id

/-- The promotions that an action completes are ones that the placement engine would
plan in the state they find it in. -/
def Planned (p : Promotions) : Action → Prop
  | .optimizePass order clock =>
    ∀ c ∈ p.system.optimizer.passCompletions p.system.placement order clock,
      c.task.targetTier = TierClass.kVram →
        ∃ plan, (c.placement.planPlacement (decisionOf c.task)).1 = .ok plan
  | _ => True

/-- The objects that a pass is about to promote. -/
def promotions (p : Promotions) : Finset ObjectId :=
  p.system.optimizer.residencyMap.keys.toFinset.filter fun id =>
    ∃ m ∈ p.system.optimizer.passMove p.system.placement id, m.target = TierClass.kVram

/-- The objects that a pass is about to demote. -/
def demotions (p : Promotions) : Finset ObjectId :=
  p.system.optimizer.residencyMap.keys.toFinset.filter fun id =>
    ∃ m ∈ p.system.optimizer.passMove p.system.placement id, m.target ≠ TierClass.kVram

/-- Each object that a pass promotes has a size and fits the capacity, and all
promoted objects fit it together; and so does a promoted object with the size that
an access records for it. -/
def Fits (p : Promotions) : Action → Prop
  | .recordAccess objectId sizeBytes tier _ =>
    tier = TierClass.kVram → objectId ∈ p.promoted →
      (∑ id ∈ p.promoted.erase objectId, p.system.optimizer.sizeOf id) + sizeBytes.toNat ≤
        p.system.placement.maxVram.toNat
  | .optimizePass _ _ =>
    (∀ id ∈ p.promotions, ∀ m ∈ p.system.optimizer.passMove p.system.placement id,
        m.sizeBytes ≠ 0 ∧ m.sizeBytes ≤ p.system.placement.maxVram) ∧
      ∑ id ∈ p.promoted \ p.demotions ∪ p.promotions, p.system.optimizer.sizeOf id ≤
        p.system.placement.maxVram.toNat
  | _ => True

instance (p : Promotions) : ∀ a, Decidable (p.Fits a)
  | .recordAccess _ _ _ _ => inferInstanceAs (Decidable (_ → _ → _))
  | .optimizePass _ _ => @instDecidableAnd _ _ Finset.decidableDforallFinset (Nat.decLe _ _)
  | .setDecayRate _ => .isTrue trivial
  | .enqueue _ _ => .isTrue trivial
  | .dequeue => .isTrue trivial
  | .clear => .isTrue trivial

/-- The promoted objects are in the video memory, and fit it. -/
structure WithinCapacity (p : Promotions) : Prop where
  resident : ∀ id ∈ p.promoted, p.system.optimizer.tierOf id = some TierClass.kVram
  bytes : p.residentBytes ≤ p.system.placement.maxVram.toNat

end Promotions

/-! ### The engine during a pass -/

namespace MemoryPlacementEngine

/-- The same capacities, with the same counters of what is used. -/
def SameCapacities (engine engine' : MemoryPlacementEngine) : Prop :=
  ∀ c, engine'.maximum c = engine.maximum c ∧ engine'.used c = engine.used c

theorem SameCapacities.refl (engine : MemoryPlacementEngine) : engine.SameCapacities engine :=
  fun _ => ⟨rfl, rfl⟩

theorem SameCapacities.trans {e e' e'' : MemoryPlacementEngine} (h : e.SameCapacities e')
    (h' : e'.SameCapacities e'') : e.SameCapacities e'' :=
  fun c => ⟨(h' c).1.trans (h c).1, (h' c).2.trans (h c).2⟩

theorem sameCapacities_accept (engine : MemoryPlacementEngine) (req : PlacementRequest) :
    engine.SameCapacities (engine.accept req) := by
  intro c
  cases c <;> exact ⟨rfl, rfl⟩

theorem sameCapacities_enqueueRequest (engine : MemoryPlacementEngine) (d : SchedulingDecision)
    (now : UInt64) : engine.SameCapacities (engine.enqueueRequest d now).2 := by
  by_cases href : engine.Refuses d.objectId
  · obtain ⟨status, h⟩ := enqueueRequest_of_refuses href now
    rw [h]
    exact .refl engine
  · rw [enqueueRequest_of_not_refuses href]
    exact engine.sameCapacities_accept _

theorem sameCapacities_dequeueRequest (engine : MemoryPlacementEngine) :
    engine.SameCapacities engine.dequeueRequest.2 := by
  intro c
  rw [dequeueRequest]
  cases engine.queue with
  | nil => exact ⟨rfl, rfl⟩
  | cons req queue => cases c <;> exact ⟨rfl, rfl⟩

theorem sameCapacities_clearQueue (engine : MemoryPlacementEngine) :
    engine.SameCapacities engine.clearQueue := by
  intro c
  cases c <;> exact ⟨rfl, rfl⟩

end MemoryPlacementEngine

namespace MemoryOptimizer

open MemoryPlacementEngine

section Loop

variable (opt : MemoryOptimizer) (placement : MemoryPlacementEngine) (clock : Nat → UInt64)
  (tasks : List MigrationTask)

theorem sameCapacities_processPending :
    placement.SameCapacities (opt.processPending placement clock tasks).2.2 := by
  induction tasks generalizing opt placement clock with
  | nil => exact .refl placement
  | cons task tasks ih =>
    by_cases href : placement.Refuses task.objectId
    · rw [processPending_cons_of_refuses opt clock tasks href]
      exact ih _ _ _
    · rw [processPending_cons_of_not_refuses opt clock tasks href]
      exact (placement.sameCapacities_accept _).trans (ih _ _ _)

theorem sameCapacities_of_mem_completions {c : Completion}
    (h : c ∈ opt.completions placement clock tasks) :
    placement.SameCapacities c.placement := by
  induction tasks generalizing opt placement clock with
  | nil => exact absurd h List.not_mem_nil
  | cons task tasks ih =>
    by_cases href : placement.Refuses task.objectId
    · rw [completions_cons_of_refuses opt clock tasks href] at h
      exact ih _ _ _ h
    · rw [completions_cons_of_not_refuses opt clock tasks href, List.mem_cons] at h
      rcases h with rfl | h
      · exact .refl placement
      · exact (placement.sameCapacities_accept _).trans (ih _ _ _ h)

/-- Every move that is due and not refused is made by a completed task. -/
theorem exists_completion {id : ObjectId} {m : Move} (h : taken placement tasks id = some m) :
    ∃ c ∈ opt.completions placement clock tasks, c.task.objectId = id ∧ c.task.move = m := by
  induction tasks generalizing opt placement clock with
  | nil => simp [taken] at h
  | cons task tasks ih =>
    by_cases href : placement.Refuses task.objectId
    · rw [completions_cons_of_refuses opt clock tasks href]
      have hid : id ≠ task.objectId := by
        rintro rfl
        rw [taken_of_refuses href] at h
        exact Option.some_ne_none m h.symm
      rw [taken, moves_cons_of_ne hid] at h
      exact ih _ _ _ h
    · rw [completions_cons_of_not_refuses opt clock tasks href]
      by_cases hid : id = task.objectId
      · subst hid
        rw [taken_of_not_refuses href, moves_cons_self] at h
        exact ⟨_, List.mem_cons_self, rfl, Option.some.inj h⟩
      · have htaken : taken (acceptTask placement task (clock 0)) tasks id = some m := by
          rw [taken, moves_cons_of_ne hid] at h
          simpa only [taken, refuses_acceptTask_of_ne _ hid] using h
        obtain ⟨c, hc, hobj, hmove⟩ :=
          ih (opt.attempt.complete task) _ (fun i => clock (i + 1)) htaken
        exact ⟨c, List.mem_cons_of_mem _ hc, hobj, hmove⟩

/-- The promoted objects after the loop: those whose move leads to the video memory,
and those with no move that were promoted before. -/
theorem mem_foldl_follow (promoted : Finset ObjectId) (id : ObjectId) :
    id ∈ (opt.completions placement clock tasks).foldl Promotions.follow promoted ↔
      match taken placement tasks id with
      | some m => m.target = TierClass.kVram
      | none => id ∈ promoted := by
  induction tasks generalizing opt placement clock promoted with
  | nil => simp [completions, taken]
  | cons task tasks ih =>
    by_cases href : placement.Refuses task.objectId
    · rw [completions_cons_of_refuses opt clock tasks href, ih]
      by_cases hid : id = task.objectId
      · rw [hid, taken_of_refuses href, taken_of_refuses href]
      · rw [taken, taken, moves_cons_of_ne hid]
    · rw [completions_cons_of_not_refuses opt clock tasks href, List.foldl_cons, ih]
      by_cases hid : id = task.objectId
      · subst hid
        rw [taken_of_refuses (refuses_acceptTask_self _ _ _), taken_of_not_refuses href,
          moves_cons_self]
        by_cases htarget : task.targetTier = TierClass.kVram
        · simp [Promotions.follow, MigrationTask.move, htarget]
        · simp [Promotions.follow, MigrationTask.move, htarget]
      · have hmem : id ∈ Promotions.follow promoted ⟨task, opt, placement⟩ ↔ id ∈ promoted := by
          rw [Promotions.follow]
          split_ifs <;> simp [hid]
        simp only [taken, refuses_acceptTask_of_ne _ hid, moves_cons_of_ne hid, hmem]

end Loop

end MemoryOptimizer

namespace Promotions

open MemoryPlacementEngine

/-! ### One step -/

section Pass

variable {p : Promotions} {order : List UInt64} (hw : p.system.optimizer.WellFormed)
  (horder : order.Perm p.system.optimizer.residencyMap.keys) (clock : Nat → UInt64)

include hw

theorem mem_keys_of_passMove {id : ObjectId} {m : Move}
    (h : p.system.optimizer.passMove p.system.placement id = some m) :
    id ∈ p.system.optimizer.residencyMap.keys := by
  rw [passMove] at h
  split_ifs at h
  exact AList.mem_keys.mp (AList.lookup_isSome.mp (hw.known_due (List.mem_of_head? h)))

theorem mem_promotions {id : ObjectId} :
    id ∈ p.promotions ↔
      ∃ m, p.system.optimizer.passMove p.system.placement id = some m ∧
        m.target = TierClass.kVram := by
  rw [promotions, Finset.mem_filter, List.mem_toFinset]
  exact and_iff_right_of_imp fun ⟨m, hm, _⟩ => mem_keys_of_passMove hw hm

theorem mem_demotions {id : ObjectId} :
    id ∈ p.demotions ↔
      ∃ m, p.system.optimizer.passMove p.system.placement id = some m ∧
        m.target ≠ TierClass.kVram := by
  rw [demotions, Finset.mem_filter, List.mem_toFinset]
  exact and_iff_right_of_imp fun ⟨m, hm, _⟩ => mem_keys_of_passMove hw hm

include horder

theorem mem_promotedAfter_optimizePass {id : ObjectId} :
    id ∈ p.promotedAfter (.optimizePass order clock) ↔
      match p.system.optimizer.passMove p.system.placement id with
      | some m => m.target = TierClass.kVram
      | none => id ∈ p.promoted := by
  rw [promotedAfter, passCompletions, mem_foldl_follow, taken_age hw.keyed horder]

theorem promotedAfter_optimizePass :
    p.promotedAfter (.optimizePass order clock) = p.promoted \ p.demotions ∪ p.promotions := by
  ext id
  rw [mem_promotedAfter_optimizePass hw horder, Finset.mem_union, Finset.mem_sdiff,
    mem_promotions hw, mem_demotions hw]
  cases p.system.optimizer.passMove p.system.placement id with
  | none => simp
  | some m => simp

theorem planned_optimizePass_iff (hused : ∀ c, p.system.placement.used c = 0) :
    p.Planned (.optimizePass order clock) ↔
      ∀ id ∈ p.promotions, ∀ m ∈ p.system.optimizer.passMove p.system.placement id,
        m.sizeBytes ≠ 0 ∧ m.sizeBytes ≤ p.system.placement.maxVram := by
  have hplan {c : Completion} (hc : c ∈ p.system.optimizer.passCompletions p.system.placement
      order clock) (htarget : c.task.targetTier = TierClass.kVram) :
      (∃ plan, (c.placement.planPlacement (decisionOf c.task)).1 = .ok plan) ↔
        c.task.objectId ≠ ObjectId.kNull ∧ c.task.sizeBytes ≠ 0 ∧
          c.task.sizeBytes ≤ p.system.placement.maxVram := by
    have hsame := sameCapacities_of_mem_completions _ _ _ _ hc
    rw [exists_plan_iff fun c' => (hsame c').2.trans (hused c'), Admissible, decisionOf, htarget,
      (hsame _).1]
    exact Iff.rfl
  constructor
  · intro h id hid m hm
    obtain ⟨m', hm', htarget⟩ := (mem_promotions hw).mp hid
    obtain rfl : m' = m := Option.some.inj (hm'.symm.trans hm)
    have htaken := (taken_age hw.keyed horder p.system.placement id).trans hm'
    obtain ⟨c, hc, -, rfl⟩ := exists_completion (p.system.optimizer.age order)
      p.system.placement clock _ htaken
    exact ((hplan hc htarget).mp (h c hc htarget)).2
  · intro h c hc htarget
    have htaken := (taken_of_mem_completions _ _ _ _ hc).1
    rw [taken_age hw.keyed horder] at htaken
    have hid := (mem_promotions hw).mpr ⟨_, htaken, htarget⟩
    refine (hplan hc htarget).mpr ⟨?_, h _ hid _ htaken⟩
    intro hnull
    rw [passMove, if_pos (.inl hnull)] at htaken
    exact Option.some_ne_none _ htaken.symm

theorem sizeOf_optimizePass (id : ObjectId) :
    (p.system.optimizer.optimizePass p.system.placement order clock).1.sizeOf id =
      p.system.optimizer.sizeOf id := by
  rw [MemoryOptimizer.sizeOf, lookup_optimizePass hw.keyed horder, Option.map_map,
    MemoryOptimizer.sizeOf]
  cases p.system.optimizer.passMove p.system.placement id <;> rfl

theorem withinCapacity_optimizePass_iff {p' : Promotions} (hp : p.WithinCapacity)
    (hs : p.step (.optimizePass order clock) = some p') :
    p'.WithinCapacity ↔
      ∑ id ∈ p.promoted \ p.demotions ∪ p.promotions, p.system.optimizer.sizeOf id ≤
        p.system.placement.maxVram.toNat := by
  obtain ⟨hsys, hpromoted⟩ := step_eq_some hs
  obtain ⟨-, hopt, hplacement⟩ := step_optimizePass hsys
  have hmax : p'.system.placement.maxVram = p.system.placement.maxVram := by
    rw [hplacement]
    exact (sameCapacities_processPending _ _ _ _ .vram).1
  have hbytes : p'.residentBytes =
      ∑ id ∈ p.promoted \ p.demotions ∪ p.promotions, p.system.optimizer.sizeOf id := by
    rw [residentBytes, hpromoted, promotedAfter_optimizePass hw horder, hopt]
    exact Finset.sum_congr rfl fun id _ => sizeOf_optimizePass hw horder clock id
  rw [← hbytes, ← hmax]
  refine ⟨fun h => h.bytes, fun h => ⟨?_, h⟩⟩
  intro id hid
  rw [hpromoted, mem_promotedAfter_optimizePass hw horder] at hid
  rw [hopt, tierOf_optimizePass hw.keyed horder]
  cases hm : p.system.optimizer.passMove p.system.placement id with
  | none =>
    rw [hm] at hid
    exact hp.resident id hid
  | some m =>
    rw [hm] at hid
    have hknown := AList.lookup_isSome.mpr (AList.mem_keys.mpr (mem_keys_of_passMove hw hm))
    obtain ⟨res, hres⟩ := Option.isSome_iff_exists.mp hknown
    rw [tierOf, hres]
    exact congrArg some hid

end Pass

section RecordAccess

variable {p p' : Promotions} {objectId : ObjectId} {sizeBytes : UInt64} {tier : TierClass}
  {now : UInt64}

theorem sizeOf_recordAccess_self (opt : MemoryOptimizer) :
    (opt.recordAccess objectId sizeBytes tier now).sizeOf objectId = sizeBytes.toNat := by
  obtain ⟨res, hres, -, -, hsize⟩ := opt.lookup_recordAccess_self objectId sizeBytes tier now
  rw [MemoryOptimizer.sizeOf, hres, ← hsize]
  rfl

theorem sizeOf_recordAccess_of_ne (opt : MemoryOptimizer) {id : ObjectId} (hid : id ≠ objectId) :
    (opt.recordAccess objectId sizeBytes tier now).sizeOf id = opt.sizeOf id := by
  rw [MemoryOptimizer.sizeOf, lookup_recordAccess_of_ne _ _ _ _ _ hid, MemoryOptimizer.sizeOf]

theorem resident_recordAccess (hp : p.WithinCapacity)
    (hs : p.step (.recordAccess objectId sizeBytes tier now) = some p') (id : ObjectId)
    (hid : id ∈ p'.promoted) : p'.system.optimizer.tierOf id = some TierClass.kVram := by
  obtain ⟨hsys, hpromoted⟩ := step_eq_some hs
  have hopt : p'.system.optimizer =
      p.system.optimizer.recordAccess objectId sizeBytes tier now := by
    rw [← Option.some.inj hsys]
  rw [hpromoted, promotedAfter] at hid
  rw [hopt, tierOf]
  by_cases hself : id = objectId
  · obtain ⟨res, hres, -, htier, -⟩ :=
      p.system.optimizer.lookup_recordAccess_self objectId sizeBytes tier now
    rw [hself, hres, Option.map_some, htier]
    split_ifs at hid with hvram
    · rw [hvram]
    · exact absurd hself (Finset.ne_of_mem_erase hid)
  · rw [lookup_recordAccess_of_ne _ _ _ _ _ hself]
    refine hp.resident id ?_
    split_ifs at hid
    · exact hid
    · exact Finset.mem_of_mem_erase hid

theorem withinCapacity_recordAccess_iff (hp : p.WithinCapacity)
    (hs : p.step (.recordAccess objectId sizeBytes tier now) = some p') :
    p'.WithinCapacity ↔ p.Fits (.recordAccess objectId sizeBytes tier now) := by
  obtain ⟨hsys, hpromoted⟩ := step_eq_some hs
  have hsystem := Option.some.inj hsys
  have hbytes : p'.WithinCapacity ↔ p'.residentBytes ≤ p.system.placement.maxVram.toNat := by
    have hmax : p'.system.placement = p.system.placement := by rw [← hsystem]
    rw [← hmax]
    exact ⟨fun h => h.bytes, fun h => ⟨resident_recordAccess hp hs, h⟩⟩
  have hothers (ids : Finset ObjectId) (hids : objectId ∉ ids) :
      ∑ id ∈ ids, p'.system.optimizer.sizeOf id = ∑ id ∈ ids, p.system.optimizer.sizeOf id := by
    refine Finset.sum_congr rfl fun id hid => ?_
    rw [← hsystem]
    exact sizeOf_recordAccess_of_ne _ fun he => hids (he ▸ hid)
  have herase := hothers (p.promoted.erase objectId) (Finset.notMem_erase _ _)
  have hold := hp.bytes
  rw [residentBytes] at hold
  rw [hbytes, residentBytes, hpromoted, promotedAfter, Fits]
  by_cases hvram : tier = TierClass.kVram
  · rw [if_pos hvram]
    by_cases hmem : objectId ∈ p.promoted
    · have hself : p'.system.optimizer.sizeOf objectId = sizeBytes.toNat := by
        rw [← hsystem]
        exact sizeOf_recordAccess_self _
      rw [← Finset.sum_erase_add _ _ hmem, herase, hself]
      exact ⟨fun h _ _ => h, fun h => h hvram hmem⟩
    · rw [hothers _ hmem]
      exact iff_of_true hold fun _ h => absurd h hmem
  · rw [if_neg hvram, herase]
    refine iff_of_true (le_trans ?_ hold) fun h => absurd h hvram
    exact Finset.sum_le_sum_of_subset (Finset.erase_subset _ _)

end RecordAccess

end Promotions

namespace OptimizerSystem

open MemoryPlacementEngine

theorem sameCapacities_step {s s' : OptimizerSystem} {a : Action} (hs : s.step a = some s') :
    s.placement.SameCapacities s'.placement := by
  cases a with
  | recordAccess _ _ _ _ | setDecayRate _ =>
    obtain rfl := Option.some.inj hs
    exact .refl _
  | optimizePass order clock =>
    obtain ⟨-, -, hplacement⟩ := step_optimizePass hs
    rw [hplacement]
    exact sameCapacities_processPending _ _ _ _
  | enqueue decision now =>
    obtain rfl := Option.some.inj hs
    exact sameCapacities_enqueueRequest _ _ _
  | dequeue =>
    obtain rfl := Option.some.inj hs
    exact sameCapacities_dequeueRequest _
  | clear =>
    obtain rfl := Option.some.inj hs
    exact sameCapacities_clearQueue _

end OptimizerSystem

namespace Promotions

open MemoryPlacementEngine

structure Sound (p : Promotions) : Prop where
  wellFormed : p.system.optimizer.WellFormed
  unused : ∀ c, p.system.placement.used c = 0
  within : p.WithinCapacity

section Step

variable {p p' : Promotions} {a : Action}

/-- An action that leaves the optimizer's records alone keeps what is promoted. -/
theorem withinCapacity_of_same (hp : p.WithinCapacity) (hs : p.step a = some p')
    (hpromoted : p'.promoted = p.promoted)
    (hmap : p'.system.optimizer.residencyMap = p.system.optimizer.residencyMap) :
    p'.WithinCapacity := by
  have hmax : p'.system.placement.maxVram = p.system.placement.maxVram :=
    (sameCapacities_step (step_eq_some hs).1 .vram).1
  constructor
  · intro id hid
    rw [tierOf, hmap]
    exact hp.resident id (hpromoted ▸ hid)
  · have hbytes := hp.bytes
    simp only [residentBytes, MemoryOptimizer.sizeOf] at hbytes ⊢
    rwa [hpromoted, hmap, hmax]

theorem fits_iff (hi : p.Sound) (hs : p.step a = some p') :
    p.Fits a ↔ p.Planned a ∧ p'.WithinCapacity := by
  obtain ⟨hsys, hpromoted⟩ := step_eq_some hs
  cases a with
  | recordAccess objectId sizeBytes tier now =>
    rw [withinCapacity_recordAccess_iff hi.within hs]
    exact (and_iff_right trivial).symm
  | optimizePass order clock =>
    have horder := (step_optimizePass hsys).1
    rw [planned_optimizePass_iff hi.wellFormed horder clock hi.unused,
      withinCapacity_optimizePass_iff hi.wellFormed horder clock hi.within hs]
    exact Iff.rfl
  | setDecayRate decayRate =>
    refine iff_of_true trivial ⟨trivial, withinCapacity_of_same hi.within hs hpromoted ?_⟩
    rw [← Option.some.inj hsys]
    rfl
  | enqueue _ _ | dequeue | clear =>
    refine iff_of_true trivial ⟨trivial, withinCapacity_of_same hi.within hs hpromoted ?_⟩
    rw [← Option.some.inj hsys]

theorem Sound.step (hi : p.Sound) (hok : p.Fits a) (hs : p.step a = some p') : p'.Sound := by
  have hsys := (step_eq_some hs).1
  exact
    { wellFormed := wellFormed_step hi.wellFormed hsys
      unused := fun c => (sameCapacities_step hsys c).2.trans (hi.unused c)
      within := ((fits_iff hi hs).mp hok).2 }

end Step

theorem along_fits_iff {p t : Promotions} {as : List Action} (hi : p.Sound)
    (h : Runs.run step p as = some t) :
    Runs.Along step Planned p as ∧ Runs.Throughout step WithinCapacity p as ↔
      Runs.Along step Fits p as := by
  rw [Runs.throughout_iff, and_iff_right hi.within, ← Runs.along_and]
  symm
  refine Runs.along_congr ?_ (fun p a p' hi hok hs => hi.step hok hs) hi h
  intro p a p' hi hs
  rw [fits_iff hi hs]
  exact and_congr_right' ⟨fun hw p'' hs'' => Option.some.inj (hs.symm.trans hs'') ▸ hw,
    fun hw => hw p' hs⟩

/-- A new optimizer over a new engine. -/
def start (maxRam maxVram maxSsd : UInt64) : Promotions :=
  ⟨⟨{}, { maxRam := maxRam, maxVram := maxVram, maxSsd := maxSsd }⟩, ∅⟩

theorem sound_start (maxRam maxVram maxSsd : UInt64) : (start maxRam maxVram maxSsd).Sound where
  wellFormed := new_tasksFresh.1
  unused c := by cases c <;> rfl
  within := ⟨fun id hid => absurd hid (Finset.notMem_empty id), Nat.zero_le _⟩

/-- The engine takes any request for an object that is not queued. So the completed
promotions are ones it would have planned, and the promoted objects fit the video
memory in every state, exactly if each step sees to it. -/
theorem promotions_planned_iff {maxRam maxVram maxSsd : UInt64} {as : List Action}
    {t : Promotions} (h : Runs.run step (start maxRam maxVram maxSsd) as = some t) :
    Runs.Along step Planned (start maxRam maxVram maxSsd) as ∧
        Runs.Throughout step WithinCapacity (start maxRam maxVram maxSsd) as ↔
      Runs.Along step Fits (start maxRam maxVram maxSsd) as :=
  along_fits_iff (sound_start maxRam maxVram maxSsd) h

/-- An object of this size becomes hot, and a pass promotes it. -/
def promoteOf (sizeBytes : UInt64) : List Action :=
  List.replicate 4 (Action.recordAccess 1 sizeBytes TierClass.kRam 0) ++
    [Action.optimizePass [1] fun _ => 0, Action.dequeue]

theorem promotions_planned_promoteOf :
    Runs.Along step Fits (start 4096 1024 4096) (promoteOf 1024) ∧
      Runs.Throughout step WithinCapacity (start 4096 1024 4096) (promoteOf 1024) := by
  have hok : Runs.Along step Fits (start 4096 1024 4096) (promoteOf 1024) := by decide +kernel
  have hrun : (Runs.run step (start 4096 1024 4096) (promoteOf 1024)).isSome := by decide +kernel
  obtain ⟨t, ht⟩ := Option.isSome_iff_exists.mp hrun
  exact ⟨hok, ((promotions_planned_iff ht).mpr hok).2⟩

/-- An object that is larger than the video memory is promoted all the same. -/
theorem promoteOf_exceeds :
    (Runs.run step (start 4096 1024 4096) (promoteOf 2048)).map residentBytes = some 2048 ∧
      ((start 4096 1024 4096).system.placement.planPlacement
        { objectId := 1, preferredTier := TierClass.kVram, allocationSizeBytes := 2048 }).1 =
        .error .kCapacityExceeded :=
  ⟨by decide +kernel, rfl⟩

end Promotions

end Ume
