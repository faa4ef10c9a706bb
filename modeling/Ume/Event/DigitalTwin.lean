import Mathlib.Algebra.Order.Field.Rat
import Mathlib.Data.Fintype.Basic
import Mathlib.Data.List.MinMax
import Mathlib.Tactic.NormNum
import Ume.Event.MemoryPlacement

/-! The simulation of candidate plans. A plan over the capacity of its tier loses 80 points,
down to zero; an over-full VRAM still scores more than a tier without a limit. -/

namespace Ume

structure SimulationPlan where
  planId : UInt64 := 0
  name : String := ""
  objectId : ObjectId := ObjectId.kNull
  targetTier : TierClass := TierClass.kRam
  sizeBytes : UInt64 := 0
  estimatedLatencyUs : UInt64 := 0
  estimatedBandwidthBytesSec : UInt64 := 0
  cacheHitRatio : ℚ := 1
  overallScore : ℚ := 0

structure SimulationResult where
  evaluatedPlans : List SimulationPlan := []
  selectedPlanId : UInt64 := 0
  selectedPlanScore : ℚ := 0

structure SimulationContext where
  currentRamUsage : UInt64 := 0
  currentVramUsage : UInt64 := 0
  currentSsdUsage : UInt64 := 0
  maxRamBytes : UInt64 := 0
  maxVramBytes : UInt64 := 0
  maxSsdBytes : UInt64 := 0

namespace DigitalTwin

structure Metrics where
  simulationsExecuted : UInt64 := 0
  totalSimulationLatencyNs : UInt64 := 0
  decisionQualityScoresSum : UInt64 := 0

/-- The capacity check. The sum is formed in 64 bits. -/
def overCapacity (currentUsage maxBytes sizeBytes : UInt64) : Bool :=
  maxBytes > 0 ∧ currentUsage + sizeBytes > maxBytes

def capacityPenalty (isOver : Bool) : ℚ := if isOver then 80 else 0

@[simp] theorem capacityPenalty_false : capacityPenalty false = 0 := rfl

/-- The estimates of a tier, and the penalty. -/
def estimatePlan (plan : SimulationPlan) (ctx : SimulationContext) : SimulationPlan × ℚ :=
  if plan.targetTier = TierClass.kVram then
    ({ plan with
        estimatedLatencyUs := 10
        estimatedBandwidthBytesSec := 250 * 1024 * 1024 * 1024
        cacheHitRatio := 98 / 100 },
      capacityPenalty (overCapacity ctx.currentVramUsage ctx.maxVramBytes plan.sizeBytes))
  else if plan.targetTier = TierClass.kRam then
    ({ plan with
        estimatedLatencyUs := 80
        estimatedBandwidthBytesSec := 50 * 1024 * 1024 * 1024
        cacheHitRatio := 85 / 100 },
      capacityPenalty (overCapacity ctx.currentRamUsage ctx.maxRamBytes plan.sizeBytes))
  else if plan.targetTier = TierClass.kNvme then
    ({ plan with
        estimatedLatencyUs := 5000
        estimatedBandwidthBytesSec := 3 * 1024 * 1024 * 1024
        cacheHitRatio := 50 / 100 },
      capacityPenalty (overCapacity ctx.currentSsdUsage ctx.maxSsdBytes plan.sizeBytes))
  else
    ({ plan with
        estimatedLatencyUs := 10000
        estimatedBandwidthBytesSec := 1 * 1024 * 1024 * 1024
        cacheHitRatio := 10 / 100 }, 0)

def latencyScore (latencyUs : UInt64) : ℚ :=
  if latencyUs > 10000 then 10 else 100 - latencyUs.toNat / 110

def bandwidthScore (bandwidthBytesSec : UInt64) : ℚ :=
  min 100 (bandwidthBytesSec.toNat / (3 * 1024 * 1024 * 1024))

def evaluatePlan (plan : SimulationPlan) (ctx : SimulationContext) : SimulationPlan :=
  let (plan, penalty) := estimatePlan plan ctx
  let score := latencyScore plan.estimatedLatencyUs * (4 / 10) +
    bandwidthScore plan.estimatedBandwidthBytesSec * (3 / 10) + plan.cacheHitRatio * 30
  { plan with overallScore := max 0 (score - penalty) }

/-- The loop keeps the first plan with a score above those before it. -/
def keepBest (best : ℚ × UInt64) (plan : SimulationPlan) : ℚ × UInt64 :=
  if plan.overallScore > best.1 then (plan.overallScore, plan.planId) else best

def simulateStrategies (metrics : Metrics) (startTime endTime : UInt64) (objectId : ObjectId)
    (sizeBytes : UInt64) (context : SimulationContext) (candidatePlans : List SimulationPlan) :
    Except Status SimulationResult × Metrics :=
  if candidatePlans.isEmpty ∨ objectId = ObjectId.kNull then (.error .kInvalidArgument, metrics)
  else
    let evaluated := candidatePlans.map fun plan =>
      evaluatePlan { plan with objectId := objectId, sizeBytes := sizeBytes } context
    let (bestScore, bestPlanId) := evaluated.foldl keepBest (-1, 0)
    (.ok
      { evaluatedPlans := evaluated
        selectedPlanId := bestPlanId
        selectedPlanScore := bestScore },
      { simulationsExecuted := metrics.simulationsExecuted + 1
        decisionQualityScoresSum :=
          metrics.decisionQualityScoresSum + UInt64.ofNat bestScore.floor.toNat
        totalSimulationLatencyNs := metrics.totalSimulationLatencyNs + (endTime - startTime) })

inductive TierKind where
  | vram
  | ram
  | nvme
  | other
  deriving DecidableEq

instance : Fintype TierKind where
  elems := {.vram, .ram, .nvme, .other}
  complete := by rintro (_ | _ | _ | _) <;> decide

def kindOf (tier : TierClass) : TierKind :=
  if tier = TierClass.kVram then .vram
  else if tier = TierClass.kRam then .ram
  else if tier = TierClass.kNvme then .nvme
  else .other

def limits (ctx : SimulationContext) : TierKind → Option (UInt64 × UInt64)
  | .vram => some (ctx.currentVramUsage, ctx.maxVramBytes)
  | .ram => some (ctx.currentRamUsage, ctx.maxRamBytes)
  | .nvme => some (ctx.currentSsdUsage, ctx.maxSsdBytes)
  | .other => none

/-- A tier can hold an object if it has no limit, or a maximum that is not tracked or not
exceeded by the sum of the integers. -/
def CanHold (ctx : SimulationContext) (size : UInt64) (kind : TierKind) : Prop :=
  ∀ limit ∈ limits ctx kind, limit.2 = 0 ∨ limit.1.toNat + size.toNat ≤ limit.2.toNat

def Over (ctx : SimulationContext) (size : UInt64) (kind : TierKind) : Bool :=
  (limits ctx kind).any fun limit => overCapacity limit.1 limit.2 size

instance (ctx : SimulationContext) (size : UInt64) (kind : TierKind) :
    Decidable (CanHold ctx size kind) :=
  Option.decidableForallMem (limits ctx kind)

namespace TierKind

/-- The score of a plan that is not penalised. -/
def fullScore : TierKind → ℚ
  | vram => 1038 / 11
  | ram => 7723 / 110
  | nvme => 4083 / 110
  | other => 741 / 110

def score (kind : TierKind) (isOver : Bool) : ℚ := max 0 (kind.fullScore - capacityPenalty isOver)

theorem score_nonneg (kind : TierKind) (isOver : Bool) : 0 ≤ kind.score isOver := le_max_left ..

/-- A score tells the tier, unless it is that of two tiers over their capacity. -/
theorem eq_of_score_eq :
    ∀ kind isOver kind' isOver', score kind isOver = score kind' isOver' →
      kind = kind' ∧ isOver = isOver' ∨ isOver ∧ isOver' := by
  decide +kernel

/-- The tiers that score more than one without a limit: VRAM in any case, the two others
unless they are over their capacity. -/
theorem other_lt_score :
    ∀ kind isOver, score other false < score kind isOver ↔
      kind = vram ∨ (kind = ram ∨ kind = nvme) ∧ isOver = false := by
  decide +kernel

theorem score_lt_of_over :
    ∀ kind kind', kind ≠ vram → score kind true < score kind' false := by
  decide +kernel

end TierKind

theorem overallScore_evaluatePlan (plan : SimulationPlan) (ctx : SimulationContext) :
    (evaluatePlan plan ctx).overallScore =
      (kindOf plan.targetTier).score (Over ctx plan.sizeBytes (kindOf plan.targetTier)) := by
  unfold evaluatePlan estimatePlan kindOf
  split_ifs with hvram hram hnvme
  all_goals
    simp [latencyScore, bandwidthScore, TierKind.score, TierKind.fullScore, Over, limits]
    norm_num

theorem targetTier_evaluatePlan (plan : SimulationPlan) (ctx : SimulationContext) :
    (evaluatePlan plan ctx).targetTier = plan.targetTier := by
  unfold evaluatePlan estimatePlan
  split_ifs <;> rfl

section Capacity

variable {ctx : SimulationContext} {size : UInt64} {kind kind' : TierKind}

/-- A tier that can hold an object is not found over its capacity: the sum does not wrap. -/
theorem CanHold.not_over (h : CanHold ctx size kind) : Over ctx size kind = false := by
  rw [Over, Option.any_eq_false]
  intro limit hlimit
  rcases h limit hlimit with hzero | hle
  · simp [overCapacity, hzero]
  · have hfits : (limit.1 + size).toNat = limit.1.toNat + size.toNat := by
      rw [UInt64.toNat_add, Nat.mod_eq_of_lt (hle.trans_lt limit.2.toNat_lt)]
    simp [overCapacity, UInt64.le_iff_toNat_le, hfits, hle]

/-- Tiers of the same score can both hold an object, or neither can. -/
theorem canHold_congr
    (h : kind.score (Over ctx size kind) = kind'.score (Over ctx size kind')) :
    CanHold ctx size kind ↔ CanHold ctx size kind' := by
  rcases TierKind.eq_of_score_eq _ _ _ _ h with ⟨rfl, -⟩ | ⟨hover, hover'⟩
  · rfl
  · have hnot {kind : TierKind} (hover : Over ctx size kind) : ¬ CanHold ctx size kind :=
      fun hcan => absurd (hcan.not_over.symm.trans hover) Bool.false_ne_true
    exact iff_of_false (hnot hover) (hnot hover')

theorem canHold_other : CanHold ctx size .other := by
  intro limit hlimit
  cases hlimit

end Capacity

/-- The loop ends with the first plan of the highest score. -/
theorem foldl_keepBest {plans : List SimulationPlan} (hne : plans ≠ [])
    (hscore : ∀ plan ∈ plans, 0 ≤ plan.overallScore) :
    ∃ plan ∈ plans.argmax (·.overallScore),
      plans.foldl keepBest (-1, 0) = (plan.overallScore, plan.planId) := by
  induction plans using List.reverseRecOn with
  | nil => exact absurd rfl hne
  | append_singleton plans plan ih =>
    rw [List.foldl_append, List.argmax_concat]
    rcases plans.eq_nil_or_concat with rfl | ⟨_, _, hplans⟩
    · have hpos : plan.overallScore > -1 := (hscore plan (by simp)).trans_lt' (by norm_num)
      exact ⟨plan, rfl, if_pos hpos⟩
    · obtain ⟨best, hbest, hfold⟩ := ih (by simp [hplans]) fun p hp => hscore p (by simp [hp])
      rw [hfold, Option.mem_def.mp hbest]
      by_cases hlt : best.overallScore < plan.overallScore
      · exact ⟨plan, if_pos hlt, if_pos hlt⟩
      · exact ⟨best, if_neg hlt, if_neg hlt⟩

/-- The plan that a result names by its id and its score. -/
def Selects (result : SimulationResult) (plan : SimulationPlan) : Prop :=
  plan ∈ result.evaluatedPlans ∧ plan.planId = result.selectedPlanId ∧
    plan.overallScore = result.selectedPlanScore

def Fits (ctx : SimulationContext) (size : UInt64) (plan : SimulationPlan) : Prop :=
  CanHold ctx size (kindOf plan.targetTier)

section Simulation

variable {metrics : Metrics} {startTime endTime : UInt64} {id : ObjectId} {size : UInt64}
  {ctx : SimulationContext} {plans : List SimulationPlan} {result : SimulationResult}

def evaluateFor (id : ObjectId) (size : UInt64) (ctx : SimulationContext)
    (plan : SimulationPlan) : SimulationPlan :=
  evaluatePlan { plan with objectId := id, sizeBytes := size } ctx

theorem targetTier_evaluateFor (plan : SimulationPlan) :
    (evaluateFor id size ctx plan).targetTier = plan.targetTier := targetTier_evaluatePlan ..

theorem overallScore_of_mem {plan : SimulationPlan}
    (h : plan ∈ plans.map (evaluateFor id size ctx)) :
    plan.overallScore =
      (kindOf plan.targetTier).score (Over ctx size (kindOf plan.targetTier)) := by
  obtain ⟨plan, -, rfl⟩ := List.mem_map.mp h
  rw [targetTier_evaluateFor]
  exact overallScore_evaluatePlan ..

theorem fits_evaluateFor {plan : SimulationPlan} :
    Fits ctx size (evaluateFor id size ctx plan) ↔ Fits ctx size plan := by
  rw [Fits, targetTier_evaluateFor, Fits]

variable (metrics startTime endTime size ctx)

theorem simulateStrategies_ok (hid : id ≠ ObjectId.kNull) (hne : plans ≠ []) :
    ∃ result, (simulateStrategies metrics startTime endTime id size ctx plans).1 = .ok result ∧
      result.evaluatedPlans = plans.map (evaluateFor id size ctx) ∧
      ∃ plan ∈ result.evaluatedPlans.argmax (·.overallScore), Selects result plan := by
  have hempty : ¬ (plans.isEmpty ∨ id = ObjectId.kNull) := by simp [hne, hid]
  rw [simulateStrategies, if_neg hempty]
  refine ⟨_, rfl, rfl, ?_⟩
  have hscore : ∀ plan ∈ plans.map (evaluateFor id size ctx), 0 ≤ plan.overallScore := by
    intro plan hplan
    rw [overallScore_of_mem hplan]
    exact TierKind.score_nonneg ..
  obtain ⟨plan, hplan, hfold⟩ := foldl_keepBest (by simpa using hne) hscore
  exact ⟨plan, hplan, List.argmax_mem hplan, (congrArg Prod.snd hfold).symm,
    (congrArg Prod.fst hfold).symm⟩

/-- The plan selected has the highest score, and fits if those that do not are outscored by one
that does. -/
theorem selects_spec (hid : id ≠ ObjectId.kNull) (hne : plans ≠ []) :
    ∃ result, (simulateStrategies metrics startTime endTime id size ctx plans).1 = .ok result ∧
      result.evaluatedPlans = plans.map (evaluateFor id size ctx) ∧
      (∃ plan, Selects result plan) ∧ ∀ plan, Selects result plan →
        (∀ q ∈ result.evaluatedPlans, q.overallScore ≤ plan.overallScore) ∧
        (Fits ctx size plan ↔ ∀ q ∈ result.evaluatedPlans, ¬ Fits ctx size q →
          ∃ r ∈ result.evaluatedPlans, Fits ctx size r ∧ q.overallScore < r.overallScore) := by
  obtain ⟨result, hok, heval, best, hbest, hselects⟩ :=
    simulateStrategies_ok metrics startTime endTime size ctx hid hne
  refine ⟨result, hok, heval, ⟨best, hselects⟩, fun plan hplan => ?_⟩
  have hmax (q : SimulationPlan) (hq : q ∈ result.evaluatedPlans) :
      q.overallScore ≤ plan.overallScore := by
    rw [hplan.2.2, ← hselects.2.2]
    exact List.le_of_mem_argmax hq hbest
  refine ⟨hmax, fun hfits q hq hnot => ?_, fun h => ?_⟩
  · refine ⟨plan, hplan.1, hfits, lt_of_le_of_ne (hmax q hq) fun heq => hnot ?_⟩
    rw [overallScore_of_mem (heval ▸ hq), overallScore_of_mem (heval ▸ hplan.1)] at heq
    exact (canHold_congr heq).mpr hfits
  · by_contra hnot
    obtain ⟨r, hr, -, hlt⟩ := h plan hplan.1 hnot
    exact absurd (hmax r hr) (not_le.mpr hlt)

variable {size ctx}

/-- The condition under which no tier that is too small scores as much as one that is not. -/
def Ordered (ctx : SimulationContext) (size : UInt64) : Prop :=
  CanHold ctx size .vram ∧ (CanHold ctx size .ram ∨ Over ctx size .ram) ∧
    (CanHold ctx size .nvme ∨ Over ctx size .nvme)

theorem ordered_iff :
    Ordered ctx size ↔ ∀ kind kind', ¬ CanHold ctx size kind → CanHold ctx size kind' →
      kind.score (Over ctx size kind) < kind'.score (Over ctx size kind') := by
  constructor
  · rintro ⟨hvram, hram, hnvme⟩ kind kind' hnot hcan
    rw [hcan.not_over]
    cases kind with
    | vram => exact absurd hvram hnot
    | ram =>
      rw [hram.resolve_left hnot]
      exact TierKind.score_lt_of_over _ _ (by decide)
    | nvme =>
      rw [hnvme.resolve_left hnot]
      exact TierKind.score_lt_of_over _ _ (by decide)
    | other => exact absurd canHold_other hnot
  · intro h
    have hother (kind : TierKind) (hnot : ¬ CanHold ctx size kind) :
        ¬ TierKind.other.score false < kind.score (Over ctx size kind) := by
      have hlt := h kind .other hnot canHold_other
      exact lt_asymm hlt
    simp only [TierKind.other_lt_score] at hother
    refine ⟨?_, ?_, ?_⟩
    · by_contra hnot
      exact hother .vram hnot (.inl rfl)
    · refine or_iff_not_imp_left.mpr fun hnot => ?_
      simpa using hother .ram hnot
    · refine or_iff_not_imp_left.mpr fun hnot => ?_
      simpa using hother .nvme hnot

def TierKind.tier : TierKind → TierClass
  | vram => TierClass.kVram
  | ram => TierClass.kRam
  | nvme => TierClass.kNvme
  | other => TierClass.kRemote

theorem kindOf_tier : ∀ kind : TierKind, kindOf kind.tier = kind := by
  decide

end Simulation

/-- The plan selected has the highest score. It fits exactly if each plan that does not fit is
outscored by one that does; for all lists of candidates with one that fits, exactly if VRAM can
hold the object, and RAM and NVMe can or are found to be over their capacity. -/
theorem selected_fits_iff (metrics : Metrics) (startTime endTime : UInt64) (id : ObjectId)
    (hid : id ≠ ObjectId.kNull) (size : UInt64) (ctx : SimulationContext) :
    let simulate plans := (simulateStrategies metrics startTime endTime id size ctx plans).1
    (∀ plans, plans ≠ [] → ∃ result, simulate plans = .ok result ∧
      (∃ plan, Selects result plan) ∧ ∀ plan, Selects result plan →
        (∀ q ∈ result.evaluatedPlans, q.overallScore ≤ plan.overallScore) ∧
        (Fits ctx size plan ↔ ∀ q ∈ result.evaluatedPlans, ¬ Fits ctx size q →
          ∃ r ∈ result.evaluatedPlans, Fits ctx size r ∧ q.overallScore < r.overallScore)) ∧
    ((∀ plans, (∃ p ∈ plans, Fits ctx size p) → ∀ result, simulate plans = .ok result →
      ∀ plan, Selects result plan → Fits ctx size plan) ↔ Ordered ctx size) := by
  intro simulate
  have hspec {plans : List SimulationPlan} (hne : plans ≠ []) :=
    selects_spec metrics startTime endTime size ctx hid hne
  refine ⟨fun plans hne => ?_, fun h => ?_, fun h => ?_⟩
  · obtain ⟨result, hok, -, hselects⟩ := hspec hne
    exact ⟨result, hok, hselects⟩
  · refine ordered_iff.mpr fun kind kind' hnot hcan => ?_
    obtain ⟨result, hok, heval, ⟨plan, hplan⟩, hselects⟩ :=
      hspec (List.cons_ne_nil { targetTier := kind.tier } [{ targetTier := kind'.tier }])
    have hfits : Fits ctx size plan := by
      refine h _ ⟨{ targetTier := kind'.tier }, by simp, ?_⟩ result hok plan hplan
      rwa [Fits, kindOf_tier]
    have hnotfits : ¬ Fits ctx size (evaluateFor id size ctx { targetTier := kind.tier }) := by
      rwa [fits_evaluateFor, Fits, kindOf_tier]
    have hmem : evaluateFor id size ctx { targetTier := kind.tier } ∈ result.evaluatedPlans := by
      rw [heval]
      exact List.mem_cons_self
    obtain ⟨r, hr, hrfits, hlt⟩ := (hselects plan hplan).2.mp hfits _ hmem hnotfits
    rw [overallScore_of_mem (heval ▸ hmem), overallScore_of_mem (heval ▸ hr)] at hlt
    rw [heval, List.map_cons, List.map_singleton, List.mem_pair] at hr
    obtain rfl := hr.resolve_left fun hfirst => hnotfits (hfirst ▸ hrfits)
    rwa [targetTier_evaluateFor, targetTier_evaluateFor, kindOf_tier, kindOf_tier] at hlt
  · rintro plans ⟨p, hp, hfits⟩ result hok plan hplan
    obtain ⟨result', hok', heval, -, hselects⟩ := hspec (List.ne_nil_of_mem hp)
    obtain rfl : result = result' := Except.ok.inj (hok.symm.trans hok')
    have hmem : evaluateFor id size ctx p ∈ result.evaluatedPlans := by
      rw [heval]
      exact List.mem_map_of_mem hp
    have hfits' : Fits ctx size (evaluateFor id size ctx p) := fits_evaluateFor.mpr hfits
    by_contra hnot
    have hlt := ordered_iff.mp h _ _ hnot hfits'
    rw [← overallScore_of_mem (heval ▸ hplan.1), ← overallScore_of_mem (heval ▸ hmem)] at hlt
    exact absurd ((hselects plan hplan).1 _ hmem) (not_le.mpr hlt)

/-- With room for the object in VRAM but neither in RAM nor on the NVMe, a plan that fits is
selected, whichever tiers the candidates are for. -/
theorem selected_fits_crowded :
    let ctx : SimulationContext :=
      { currentRamUsage := 950, currentVramUsage := 100, currentSsdUsage := 900
        maxRamBytes := 1000, maxVramBytes := 1000, maxSsdBytes := 980 }
    CanHold ctx 100 .vram ∧ ¬ CanHold ctx 100 .ram ∧ ¬ CanHold ctx 100 .nvme ∧
      ∀ plans, (∃ p ∈ plans, Fits ctx 100 p) → ∀ result,
        (simulateStrategies {} 0 0 1 100 ctx plans).1 = .ok result →
          ∀ plan, Selects result plan → Fits ctx 100 plan := by
  intro ctx
  have hordered : Ordered ctx 100 := by
    unfold Ordered
    decide
  exact ⟨hordered.1, by decide, by decide,
    (selected_fits_iff {} 0 0 1 (by decide) 100 ctx).2.mpr hordered⟩

/-- Of a VRAM of 100 bytes and a remote tier without a limit, the VRAM is selected for 200
bytes. -/
theorem overfull_vram_selected :
    let ctx : SimulationContext := { maxVramBytes := 100 }
    let vram : SimulationPlan := { planId := 1, targetTier := TierClass.kVram }
    let remote : SimulationPlan := { planId := 2, targetTier := TierClass.kRemote }
    (simulateStrategies {} 0 0 1 200 ctx [vram, remote]).1.toOption.map (·.selectedPlanId) =
        some 1 ∧
      ¬ Fits ctx 200 vram ∧ Fits ctx 200 remote := by
  unfold Fits
  decide +kernel

end DigitalTwin

end Ume
