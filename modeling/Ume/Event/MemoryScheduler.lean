import Mathlib.Algebra.Order.Field.Rat
import Mathlib.Tactic.Linarith
import Ume.Event.MemoryPlacement
import Ume.Event.StatisticsBalance

/-! The scheduler's choice of a tier. It compares the bytes in use after the allocation with
the highest use so far; the sum is formed in 64 bits, so a size that takes it past them finds
no pressure. -/

namespace Ume

structure SchedulingPolicy where
  ramPressureThreshold : ℚ := 85 / 100
  vramPressureThreshold : ℚ := 90 / 100
  vramHotAccessCountThreshold : UInt32 := 10

namespace MemoryScheduler

open StatisticsCollector

def underPressure (currentBytes peakBytes sizeBytes : UInt64) (threshold : ℚ) : Bool :=
  peakBytes > 0 ∧ ((currentBytes + sizeBytes).toNat : ℚ) / peakBytes.toNat > threshold

def scheduleAllocation (stats : StatisticsCollector) (policy : SchedulingPolicy)
    (objectId : ObjectId) (sizeBytes : UInt64) (accessCount : UInt32) (priority : EventPriority)
    (now : UInt64) : SchedulingDecision :=
  let decision : SchedulingDecision :=
    { objectId := objectId
      allocationSizeBytes := sizeBytes
      decisionTimestamp := now
      priorityScore := priority.toUInt32 * 50 + 50 }
  let snap := stats.snapshot
  if accessCount ≥ policy.vramHotAccessCountThreshold ∨ priority = EventPriority.kCritical then
    if underPressure snap.currentVramBytes snap.peakVramBytes sizeBytes
        policy.vramPressureThreshold then
      { decision with
        preferredTier := TierClass.kRam
        reason := DecisionReason.kVramCapacityExceededRamFallback }
    else
      { decision with
        preferredTier := TierClass.kVram
        reason := DecisionReason.kHotAccessVram
        priorityScore := decision.priorityScore + 50 }
  else if underPressure snap.currentRamBytes snap.peakRamBytes sizeBytes
      policy.ramPressureThreshold then
    { decision with
      preferredTier := TierClass.kNvme
      reason := DecisionReason.kRamThresholdExceededSsdSpill }
  else
    { decision with
      preferredTier := TierClass.kRam
      reason := DecisionReason.kDefaultPlacement }

/-- A decision for a slower tier because of pressure. -/
def FallsBack (d : SchedulingDecision) : Prop :=
  d.preferredTier = TierClass.kRam ∧ d.reason = DecisionReason.kVramCapacityExceededRamFallback ∨
    d.preferredTier = TierClass.kNvme ∧ d.reason = DecisionReason.kRamThresholdExceededSsdSpill

instance (d : SchedulingDecision) : Decidable (FallsBack d) := inferInstanceAs (Decidable (_ ∨ _))

/-- The account whose pressure an allocation is decided by, with its threshold. -/
def tested (policy : SchedulingPolicy) (accessCount : UInt32) (priority : EventPriority) :
    Account × ℚ :=
  if accessCount ≥ policy.vramHotAccessCountThreshold ∨ priority = EventPriority.kCritical then
    (.vram, policy.vramPressureThreshold)
  else (.ram, policy.ramPressureThreshold)

def Pressed (g : Gauge) (threshold : ℚ) (sizeBytes : UInt64) : Prop :=
  underPressure g.current g.peak sizeBytes threshold

theorem fallsBack_iff (stats : StatisticsCollector) (policy : SchedulingPolicy) (id : ObjectId)
    (size : UInt64) (accessCount : UInt32) (priority : EventPriority) (now : UInt64) :
    FallsBack (scheduleAllocation stats policy id size accessCount priority now) ↔
      Pressed ((tested policy accessCount priority).1.gauge stats)
        (tested policy accessCount priority).2 size := by
  by_cases hhot : accessCount ≥ policy.vramHotAccessCountThreshold ∨
      priority = EventPriority.kCritical
  · simp only [scheduleAllocation, tested, if_pos hhot]
    split_ifs with hpressed
    · exact iff_of_true (.inl ⟨rfl, rfl⟩) hpressed
    · refine iff_of_false ?_ hpressed
      rintro (⟨htier, -⟩ | ⟨htier, -⟩)
      · exact absurd htier (show TierClass.kVram ≠ TierClass.kRam by decide)
      · exact absurd htier (show TierClass.kVram ≠ TierClass.kNvme by decide)
  · simp only [scheduleAllocation, tested, if_neg hhot]
    split_ifs with hpressed
    · exact iff_of_true (.inr ⟨rfl, rfl⟩) hpressed
    · refine iff_of_false ?_ hpressed
      rintro (⟨-, hreason⟩ | ⟨htier, -⟩)
      · exact absurd hreason (show DecisionReason.kDefaultPlacement ≠ _ by decide)
      · exact absurd htier (show TierClass.kRam ≠ TierClass.kNvme by decide)

section Pressure

variable {g : Gauge} {threshold : ℚ}

theorem pressed_iff {size : UInt64} :
    Pressed g threshold size ↔
      0 < g.peak.toNat ∧ threshold * g.peak.toNat < (g.current + size).toNat := by
  rw [Pressed, underPressure, decide_eq_true_iff, gt_iff_lt, UInt64.lt_iff_toNat_lt]
  refine and_congr_right fun hpeak => ?_
  exact lt_div_iff₀ (Nat.cast_pos.mpr hpeak)

/-- Where the sum does not leave 64 bits, a larger allocation finds the pressure too. -/
theorem Pressed.mono {s₁ s₂ : UInt64} (h : Pressed g threshold s₁) (hle : s₁ ≤ s₂)
    (hfits : g.current.toNat + s₂.toNat < 2 ^ 64) : Pressed g threshold s₂ := by
  obtain ⟨hpeak, hlt⟩ := pressed_iff.mp h
  refine pressed_iff.mpr ⟨hpeak, hlt.trans_le (Nat.cast_le.mpr ?_)⟩
  have hle' := UInt64.le_iff_toNat_le.mp hle
  rw [UInt64.toNat_add, UInt64.toNat_add, Nat.mod_eq_of_lt hfits,
    Nat.mod_eq_of_lt ((Nat.add_le_add_left hle' _).trans_lt hfits)]
  exact Nat.add_le_add_left hle' _

/-- The largest size that fits above a counter is followed by one that takes it to zero. -/
theorem exists_wrapping_size {current : UInt64} (hne : current ≠ 0) :
    ∃ s₁ s₂, s₁ ≤ s₂ ∧ (current + s₁).toNat = 2 ^ 64 - 1 ∧ (current + s₂).toNat = 0 := by
  have hlt := current.toNat_lt
  have hpos : current.toNat ≠ 0 := fun h => hne (UInt64.toNat_inj.mp h)
  refine ⟨.ofNat (2 ^ 64 - 1 - current.toNat), .ofNat (2 ^ 64 - current.toNat), ?_, ?_, ?_⟩
  · rw [UInt64.le_iff_toNat_le, UInt64.toNat_ofNat', UInt64.toNat_ofNat']
    omega
  · rw [UInt64.toNat_add, UInt64.toNat_ofNat']
    omega
  · rw [UInt64.toNat_add, UInt64.toNat_ofNat']
    omega

theorem pressed_monotone_iff (hpos : 0 < threshold) (hle : g.current.toNat ≤ g.peak.toNat) :
    (∀ s₁ s₂, s₁ ≤ s₂ → Pressed g threshold s₁ → Pressed g threshold s₂) ↔
      g.current = 0 ∨ 2 ^ 64 - 1 ≤ threshold * g.peak.toNat := by
  constructor
  · intro h
    by_contra hcon
    obtain ⟨hcurrent, hlt⟩ := not_or.mp hcon
    obtain ⟨s₁, s₂, hs, hfull, hwrapped⟩ := exists_wrapping_size hcurrent
    have hpeak : 0 < g.peak.toNat :=
      (Nat.pos_of_ne_zero fun h => hcurrent (UInt64.toNat_inj.mp h)).trans_le hle
    have hpressed : Pressed g threshold s₁ := by
      refine pressed_iff.mpr ⟨hpeak, ?_⟩
      rw [hfull]
      exact (not_le.mp hlt).trans_eq (by norm_num)
    have hneg := (pressed_iff.mp (h s₁ s₂ hs hpressed)).2
    rw [hwrapped, Nat.cast_zero] at hneg
    exact absurd hneg (not_lt.mpr (mul_nonneg hpos.le (Nat.cast_nonneg _)))
  · rintro (hzero | hlarge) s₁ s₂ hs h
    · refine h.mono hs ?_
      rw [hzero]
      simpa using s₂.toNat_lt
    · have hlt := (pressed_iff.mp h).2
      have hmax : ((g.current + s₁).toNat : ℚ) ≤ 2 ^ 64 - 1 := by
        have hlt' := Nat.le_sub_one_of_lt (g.current + s₁).toNat_lt
        exact (Nat.cast_le.mpr hlt').trans_eq (by norm_num)
      exact absurd (hlarge.trans_lt hlt) (not_lt.mpr hmax)

end Pressure

theorem current_le_peak (a : Account) (calls : List Call) :
    (a.gauge (calls.foldl call {})).current.toNat ≤
      (a.gauge (calls.foldl call {})).peak.toNat := by
  rw [foldl_call]
  exact (Folds.isGreatest_peak (by cases a <;> rfl) (peak_update a) _).2 ⟨_, List.prefix_rfl, rfl⟩

/-- The decisions are monotone in the size exactly if the tier that is tested is empty, or its
peak so high that no sum of 64 bits is above the threshold. They are in any case as long as the
sum does not leave 64 bits. -/
theorem schedule_monotone_iff (calls : List Call) (policy : SchedulingPolicy)
    (hram : 0 < policy.ramPressureThreshold) (hvram : 0 < policy.vramPressureThreshold)
    (accessCount : UInt32) (priority : EventPriority) :
    let stats := calls.foldl call {}
    let schedule id size now :=
      scheduleAllocation stats policy id size accessCount priority now
    let (account, threshold) := tested policy accessCount priority
    ((∀ id₁ id₂ now₁ now₂ s₁ s₂, s₁ ≤ s₂ → FallsBack (schedule id₁ s₁ now₁) →
        FallsBack (schedule id₂ s₂ now₂)) ↔
      (account.gauge stats).current = 0 ∨
        2 ^ 64 - 1 ≤ threshold * (account.gauge stats).peak.toNat) ∧
    ∀ id₁ id₂ now₁ now₂ s₁ s₂, s₁ ≤ s₂ →
      (account.gauge stats).current.toNat + s₂.toNat < 2 ^ 64 →
        FallsBack (schedule id₁ s₁ now₁) → FallsBack (schedule id₂ s₂ now₂) := by
  intro stats schedule
  have hpos : 0 < (tested policy accessCount priority).2 := by
    unfold tested
    split_ifs
    · exact hvram
    · exact hram
  have hiff := pressed_monotone_iff hpos
    (current_le_peak (tested policy accessCount priority).1 calls)
  simp only [schedule, fallsBack_iff]
  refine ⟨?_, fun _ _ _ _ _ _ hle hfits h => h.mono hle hfits⟩
  rw [← hiff]
  exact ⟨fun h s₁ s₂ => h 0 0 0 0 s₁ s₂, fun h _ _ _ _ s₁ s₂ => h s₁ s₂⟩

/-- RAM that is free again after a peak of 100 bytes: 85 bytes are not spilled, 86 are, and so
is every larger allocation. -/
theorem schedule_monotone_freed :
    let stats := [Call.recordAllocation TierClass.kRam 100 0,
      .recordFree TierClass.kRam 100 0 0].foldl call {}
    ¬ FallsBack (scheduleAllocation stats {} 1 85 0 EventPriority.kNormal 0) ∧
      FallsBack (scheduleAllocation stats {} 1 86 0 EventPriority.kNormal 0) ∧
      ∀ id now size, 86 ≤ size →
        FallsBack (scheduleAllocation stats {} id size 0 EventPriority.kNormal now) := by
  intro stats
  have hfalls : FallsBack (scheduleAllocation stats {} 1 86 0 EventPriority.kNormal 0) := by
    decide +kernel
  have hmono := (schedule_monotone_iff [Call.recordAllocation TierClass.kRam 100 0,
    .recordFree TierClass.kRam 100 0 0] {} (by norm_num) (by norm_num) 0
    EventPriority.kNormal).1.mpr (.inl rfl)
  exact ⟨by decide +kernel, hfalls, fun id now size hle => hmono 1 id 0 now 86 size hle hfalls⟩

/-- With 100 bytes of RAM in use, 100 more are spilled, and 2⁶⁴ - 100 are not. -/
theorem schedule_not_monotone_wrapped :
    let stats := ({} : StatisticsCollector).call (.recordAllocation TierClass.kRam 100 0)
    FallsBack (scheduleAllocation stats {} 1 100 0 EventPriority.kNormal 0) ∧
      ¬ FallsBack (scheduleAllocation stats {} 1 (0 - 100) 0 EventPriority.kNormal 0) ∧
        (100 : UInt64) ≤ 0 - 100 := by
  decide +kernel

end MemoryScheduler

end Ume
