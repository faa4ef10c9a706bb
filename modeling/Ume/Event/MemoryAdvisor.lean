import Mathlib.Data.List.ReduceOption
import Ume.Event.PredictionEngine
import Ume.Event.StatisticsBalance
import Ume.Lib.Rounding

/-! The advisor: the rule that compares the bytes in use with their peaks, and the report
with its score. Both are computed in doubles, and exactly: the score is 100 less the points
of the recommendations, and the comparison of the ratio is that of the byte counts. -/

namespace Ume

inductive AdvisorSeverity where
  | kInfo | kWarning | kHigh | kCritical
  deriving DecidableEq

structure Recommendation where
  category : String := ""
  severity : AdvisorSeverity := .kInfo
  description : String := ""
  rootCause : String := ""
  suggestedAction : String := ""
  estimatedBenefitUs : UInt64 := 0
  confidenceScore : Binary64 := Binary64.ofDecimal 5 1
  timestamp : UInt64 := 0
  deriving DecidableEq

/-- A rule in the state it has at a call, with the clock as it reads it. -/
abbrev IAdvisorRule :=
  (Nat → UInt64) → StatisticsCollector → PredictionEngine → List Recommendation

namespace HealthAdvisorRule

def underPressure (currentBytes peakBytes : UInt64) (limit : Binary64) : Bool :=
  peakBytes > 0 && currentBytes > 1024 * 1024 &&
    Binary64.lt limit
      (Binary64.div (Binary64.ofNat currentBytes.toNat) (Binary64.ofNat peakBytes.toNat))

def vramRecommendation (now : UInt64) : Recommendation where
  category := "Memory Health"
  severity := .kCritical
  description := "VRAM pressure exceeds critical limit."
  rootCause := "Current active video memory demands exceed 90% of observed peaks."
  suggestedAction := "Demote cold objects to RAM or enable SSD spilling fallbacks."
  estimatedBenefitUs := 2500
  confidenceScore := Binary64.ofDecimal 95 2
  timestamp := now

def ramRecommendation (now : UInt64) : Recommendation where
  category := "Memory Health"
  severity := .kWarning
  description := "System DRAM utilization is high."
  rootCause := "Active host allocation demands exceed 85% of peak RAM."
  suggestedAction := "Evict cold allocations to NVMe SSD storage."
  estimatedBenefitUs := 1000
  confidenceScore := Binary64.ofDecimal 85 2
  timestamp := now

/-- The clock is read once for each recommendation. -/
def analyze : IAdvisorRule := fun clock stats _ =>
  let snap := stats.snapshot
  let recs :=
    if underPressure snap.currentVramBytes snap.peakVramBytes (Binary64.ofDecimal 9 1) then
      [vramRecommendation (clock 0)]
    else []
  if underPressure snap.currentRamBytes snap.peakRamBytes (Binary64.ofDecimal 85 2) then
    recs ++ [ramRecommendation (clock recs.length)]
  else recs

end HealthAdvisorRule

structure AdvisorReport where
  recommendations : List Recommendation := []
  healthScore : Binary64 := Binary64.ofNat 100
  timestamp : UInt64 := 0

structure AdvisorMetrics where
  reportsGenerated : UInt64 := 0
  totalAnalysisTimeNs : UInt64 := 0
  deriving DecidableEq

structure MemoryAdvisor where
  rules : List IAdvisorRule := [HealthAdvisorRule.analyze]
  metrics : AdvisorMetrics := {}

namespace MemoryAdvisor

def registerRule (a : MemoryAdvisor) : Option IAdvisorRule → MemoryAdvisor
  | none => a
  | some rule => { a with rules := a.rules ++ [rule] }

/-- The points that a severity costs. -/
def deduction : AdvisorSeverity → Nat
  | .kCritical => 25
  | .kHigh => 15
  | .kWarning => 5
  | .kInfo => 0

/-- The `switch` leaves the sum alone where there is nothing to deduct. -/
def deduct (cumulative : Binary64) (severity : AdvisorSeverity) : Binary64 :=
  match severity with
  | .kInfo => cumulative
  | severity => Binary64.add cumulative (Binary64.ofNat (deduction severity))

/-- The body of the loop over the recommendations of a rule. -/
def take (acc : List Recommendation × Binary64) (rec : Recommendation) :
    List Recommendation × Binary64 :=
  (acc.1 ++ [rec], deduct acc.2 rec.severity)

/-- The loop over the rules, each with its own readings of the clock. -/
def analyzeAll (stats : StatisticsCollector) (predictor : PredictionEngine) :
    (Nat → Nat → UInt64) → List IAdvisorRule → List Recommendation × Binary64 →
      List Recommendation × Binary64
  | _, [], acc => acc
  | clock, rule :: rules, acc =>
    analyzeAll stats predictor (fun i => clock (i + 1)) rules
      ((rule (clock 0) stats predictor).foldl take acc)

def generateReport (a : MemoryAdvisor) (stats : StatisticsCollector)
    (predictor : PredictionEngine) (startTime endTime : UInt64) (clock : Nat → Nat → UInt64) :
    AdvisorReport × MemoryAdvisor :=
  let (recs, cumulative) := analyzeAll stats predictor clock a.rules ([], Binary64.ofNat 0)
  ({ recommendations := recs
     healthScore := Binary64.max (Binary64.ofNat 0)
      (Binary64.sub (Binary64.ofNat 100) cumulative)
     timestamp := startTime },
    { a with
      metrics :=
        { reportsGenerated := a.metrics.reportsGenerated + 1
          totalAnalysisTimeNs := a.metrics.totalAnalysisTimeNs + (endTime - startTime) } })

section Score

open Binary64

/-- So many points: the double is that number, or past what the score can lose. -/
def Deducted (n : Nat) (x : Binary64) : Prop :=
  n < 2 ^ 53 ∧ Within (n * one) (n * one) x ∨ 100 ≤ n ∧ AtLeast (100 * one) x

def points (recs : List Recommendation) : Nat := (recs.map fun r => deduction r.severity).sum

theorem Deducted.deduct {n : Nat} {x : Binary64} (h : Deducted n x) (s : AdvisorSeverity) :
    Deducted (n + deduction s) (deduct x s) := by
  have hrep : Representable (100 * one) := representable_mul_one (by decide)
  have hadd (k : Nat) (hk : k < 2 ^ 53) : Deducted (n + k) (add x (ofNat k)) := by
    rcases h with ⟨hn, hx⟩ | ⟨hn, hx⟩
    · have hsum : (n + k) * one = n * one + k * one := Nat.add_mul _ _ _
      by_cases hlt : n + k < 2 ^ 53
      · have hr := representable_mul_one hlt
        exact .inl ⟨hlt, hx.add (within_ofNat hk) hr hr hsum.le hsum.ge⟩
      · have hle : 100 * one ≤ (n + k) * one := Nat.mul_le_mul_right _ (by omega)
        exact .inr ⟨by omega, hx.atLeast_add (within_ofNat hk) hrep (hsum ▸ hle)⟩
    · exact .inr ⟨by omega, hx.add (within_ofNat hk) hrep⟩
  cases s with
  | kInfo => exact h
  | kWarning => exact hadd 5 (by decide)
  | kHigh => exact hadd 15 (by decide)
  | kCritical => exact hadd 25 (by decide)

theorem Deducted.score {n : Nat} {x : Binary64} (h : Deducted n x) :
    Binary64.max (ofNat 0) (sub (ofNat 100) x) = ofNat (100 - n) := by
  have h100 : Within (100 * one) (100 * one) (ofNat 100) := within_ofNat (by decide)
  rcases h with ⟨hn, hx⟩ | ⟨hn, hx⟩
  · have hr : Representable ((100 - n) * one) := representable_mul_one (by omega)
    have hsub : (100 - n) * one = 100 * one - n * one := Nat.sub_mul _ _ _
    exact (h100.max_zero_sub hx hr hr hsub.le hsub.ge).eq (within_ofNat (by omega))
  · rw [h100.max_zero_sub_atLeast hx, Nat.sub_eq_zero_of_le hn]

theorem deducted_zero : Deducted 0 (ofNat 0) := by
  refine .inl ⟨by decide, ?_⟩
  rw [Nat.zero_mul]
  exact within_ofNat_zero

theorem foldl_take (recs l : List Recommendation) {n : Nat} {x : Binary64} (h : Deducted n x) :
    ∃ y, recs.foldl take (l, x) = (l ++ recs, y) ∧ Deducted (n + points recs) y := by
  induction recs generalizing l n x with
  | nil => exact ⟨x, by simp, by simpa [points] using h⟩
  | cons r recs ih =>
    obtain ⟨y, hlist, hsum⟩ := ih (l ++ [r]) (h.deduct r.severity)
    refine ⟨y, ?_, ?_⟩
    · simpa [take] using hlist
    · simpa [points, Nat.add_assoc] using hsum

theorem analyzeAll_spec (stats : StatisticsCollector) (predictor : PredictionEngine)
    (clock : Nat → Nat → UInt64) (rules : List IAdvisorRule) (k : Nat) (l : List Recommendation)
    {n : Nat} {x : Binary64} (h : Deducted n x) :
    let recs := (rules.zipIdx k).flatMap fun r => r.1 (clock r.2) stats predictor
    ∃ y, analyzeAll stats predictor (fun i => clock (i + k)) rules (l, x) = (l ++ recs, y) ∧
      Deducted (n + points recs) y := by
  induction rules generalizing k l n x with
  | nil => exact ⟨x, by simp [analyzeAll], by simpa [points] using h⟩
  | cons rule rules ih =>
    obtain ⟨y, hfold, hy⟩ := foldl_take (rule (clock k) stats predictor) l h
    obtain ⟨z, hrest, hz⟩ := ih (k + 1) (l ++ rule (clock k) stats predictor) hy
    have hclock : (fun i => clock (i + (k + 1))) = fun i => clock (i + 1 + k) := by
      funext i
      rw [Nat.add_right_comm, Nat.add_assoc]
    refine ⟨z, ?_, ?_⟩
    · simpa [analyzeAll, hfold, hclock] using hrest
    · simpa [points, Nat.add_assoc] using hz

theorem generateReport_spec (a : MemoryAdvisor) (stats : StatisticsCollector)
    (predictor : PredictionEngine) (startTime endTime : UInt64) (clock : Nat → Nat → UInt64) :
    let report := (a.generateReport stats predictor startTime endTime clock).1
    report.recommendations =
        (a.rules.zipIdx.flatMap fun r => r.1 (clock r.2) stats predictor) ∧
      report.healthScore = ofNat (100 - points report.recommendations) := by
  obtain ⟨y, hrun, hy⟩ := analyzeAll_spec stats predictor clock a.rules 0 [] deducted_zero
  rw [Nat.zero_add] at hy
  simp only [Nat.add_zero, List.nil_append] at hrun
  simp only [generateReport, hrun]
  exact ⟨trivial, hy.score⟩

theorem points_eq (recs : List Recommendation) :
    points recs = 25 * recs.countP (·.severity = .kCritical) +
      15 * recs.countP (·.severity = .kHigh) + 5 * recs.countP (·.severity = .kWarning) := by
  induction recs with
  | nil => rfl
  | cons r recs ih =>
    have hcons : points (r :: recs) = deduction r.severity + points recs := rfl
    rw [hcons, ih]
    cases hs : r.severity <;> simp [hs, deduction] <;> omega

theorem rules_registered (registrations : List (Option IAdvisorRule)) (a : MemoryAdvisor) :
    (registrations.foldl registerRule a).rules = a.rules ++ registrations.reduceOption := by
  induction registrations generalizing a with
  | nil => simp
  | cons rule registrations ih =>
    cases rule with
    | none => simpa [registerRule] using ih a
    | some rule => simpa [registerRule] using ih { a with rules := a.rules ++ [rule] }

/-- Whatever rules are registered, a report lists what they recommend in the order of their
registration, the built-in rule first, and its score is 100 less the points of the
recommendations, or zero. -/
theorem report_score_exact (registrations : List (Option IAdvisorRule))
    (stats : StatisticsCollector) (predictor : PredictionEngine) (startTime endTime : UInt64)
    (clock : Nat → Nat → UInt64) :
    let report := ((registrations.foldl registerRule {}).generateReport stats predictor startTime
      endTime clock).1
    let count (severity : AdvisorSeverity) :=
      report.recommendations.countP (·.severity = severity)
    report.recommendations =
        ((HealthAdvisorRule.analyze :: registrations.reduceOption).zipIdx.flatMap fun r =>
          r.1 (clock r.2) stats predictor) ∧
      report.healthScore =
        ofNat (100 - (25 * count .kCritical + 15 * count .kHigh + 5 * count .kWarning)) := by
  intro report count
  obtain ⟨hrecs, hscore⟩ := generateReport_spec (registrations.foldl registerRule {}) stats
    predictor startTime endTime clock
  rw [rules_registered] at hrecs
  rw [points_eq] at hscore
  exact ⟨hrecs, hscore⟩

end Score

section Pressure

open Binary64 HealthAdvisorRule StatisticsCollector

/-- The ratio of two byte counts exceeds a decimal fraction in doubles exactly if it does,
where all ratios above the fraction are past the double after it. -/
theorem lt_ofDecimal_div_iff {n digits next current peak : Nat} (hcurrent : current < 2 ^ 53)
    (hpeak : peak < 2 ^ 53) (hpos : 0 < peak) (hnext : Representable next)
    (hlimit : round (n * one) (10 ^ digits) < next)
    (hgap : n * peak < 10 ^ digits * current → next * peak ≤ current * one) :
    Binary64.lt (ofDecimal n digits) (div (ofNat current) (ofNat peak)) = true ↔
      n * peak < 10 ^ digits * current := by
  have hten : 0 < 10 ^ digits := Nat.pow_pos (by decide)
  have hunits : 0 < peak * one := Nat.mul_pos hpos Binary64.one_pos
  obtain ⟨hu, hcur⟩ := (within_ofNat hcurrent).exists_eq
  obtain ⟨hv, hpk⟩ := (within_ofNat hpeak).exists_eq
  have hdiv : div (ofNat current) (ofNat peak) =
      ofRatio false (current * one * one) (peak * one) := by
    rw [hcur, hpk, div, if_neg hunits.ne', Bool.xor_self]
  rw [hdiv, ofDecimal]
  constructor
  · intro hlt
    by_contra hle
    rw [not_lt_ofRatio hten hunits] at hlt
    · exact Bool.false_ne_true hlt
    · calc current * one * one * 10 ^ digits = 10 ^ digits * current * (one * one) := by ring
        _ ≤ n * peak * (one * one) := Nat.mul_le_mul_right _ (not_lt.mp hle)
        _ = n * one * (peak * one) := by ring
  · intro hlt
    have hle : next ≤ round (current * one * one) (peak * one) := by
      refine le_round_of_le hunits hnext ?_
      calc next * (peak * one) = next * peak * one := by ring
        _ ≤ current * one * one := Nat.mul_le_mul_right _ (hgap hlt)
    rw [ofRatio, ofRatio, dif_pos (hlimit.le.trans hnext.2)]
    split_ifs
    · simpa [Binary64.lt, signed] using hlimit.trans_le hle
    · rfl

theorem one_eq : one = 2 ^ 53 * 2 ^ 1021 := by decide +kernel

theorem underPressure_iff {current peak : UInt64} {n digits next : Nat} (hle : current ≤ peak)
    (hpeak : peak.toNat < 2 ^ 48) (hnext : next < 2 ^ 53)
    (hlimit : round (n * one) (10 ^ digits) < next * 2 ^ 1021)
    (hgap : n * peak.toNat < 10 ^ digits * current.toNat →
      next * peak.toNat ≤ current.toNat * 2 ^ 53) :
    underPressure current peak (ofDecimal n digits) = true ↔
      1024 * 1024 < current.toNat ∧ n * peak.toNat < 10 ^ digits * current.toNat := by
  have hle' := UInt64.le_iff_toNat_le.mp hle
  have hrep : Representable (next * 2 ^ 1021) :=
    ⟨⟨next, 1021, hnext, rfl⟩, (Nat.mul_le_mul_right _ hnext.le).trans (by decide +kernel)⟩
  have hgap' : n * peak.toNat < 10 ^ digits * current.toNat →
      next * 2 ^ 1021 * peak.toNat ≤ current.toNat * one := by
    intro h
    calc next * 2 ^ 1021 * peak.toNat = next * peak.toNat * 2 ^ 1021 := Nat.mul_right_comm _ _ _
      _ ≤ current.toNat * 2 ^ 53 * 2 ^ 1021 := Nat.mul_le_mul_right _ (hgap h)
      _ = current.toNat * one := by rw [one_eq, Nat.mul_assoc]
  have hsize : current > 1024 * 1024 ↔ 1024 * 1024 < current.toNat := UInt64.lt_iff_toNat_lt
  simp only [underPressure, Bool.and_eq_true, decide_eq_true_eq, hsize, and_assoc]
  constructor
  · rintro ⟨hpos, hbig, hlt⟩
    have hpos' : 0 < peak.toNat := by omega
    exact ⟨hbig, (lt_ofDecimal_div_iff (by omega) (by omega) hpos' hrep hlimit hgap').mp hlt⟩
  · rintro ⟨hbig, hlt⟩
    have hpos' : 0 < peak.toNat := by omega
    exact ⟨UInt64.lt_iff_toNat_lt.mpr hpos', hbig,
      (lt_ofDecimal_div_iff (by omega) (by omega) hpos' hrep hlimit hgap').mpr hlt⟩

theorem gauge_bounds (a : Account) {us : List Update}
    (hlt : Ledger.total .credit (fun _ => True) (us.map Update.entry) < 2 ^ 64) :
    let g := a.gauge (us.foldl update {})
    g.current ≤ g.peak ∧
      g.peak.toNat ≤ Ledger.total .credit (fun _ => True) (us.map Update.entry) := by
  induction us using List.reverseRecOn with
  | nil => cases a <;> exact ⟨UInt64.le_refl _, Nat.zero_le _⟩
  | append_singleton us u ih =>
    rw [List.map_append, List.map_singleton, Ledger.total_snoc] at hlt ⊢
    rw [List.foldl_append, List.foldl_cons, List.foldl_nil]
    obtain ⟨hcur, hpeak⟩ := ih (by omega)
    have hcur' := UInt64.le_iff_toNat_le.mp hcur
    have hstep := peak_update a (us.foldl update {}) u hcur'
    have hnew : (a.gauge ((us.foldl update {}).update u)).current.toNat ≤
        (a.gauge (us.foldl update {})).current.toNat +
          u.entry.counted .credit (fun _ => True) := by
      cases u with
      | allocation t n p =>
        rw [update, gauge_recordAllocation]
        split_ifs
        · simp only [Gauge.raise, UInt64.toNat_add, Update.entry, Ledger.Entry.counted, and_self,
            if_true]
          exact Nat.mod_le _ _
        · exact Nat.le_add_right _ _
      | free t n l p =>
        rw [update, gauge_recordFree]
        split_ifs
        · exact (UInt64.le_iff_toNat_le.mp (saturatingSub_le _ _)).trans (Nat.le_add_right _ _)
        · exact Nat.le_add_right _ _
    exact ⟨UInt64.le_iff_toNat_le.mpr (by omega), by omega⟩

theorem severities_analyze (clock : Nat → UInt64) (stats : StatisticsCollector)
    (predictor : PredictionEngine) :
    (analyze clock stats predictor).map (·.severity) =
      (if underPressure stats.currentVramBytes stats.peakVramBytes (ofDecimal 9 1) then
        [.kCritical] else []) ++
      (if underPressure stats.currentRamBytes stats.peakRamBytes (ofDecimal 85 2) then
        [.kWarning] else []) := by
  by_cases hv : underPressure stats.currentVramBytes stats.peakVramBytes (ofDecimal 9 1) = true
  all_goals
    by_cases hr : underPressure stats.currentRamBytes stats.peakRamBytes (ofDecimal 85 2) = true
  all_goals simp [analyze, snapshot, hv, hr, vramRecommendation, ramRecommendation]

/-- As long as fewer than 256 TiB have been allocated, the built-in rule reports VRAM
pressure exactly above 90 percent of the peak and RAM pressure exactly above 85 percent, and
the score follows. -/
theorem default_report_exact {calls : List Call}
    (hlt : Ledger.total .credit (fun _ => True)
      ((calls.flatMap Call.updates).map Update.entry) < 2 ^ 48)
    (predictor : PredictionEngine) (startTime endTime : UInt64) (clock : Nat → Nat → UInt64) :
    let c := calls.foldl call {}
    let report := (({} : MemoryAdvisor).generateReport c predictor startTime endTime clock).1
    let vram := 1024 * 1024 < c.currentVramBytes.toNat ∧
      9 * c.peakVramBytes.toNat < 10 * c.currentVramBytes.toNat
    let ram := 1024 * 1024 < c.currentRamBytes.toNat ∧
      85 * c.peakRamBytes.toNat < 100 * c.currentRamBytes.toNat
    report.recommendations.map (·.severity) =
        (if vram then [.kCritical] else []) ++ (if ram then [.kWarning] else []) ∧
      report.healthScore = ofNat (100 - (if vram then 25 else 0) - (if ram then 5 else 0)) := by
  intro c report vram ram
  have hupdates : c = (calls.flatMap Call.updates).foldl update {} := foldl_call calls {}
  have hlt' := hlt.trans (show 2 ^ 48 < 2 ^ 64 by decide)
  obtain ⟨hvle, hvpeak⟩ := gauge_bounds .vram hlt'
  obtain ⟨hrle, hrpeak⟩ := gauge_bounds .ram hlt'
  rw [← hupdates] at hvle hvpeak hrle hrpeak
  have hvlt : c.peakVramBytes.toNat < 2 ^ 48 := hvpeak.trans_lt hlt
  have hrlt : c.peakRamBytes.toNat < 2 ^ 48 := hrpeak.trans_lt hlt
  have hvram : underPressure c.currentVramBytes c.peakVramBytes (ofDecimal 9 1) = true ↔ vram :=
    @underPressure_iff _ _ 9 1 8106479329266894 hvle hvlt (by decide) (by decide +kernel)
      (by omega)
  have hram : underPressure c.currentRamBytes c.peakRamBytes (ofDecimal 85 2) = true ↔ ram :=
    @underPressure_iff _ _ 85 2 7656119366529844 hrle hrlt (by decide) (by decide +kernel)
      (by omega)
  obtain ⟨hrecs, hscore⟩ := generateReport_spec {} c predictor startTime endTime clock
  have hall : report.recommendations = analyze (clock 0) c predictor := by simpa using hrecs
  have hsev : report.recommendations.map (·.severity) =
      (if vram then [.kCritical] else []) ++ (if ram then [.kWarning] else []) := by
    rw [hall, severities_analyze]
    simp only [hvram, hram]
  have hpoints : points report.recommendations =
      ((report.recommendations.map (·.severity)).map deduction).sum := by
    rw [points, List.map_map]
    rfl
  refine ⟨hsev, ?_⟩
  rw [hscore, hpoints, hsev]
  split_ifs <;> rfl

/-- A first allocation is its own peak, and so a critical one. -/
def firstAllocation : List Call := [.recordAllocation TierClass.kVram (2 * 1024 * 1024) 1]

theorem default_report_exact_first :
    (({} : MemoryAdvisor).generateReport (firstAllocation.foldl call {}) {} 0 0
      fun _ _ => 0).1.healthScore = ofNat 75 := by
  have h := (@default_report_exact firstAllocation (by decide) {} 0 0 fun _ _ => 0).2
  rw [if_pos (by decide), if_neg (by decide)] at h
  exact h

end Pressure

end MemoryAdvisor

end Ume
