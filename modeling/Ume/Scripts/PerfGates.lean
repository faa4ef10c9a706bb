import Mathlib.Algebra.Order.Field.Rat
import Mathlib.Tactic.Linarith

/-! The performance gates of the continuous integration. A tolerance given on the command
line replaces those of the configuration, unless it is zero: zero is false in Python. -/

namespace Ume

namespace PerfGates

structure Gate where
  id : String
  name : String
  metric : String
  direction : String
  threshold : ℚ
  unit : Option String := none

/-- Keys that the configuration does not have are `none`. -/
structure GatesConfig where
  toleranceLatency : Option ℚ := none
  toleranceThroughput : Option ℚ := none
  gates : Option (List Gate) := none

structure GateFailure where
  id : String
  name : String
  metric : String
  threshold : ℚ
  measured : ℚ
  limit : ℚ
  direction : String
  unit : String
  tolerance : ℚ

/-- Metrics that are missing, or null, have no value. -/
abbrev Results := String → Option ℚ

/-- The `or` of Python, with a number on its left. -/
def orElse (override : Option ℚ) (default : ℚ) : ℚ :=
  match override with
  | none => default
  | some t => if t = 0 then default else t

def checkGate (results : Results) (toleranceLatency toleranceThroughput : ℚ) (gate : Gate) :
    Option GateFailure :=
  match results gate.metric with
  | none => none
  | some measured =>
    let tolerance := if gate.direction = "max" then toleranceThroughput else toleranceLatency
    let limit :=
      if gate.direction = "max" then gate.threshold * (1 - tolerance)
      else gate.threshold * (1 + tolerance)
    let passed : Bool := if gate.direction = "max" then limit ≤ measured else measured ≤ limit
    if passed then none
    else
      some
        { id := gate.id
          name := gate.name
          metric := gate.metric
          threshold := gate.threshold
          measured := measured
          limit := limit
          direction := gate.direction
          unit := gate.unit.getD ""
          tolerance := tolerance }

def checkGates (results : Results) (config : GatesConfig) (override : Option ℚ) :
    List GateFailure :=
  let toleranceLatency := orElse override (config.toleranceLatency.getD (10 / 100))
  let toleranceThroughput := orElse override (config.toleranceThroughput.getD (15 / 100))
  (config.gates.getD []).filterMap (checkGate results toleranceLatency toleranceThroughput)

def limit (t : ℚ) (gate : Gate) : ℚ :=
  if gate.direction = "max" then gate.threshold * (1 - t) else gate.threshold * (1 + t)

/-- A gate fails if its metric has been measured on the wrong side of the limit. -/
def Fails (results : Results) (t : ℚ) (gate : Gate) : Prop :=
  ∃ measured ∈ results gate.metric,
    if gate.direction = "max" then measured < limit t gate else limit t gate < measured

def report (results : Results) (t : ℚ) (gate : Gate) : GateFailure where
  id := gate.id
  name := gate.name
  metric := gate.metric
  threshold := gate.threshold
  measured := (results gate.metric).getD 0
  limit := limit t gate
  direction := gate.direction
  unit := gate.unit.getD ""
  tolerance := t

instance (results : Results) (t : ℚ) (gate : Gate) : Decidable (Fails results t gate) :=
  Option.decidableExistsMem (results gate.metric)

def toleranceOf (config : GatesConfig) (override : Option ℚ) (gate : Gate) : ℚ :=
  if gate.direction = "max" then orElse override (config.toleranceThroughput.getD (15 / 100))
  else orElse override (config.toleranceLatency.getD (10 / 100))

/-- An override is applied unless it is zero, which leaves the tolerances of the configuration. -/
def Applies (config : GatesConfig) (t : ℚ) : Prop :=
  t ≠ 0 ∨ config.toleranceLatency = some 0 ∧ config.toleranceThroughput = some 0

section Check

variable {results : Results} {config : GatesConfig} {override : Option ℚ} {t t' : ℚ} {gate : Gate}

theorem checkGate_eq (latency throughput : ℚ) (gate : Gate) :
    checkGate results latency throughput gate =
      let t := if gate.direction = "max" then throughput else latency
      if Fails results t gate then some (report results t gate) else none := by
  cases hmeasured : results gate.metric with
  | none => simp [checkGate, Fails, hmeasured]
  | some measured =>
    by_cases hmax : gate.direction = "max"
    · simp [checkGate, Fails, report, limit, hmeasured, hmax, ← not_lt, ite_not]
    · simp [checkGate, Fails, report, limit, hmeasured, hmax, ← not_lt, ite_not]

/-- The failures are those of the gates that fail under the tolerance applied to them, in the
order of the configuration. -/
theorem checkGates_eq :
    checkGates results config override =
      ((config.gates.getD []).filter fun gate =>
        Fails results (toleranceOf config override gate) gate).map fun gate =>
          report results (toleranceOf config override gate) gate := by
  rw [checkGates, ← List.filterMap_eq_map, List.filterMap_filter]
  refine congrArg (List.filterMap · _) (funext fun gate => ?_)
  by_cases hfails : Fails results (toleranceOf config override gate) gate
  · simp only [hfails, decide_true, if_true]
    rw [checkGate_eq]
    exact if_pos hfails
  · simp only [hfails, decide_false, Bool.false_eq_true, if_false]
    rw [checkGate_eq]
    exact if_neg hfails

theorem toleranceOf_of_applies (h : Applies config t) (gate : Gate) :
    toleranceOf config (some t) gate = t := by
  by_cases ht : t = 0
  · obtain ⟨hlatency, hthroughput⟩ := h.resolve_left (not_not.mpr ht)
    simp [toleranceOf, orElse, ht, hlatency, hthroughput]
  · simp [toleranceOf, orElse, ht]

theorem eq_some_zero_of_getD {tolerance : Option ℚ} {d : ℚ} (hd : d ≠ 0)
    (h : tolerance.getD d = 0) : tolerance = some 0 := by
  cases tolerance with
  | none => exact absurd h hd
  | some d' => exact congrArg some h

theorem mem_checkGates {f : GateFailure} :
    f ∈ checkGates results config override ↔ ∃ gate ∈ config.gates.getD [],
      Fails results (toleranceOf config override gate) gate ∧
        report results (toleranceOf config override gate) gate = f := by
  simp only [checkGates_eq, List.mem_map, List.mem_filter, decide_eq_true_eq, and_assoc]

/-- Where thresholds are not negative, a larger tolerance is easier to meet. -/
theorem Fails.mono (h : Fails results t' gate) (hle : t ≤ t') (hpos : 0 ≤ gate.threshold) :
    Fails results t gate := by
  obtain ⟨measured, hmeasured, hside⟩ := h
  refine ⟨measured, hmeasured, ?_⟩
  rw [limit] at hside ⊢
  split_ifs at hside ⊢
  · have := mul_le_mul_of_nonneg_left (sub_le_sub_left hle 1) hpos
    linarith
  · have := mul_le_mul_of_nonneg_left (add_le_add_right hle 1) hpos
    linarith

end Check

def probe (direction : String) : Gate where
  id := "G01"
  name := "probe"
  metric := "probe"
  direction := direction
  threshold := 1

theorem fails_probe_max (d : ℚ) : Fails (fun _ => some (-|d|)) d (probe "max") := by
  refine ⟨_, rfl, ?_⟩
  have := le_abs_self d
  simp only [limit, probe, if_true, one_mul]
  linarith

theorem fails_probe_min (d : ℚ) : Fails (fun _ => some (2 + |d|)) d (probe "min") := by
  refine ⟨_, rfl, ?_⟩
  have := le_abs_self d
  simp only [limit, probe, String.reduceEq, if_false, one_mul]
  linarith

/-- The gates that fail under the override are those reported, with its limits, exactly if the
override applies. Among those that do, a larger one leaves fewer failures. -/
theorem gates_apply_override_iff (config : GatesConfig) (t : ℚ) :
    ((∀ results gates, checkGates results { config with gates := some gates } (some t) =
        (gates.filter fun gate => Fails results t gate).map (report results t)) ↔
      Applies config t) ∧
    (Applies config t → ∀ t', t ≤ t' → Applies config t' →
      ∀ results gates, (∀ gate ∈ gates, 0 ≤ gate.threshold) →
        ∀ f' ∈ checkGates results { config with gates := some gates } (some t'),
          ∃ f ∈ checkGates results { config with gates := some gates } (some t),
            f' = { f with limit := f'.limit, tolerance := f'.tolerance }) := by
  have happlies {t gates} (h : Applies config t) (gate : Gate) :
      toleranceOf { config with gates := some gates } (some t) gate = t :=
    toleranceOf_of_applies h gate
  refine ⟨⟨fun h => ?_, fun h results gates => ?_⟩, ?_⟩
  · refine or_iff_not_imp_left.mpr fun hzero => ?_
    obtain rfl := not_not.mp hzero
    have hreported {results : Results} {gate : Gate}
        (hfails : Fails results (toleranceOf config (some 0) gate) gate) :
        toleranceOf config (some 0) gate = 0 := by
      have hmem : report results (toleranceOf config (some 0) gate) gate ∈
          checkGates results { config with gates := some [gate] } (some 0) :=
        mem_checkGates.mpr ⟨gate, List.mem_singleton_self _, hfails, rfl⟩
      rw [h] at hmem
      obtain ⟨gate', -, hreport⟩ := List.mem_map.mp hmem
      exact (congrArg GateFailure.tolerance hreport).symm
    have hlatency := hreported (fails_probe_min (toleranceOf config (some 0) (probe "min")))
    have hthroughput := hreported (fails_probe_max (toleranceOf config (some 0) (probe "max")))
    exact ⟨eq_some_zero_of_getD (by norm_num) hlatency,
      eq_some_zero_of_getD (by norm_num) hthroughput⟩
  · simp only [checkGates_eq, happlies h, Option.getD_some]
  · intro h t' hle h' results gates hpos f' hf'
    obtain ⟨gate, hgate, hfails, rfl⟩ := mem_checkGates.mp hf'
    rw [happlies h'] at hfails ⊢
    refine ⟨report results t gate, mem_checkGates.mpr ⟨gate, hgate, ?_⟩, rfl⟩
    rw [happlies h]
    exact ⟨hfails.mono hle (hpos gate hgate), rfl⟩

/-- A latency of 1.05 against a threshold of 1 fails without tolerance. It is reported under a
tolerance of one in a hundred, but not under none. -/
theorem zero_override_ignored :
    Fails (fun _ => some (105 / 100)) 0 (probe "min") ∧
      (checkGates (fun _ => some (105 / 100)) { gates := some [probe "min"] }
        (some (1 / 100))).length = 1 ∧
      checkGates (fun _ => some (105 / 100)) { gates := some [probe "min"] } (some 0) = [] := by
  refine ⟨by decide +kernel, by decide +kernel, ?_⟩
  rw [← List.isEmpty_iff]
  decide +kernel

end PerfGates

end Ume
