import Ume.Event.PredictionExpiry
import Ume.Lib.Runs

/-! The prediction engine with the default predictor over the learning engine it reads. The
patterns change while predictions are in the cache, so an answer can be older than the
patterns: by less than five seconds, and only if no access was observed in between. -/

namespace Ume

/-- The two engines, which different threads call. -/
structure Forecasts where
  learning : PatternLearningEngine := {}
  engine : PredictionEngine := {}

namespace Forecasts

/-- A call of `get_prediction` with the readings of the clock during it. -/
structure Request where
  objectId : ObjectId
  startTime : UInt64
  now : UInt64
  expectedNow : UInt64
  expirationNow : UInt64
  endTime : UInt64

inductive Action where
  | learn (action : PatternLearningEngine.Action)
  | getPrediction (r : Request)
  | registerAccessObservation (objectId : ObjectId) (actualTier : TierClass)
  | invalidateExpiredPredictions (now : UInt64) (order : List UInt64)
  | reset

def Request.predictor (r : Request) : IPredictor :=
  HybridPredictor.predict r.expectedNow r.expirationNow

def request (s : Forecasts) (r : Request) : Except Status Prediction × PredictionEngine :=
  s.engine.getPrediction r.predictor (some s.learning) r.objectId r.startTime r.now r.endTime

def step (s : Forecasts) : Action → Option Forecasts
  | .learn action => (s.learning.step action).map fun learning => { s with learning }
  | .getPrediction r => some { s with engine := (s.request r).2 }
  | .registerAccessObservation objectId actualTier =>
    some { s with engine := s.engine.registerAccessObservation objectId actualTier }
  | .invalidateExpiredPredictions now order =>
    if order.Perm s.engine.predictionCache.keys then
      some { s with engine := s.engine.invalidateExpiredPredictions now order }
    else none
  | .reset => some { s with engine := s.engine.reset }

/-- What takes a prediction away whether it has expired or not. -/
def Action.Withdraws (id : ObjectId) : Action → Prop
  | .registerAccessObservation objectId _ => objectId = id
  | .reset => True
  | _ => False

/-- The clock shows less than `time` where the action reads it to judge a prediction. -/
def Action.Before (time : UInt64) : Action → Prop
  | .getPrediction r => r.now < time
  | .invalidateExpiredPredictions now _ => now < time
  | _ => True

/-- The request `made` computed the prediction, and no later action has withdrawn it. -/
def MadeBy (actions : List Action) (id : ObjectId) (made : Request) (pred : Prediction) : Prop :=
  ∃ before after s, actions = before ++ .getPrediction made :: after ∧
    Runs.run step {} before = some s ∧ made.objectId = id ∧
    made.predictor id s.learning = .ok pred ∧ ∀ a ∈ after, ¬ a.Withdraws id

variable {s s' : Forecasts} {a : Action} {actions : List Action} {id : ObjectId} {pred : Prediction}
  {r : Request}

theorem MadeBy.concat {made : Request} (h : MadeBy actions id made pred) (ha : ¬ a.Withdraws id) :
    MadeBy (actions ++ [a]) id made pred := by
  obtain ⟨before, after, s, rfl, hrun, hid, hpred, hafter⟩ := h
  refine ⟨before, after ++ [a], s, by simp, hrun, hid, hpred, ?_⟩
  intro x hx
  rcases List.mem_append.mp hx with hx | hx
  · exact hafter x hx
  · rwa [List.mem_singleton.mp hx]

/-! ### Requests -/

/-- A miss, from a cache without the object, answers as the predictor does and keeps it. -/
theorem issuePrediction_spec (learning : PatternLearningEngine) (r : Request)
    {e : PredictionEngine} (hnone : e.predictionCache.lookup r.objectId = none) :
    let m := e.issuePrediction r.predictor (some learning) r.objectId r.startTime r.endTime
    m.1 = r.predictor r.objectId learning ∧
      ∀ id pred, m.2.predictionCache.lookup id = some pred ↔
        if id = r.objectId then r.predictor id learning = .ok pred
        else e.predictionCache.lookup id = some pred := by
  simp only [PredictionEngine.issuePrediction]
  cases hpred : r.predictor r.objectId learning with
  | error status =>
    refine ⟨rfl, fun id pred => ?_⟩
    split_ifs with hid
    · subst hid
      simp [hnone, hpred]
    · rfl
  | ok new =>
    refine ⟨rfl, fun id pred => ?_⟩
    split_ifs with hid
    · subst hid
      simp [hpred]
    · simp [AList.lookup_insert_ne hid]

/-- What the cache has for the object answers the request, or a new prediction does. -/
theorem request_cases (s : Forecasts) (r : Request) :
    (∃ pred, s.engine.predictionCache.lookup r.objectId = some pred ∧ r.now < pred.expiration ∧
        (s.request r).1 = .ok pred ∧
        (s.request r).2.predictionCache = s.engine.predictionCache) ∨
      (s.request r).1 = r.predictor r.objectId s.learning ∧
        ∀ id pred, (s.request r).2.predictionCache.lookup id = some pred ↔
          if id = r.objectId then r.predictor id s.learning = .ok pred
          else s.engine.predictionCache.lookup id = some pred := by
  simp only [request, PredictionEngine.getPrediction]
  cases hlookup : s.engine.predictionCache.lookup r.objectId with
  | none => exact .inr (issuePrediction_spec s.learning r hlookup)
  | some old =>
    by_cases hfresh : old.expiration > 0 ∧ r.now < old.expiration
    · left
      simp [hfresh]
    · right
      simp only [hfresh, if_false]
      let e := { s.engine with predictionCache := s.engine.predictionCache.erase r.objectId }
      have hgone : e.predictionCache.lookup r.objectId = none := AList.lookup_erase _ _
      obtain ⟨hanswer, hcache⟩ := issuePrediction_spec s.learning r hgone
      refine ⟨hanswer, fun id pred => (hcache id pred).trans ?_⟩
      split_ifs with hid
      · rfl
      · rw [AList.lookup_erase_ne hid]

theorem request_of_lookup (h : s.engine.predictionCache.lookup r.objectId = some pred)
    (hnow : r.now < pred.expiration) : (s.request r).1 = .ok pred := by
  have hpos : pred.expiration > 0 := by
    rw [gt_iff_lt, UInt64.lt_iff_toNat_lt]
    exact Nat.zero_lt_of_lt (UInt64.lt_iff_toNat_lt.mp hnow)
  simp only [request, PredictionEngine.getPrediction, h]
  rw [if_pos ⟨hpos, hnow⟩]

theorem lookup_of_served (h : (s.request r).1 = .ok pred) :
    (s.request r).2.predictionCache.lookup r.objectId = some pred := by
  rcases request_cases s r with ⟨old, hlookup, -, hanswer, hcache⟩ | ⟨hanswer, hcache⟩
  · rw [hcache, hlookup]
    exact congrArg some (Except.ok.inj (hanswer.symm.trans h))
  · exact (hcache _ _).mpr (by rw [if_pos rfl, ← hanswer, h])

/-! ### Where the predictions in the cache come from -/

/-- Every prediction in the cache was made by a request of the run. -/
def Recorded (actions : List Action) (s : Forecasts) : Prop :=
  Runs.run step {} actions = some s ∧ ∀ id pred,
    s.engine.predictionCache.lookup id = some pred → ∃ made, MadeBy actions id made pred

theorem Recorded.madeBy_step (h : Recorded actions s) (hstep : step s a = some s')
    (hlookup : s'.engine.predictionCache.lookup id = some pred) :
    ∃ made, MadeBy (actions ++ [a]) id made pred := by
  have hkept (hold : s.engine.predictionCache.lookup id = some pred) (ha : ¬ a.Withdraws id) :
      ∃ made, MadeBy (actions ++ [a]) id made pred := by
    obtain ⟨made, hmade⟩ := h.2 id pred hold
    exact ⟨made, hmade.concat ha⟩
  cases a with
  | learn action =>
    obtain ⟨learning, -, rfl⟩ := Option.map_eq_some_iff.mp hstep
    exact hkept hlookup False.elim
  | getPrediction r =>
    obtain rfl := Option.some.inj hstep
    rcases request_cases s r with ⟨old, -, -, -, hcache⟩ | ⟨-, hcache⟩
    · rw [hcache] at hlookup
      exact hkept hlookup False.elim
    · have hnew := (hcache id pred).mp hlookup
      split_ifs at hnew with hid
      · exact ⟨r, actions, [], s, rfl, h.1, hid.symm, hnew, by simp⟩
      · exact hkept hnew False.elim
  | registerAccessObservation objectId actualTier =>
    obtain rfl := Option.some.inj hstep
    simp only [PredictionEngine.registerAccessObservation] at hlookup
    by_cases hid : objectId = id
    · subst hid
      cases hold : s.engine.predictionCache.lookup objectId <;> simp [hold] at hlookup
    · refine hkept ?_ hid
      cases hold : s.engine.predictionCache.lookup objectId with
      | none => simpa [hold] using hlookup
      | some old => simpa [hold, AList.lookup_erase_ne (Ne.symm hid)] using hlookup
  | invalidateExpiredPredictions now order =>
    obtain ⟨-, hs⟩ := Option.ite_none_right_eq_some.mp hstep
    obtain rfl := Option.some.inj hs
    exact hkept (PredictionEngine.lookup_invalidateExpiredPredictions.mp hlookup).1 False.elim
  | reset =>
    obtain rfl := Option.some.inj hstep
    simp [PredictionEngine.reset] at hlookup

theorem recorded_of_run (h : Runs.run step {} actions = some s) : Recorded actions s := by
  have hstep (before : List Action) (s : Forecasts) (a : Action) (s' : Forecasts)
      (hs : Recorded before s) (_ : True) (ha : step s a = some s') :
      Recorded (before ++ [a]) s' := by
    refine ⟨?_, fun id pred => hs.madeBy_step ha⟩
    rw [Runs.run_append hs.1, Runs.run_cons ha]
    rfl
  have hstart : Recorded [] {} := ⟨rfl, by simp⟩
  exact Runs.invariant_history hstep [] hstart (Runs.along_true step {} actions) h

/-! ### How long they stay -/

theorem lookup_step (hlookup : s.engine.predictionCache.lookup id = some pred)
    (hkept : ¬ a.Withdraws id ∧ a.Before pred.expiration) (hstep : step s a = some s') :
    s'.engine.predictionCache.lookup id = some pred := by
  obtain ⟨hwithdraws, hbefore⟩ := hkept
  cases a with
  | learn action =>
    obtain ⟨learning, -, rfl⟩ := Option.map_eq_some_iff.mp hstep
    exact hlookup
  | getPrediction r =>
    obtain rfl := Option.some.inj hstep
    by_cases hid : id = r.objectId
    · subst hid
      exact lookup_of_served (request_of_lookup hlookup hbefore)
    · rcases request_cases s r with ⟨old, -, -, -, hcache⟩ | ⟨-, hcache⟩
      · rw [hcache, hlookup]
      · rw [hcache, if_neg hid, hlookup]
  | registerAccessObservation objectId actualTier =>
    obtain rfl := Option.some.inj hstep
    have hid : id ≠ objectId := fun h => hwithdraws h.symm
    simp only [PredictionEngine.registerAccessObservation]
    cases s.engine.predictionCache.lookup objectId with
    | none => exact hlookup
    | some old => rw [AList.lookup_erase_ne hid, hlookup]
  | invalidateExpiredPredictions now order =>
    obtain ⟨-, hs⟩ := Option.ite_none_right_eq_some.mp hstep
    obtain rfl := Option.some.inj hs
    have hfresh := PredictionEngine.not_expired_of_lt hbefore
    exact PredictionEngine.lookup_invalidateExpiredPredictions.mpr ⟨hlookup, .inr hfresh⟩
  | reset => exact absurd trivial hwithdraws

theorem lookup_run {after : List Action} (hrun : Runs.run step s after = some s')
    (hlookup : s.engine.predictionCache.lookup id = some pred)
    (hkept : ∀ a ∈ after, ¬ a.Withdraws id ∧ a.Before pred.expiration) :
    s'.engine.predictionCache.lookup id = some pred :=
  Runs.invariant_along (fun _ _ _ hlookup hkept hstep => lookup_step hlookup hkept hstep) hlookup
    (Runs.along_of_forall hkept s) hrun

/-- An answer was computed less than five seconds before it is given, from the pattern that the
learning engine had then, and no access to the object has been observed since. Until it expires
or is withdrawn it is the answer of every request, whatever is learned in between. -/
theorem predictions_fresh_and_stable (hrun : Runs.run step {} actions = some s)
    (hclock : r.now ≤ r.expirationNow) (hserved : (s.request r).1 = .ok pred) :
    (∃ made, MadeBy (actions ++ [.getPrediction r]) r.objectId made pred ∧
        r.now.toNat < made.expirationNow.toNat + 5000000000) ∧
      ∀ after s' r', Runs.run step s (.getPrediction r :: after) = some s' →
        (∀ a ∈ after, ¬ a.Withdraws r.objectId ∧ a.Before pred.expiration) →
        r'.objectId = r.objectId → r'.now < pred.expiration → (s'.request r').1 = .ok pred := by
  constructor
  · rcases request_cases s r with ⟨old, hlookup, hnow, hanswer, -⟩ | ⟨hanswer, -⟩
    · obtain rfl := Except.ok.inj (hanswer.symm.trans hserved)
      obtain ⟨made, hmade⟩ := (recorded_of_run hrun).2 _ _ hlookup
      refine ⟨made, hmade.concat False.elim, ?_⟩
      obtain ⟨_, _, _, -, -, -, hpred, -⟩ := hmade
      have hexp := congrArg UInt64.toNat (PredictionEngine.expiration_predict hpred)
      rw [UInt64.toNat_add] at hexp
      have hle := Nat.mod_le (made.expirationNow.toNat + (5000000000 : UInt64).toNat) (2 ^ 64)
      have hlt := UInt64.lt_iff_toNat_lt.mp hnow
      exact (hlt.trans_eq hexp).trans_le hle
    · refine ⟨r, ⟨actions, [], s, rfl, hrun, rfl, hanswer.symm.trans hserved, by simp⟩, ?_⟩
      have hle := UInt64.le_iff_toNat_le.mp hclock
      omega
  · intro after s' r' hafter hkept hid hnow
    obtain ⟨u, hu, hrest⟩ := Runs.run_cons_eq_some.mp hafter
    obtain rfl := Option.some.inj hu
    have hlookup := lookup_run hrest (lookup_of_served hserved) hkept
    rw [← hid] at hlookup
    exact request_of_lookup hlookup hnow

def asked (now : UInt64) : Request := ⟨7, now, now, now, now, now⟩

/-- A prediction is computed between two accesses. -/
def askedBetween : List Action :=
  [.learn (.learnAccess 7 4096 10 10), .getPrediction (asked 1000),
    .learn (.learnAccess 7 8192 1500 1500)]

theorem predictions_fresh_and_stable_behind : ∃ s pred,
    Runs.run step {} askedBetween = some s ∧ (s.request (asked 2000)).1 = .ok pred ∧
      (∃ made, MadeBy (askedBetween ++ [.getPrediction (asked 2000)]) 7 made pred ∧
        2000 < made.expirationNow.toNat + 5000000000) ∧
      (asked 2000).predictor 7 s.learning ≠ .ok pred := by
  have hrun : (Runs.run step {} askedBetween).map (fun s =>
      ((s.request (asked 2000)).1.toOption.isSome,
        decide ((asked 2000).predictor 7 s.learning = (s.request (asked 2000)).1))) =
      some (true, false) := by decide +kernel
  obtain ⟨s, hs, hserved⟩ := Option.map_eq_some_iff.mp hrun
  obtain ⟨hsome, hdiffers⟩ := Prod.mk.inj hserved
  cases hanswer : (s.request (asked 2000)).1 with
  | error status => simp [hanswer, Except.toOption] at hsome
  | ok pred =>
    rw [hanswer] at hdiffers
    have hfresh := predictions_fresh_and_stable hs (by decide) hanswer
    exact ⟨s, pred, hs, hanswer, hfresh.1, of_decide_eq_false hdiffers⟩

end Forecasts

end Ume
