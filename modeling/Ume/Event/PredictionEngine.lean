import Ume.Event.PatternLearning

/-! Predictions of the tier an object will be in, the cache they are kept in, and what is
counted when an access shows whether they were right. -/

namespace Ume

structure Prediction where
  targetObject : ObjectId := ObjectId.kNull
  confidenceScore : Binary64 := Binary64.ofNat 0
  expectedTimestamp : UInt64 := 0
  expectedTier : TierClass := TierClass.kRam
  estimatedBenefitUs : UInt64 := 0
  estimatedCostUs : UInt64 := 0
  expiration : UInt64 := 0
  isValid : Bool := false
  deriving DecidableEq

/-- A predictor in the state it has at a call. -/
abbrev IPredictor := ObjectId → PatternLearningEngine → Except Status Prediction

namespace HybridPredictor

/-- The tier, the benefit and the cost. -/
def forecast (p : MemoryPattern) : TierClass × UInt64 × UInt64 :=
  if p.lastStride ≠ 0 && Binary64.lt (Binary64.ofDecimal 7 1) p.confidence then
    (TierClass.kVram, 150, 15)
  else if Binary64.lt (Binary64.ofDecimal 8 1) p.frequencyScore then (TierClass.kVram, 100, 20)
  else if Binary64.lt p.recencyScore (Binary64.ofDecimal 2 1) then (TierClass.kNvme, 50, 80)
  else (TierClass.kRam, 0, 0)

/-- The clock is read once for each of the two times. -/
def predict (expectedNow expirationNow : UInt64) : IPredictor := fun objectId learning =>
  match learning.getPattern objectId with
  | .error status => .error status
  | .ok p =>
    .ok
      { targetObject := objectId
        confidenceScore := p.confidence
        isValid := true
        expectedTier := (forecast p).1
        estimatedBenefitUs := (forecast p).2.1
        estimatedCostUs := (forecast p).2.2
        expectedTimestamp := expectedNow + 1000000
        expiration := expirationNow + 5000000000 }

end HybridPredictor

structure PredictionMetrics where
  predictionsIssued : UInt64 := 0
  correctPredictions : UInt64 := 0
  falsePositives : UInt64 := 0
  falseNegatives : UInt64 := 0
  cacheHits : UInt64 := 0
  cacheMisses : UInt64 := 0
  totalPredictionLatencyNs : UInt64 := 0
  deriving DecidableEq

/-- The predictor and the learning engine belong to others, and are as they are at a call. -/
structure PredictionEngine where
  predictionCache : AList (fun _ : UInt64 => Prediction) := ∅
  metrics : PredictionMetrics := {}

namespace PredictionEngine

/-- What `get_prediction` does when the cache does not have the answer. -/
def issuePrediction (e : PredictionEngine) (predictor : IPredictor)
    (learning : Option PatternLearningEngine) (objectId : ObjectId) (startTime endTime : UInt64) :
    Except Status Prediction × PredictionEngine :=
  let e := { e with metrics := { e.metrics with cacheMisses := e.metrics.cacheMisses + 1 } }
  match learning with
  | none => (.error .kInvalidState, e)
  | some learning =>
    match predictor objectId learning with
    | .error status => (.error status, e)
    | .ok pred =>
      (.ok pred,
        { predictionCache := e.predictionCache.insert objectId pred
          metrics :=
            { e.metrics with
              predictionsIssued := e.metrics.predictionsIssued + 1
              totalPredictionLatencyNs :=
                e.metrics.totalPredictionLatencyNs + (endTime - startTime) } })

/-- The clock shows `now` when the prediction in the cache is checked. -/
def getPrediction (e : PredictionEngine) (predictor : IPredictor)
    (learning : Option PatternLearningEngine) (objectId : ObjectId)
    (startTime now endTime : UInt64) : Except Status Prediction × PredictionEngine :=
  match e.predictionCache.lookup objectId with
  | none => e.issuePrediction predictor learning objectId startTime endTime
  | some pred =>
    if pred.expiration > 0 ∧ now < pred.expiration then
      (.ok pred, { e with metrics := { e.metrics with cacheHits := e.metrics.cacheHits + 1 } })
    else
      issuePrediction { e with predictionCache := e.predictionCache.erase objectId } predictor
        learning objectId startTime endTime

def registerAccessObservation (e : PredictionEngine) (objectId : ObjectId)
    (actualTier : TierClass) : PredictionEngine :=
  match e.predictionCache.lookup objectId with
  | some pred =>
    { predictionCache := e.predictionCache.erase objectId
      metrics :=
        if pred.expectedTier = actualTier then
          { e.metrics with correctPredictions := e.metrics.correctPredictions + 1 }
        else { e.metrics with falsePositives := e.metrics.falsePositives + 1 } }
  | none =>
    { e with metrics := { e.metrics with falseNegatives := e.metrics.falseNegatives + 1 } }

/-- The visit of one prediction by `invalidate_expired_predictions`. -/
def invalidatePrediction (now : UInt64) (e : PredictionEngine) (id : UInt64) : PredictionEngine :=
  match e.predictionCache.lookup id with
  | none => e
  | some pred =>
    if pred.expiration > 0 ∧ now ≥ pred.expiration then
      { e with predictionCache := e.predictionCache.erase id }
    else e

/-- The predictions are visited in the order of the hash table, which is any order of its
keys. -/
def invalidateExpiredPredictions (e : PredictionEngine) (now : UInt64) (order : List UInt64) :
    PredictionEngine :=
  order.foldl (invalidatePrediction now) e

def reset (_ : PredictionEngine) : PredictionEngine := {}

end PredictionEngine

end Ume
