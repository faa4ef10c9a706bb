import Ume.Event.PredictionEngine
import Ume.Lib.Table

/-! When a prediction in the cache has expired. Each operation has a test of its own: one
that takes a prediction without an expiration for expired, one that takes it for fresh, and
the observation of an access has none. -/

namespace Ume

namespace PredictionEngine

/-- A call of the engine. -/
inductive Operation where
  | getPrediction (predictor : IPredictor) (learning : Option PatternLearningEngine)
      (objectId : ObjectId) (startTime endTime : UInt64)
  | registerAccessObservation (objectId : ObjectId) (actualTier : TierClass)
  | invalidateExpiredPredictions (order : List UInt64)
  | reset

/-- The result, if there is one, and the engine after the call. -/
def perform (now : UInt64) (e : PredictionEngine) :
    Operation → Option (Except Status Prediction) × PredictionEngine
  | .getPrediction predictor learning objectId startTime endTime =>
    let r := e.getPrediction predictor learning objectId startTime now endTime
    (some r.1, r.2)
  | .registerAccessObservation objectId actualTier =>
    (none, e.registerAccessObservation objectId actualTier)
  | .invalidateExpiredPredictions order => (none, e.invalidateExpiredPredictions now order)
  | .reset => (none, e.reset)

/-- The prediction of an object is served: a request for it is a hit. -/
def Served (now : UInt64) (e : PredictionEngine) (id : ObjectId) : Prop :=
  ∀ predictor learning startTime endTime,
    (e.getPrediction predictor learning id startTime now endTime).2.metrics.cacheHits =
      e.metrics.cacheHits + 1

/-- It is scored: an access is counted as a correct prediction or a false positive. -/
def Scored (e : PredictionEngine) (id : ObjectId) : Prop :=
  ∀ tier, (e.registerAccessObservation id tier).metrics.correctPredictions =
      e.metrics.correctPredictions + 1 ∨
    (e.registerAccessObservation id tier).metrics.falsePositives = e.metrics.falsePositives + 1

/-- It is retained: it is still in the cache after the expired ones have been removed. -/
def Retained (now : UInt64) (order : List UInt64) (e : PredictionEngine) (id : ObjectId) : Prop :=
  (e.invalidateExpiredPredictions now order).predictionCache.lookup id =
    e.predictionCache.lookup id

/-- The test of `invalidate_expired_predictions`. -/
def Expired (now : UInt64) (pred : Prediction) : Prop :=
  0 < pred.expiration ∧ pred.expiration ≤ now

instance (now : UInt64) (pred : Prediction) : Decidable (Expired now pred) :=
  inferInstanceAs (Decidable (_ ∧ _))

section Tests

variable {now : UInt64} {e : PredictionEngine} {id : ObjectId} {pred : Prediction}
  {order : List UInt64}

theorem ne_add_one (a : UInt64) : a ≠ a + 1 := by
  intro h
  have hone : a + 0 = a + 1 := (UInt64.add_zero a).trans h
  exact absurd (UInt64.add_right_inj _ |>.mp hone) (by decide)

theorem cacheHits_issuePrediction (e : PredictionEngine) (predictor : IPredictor)
    (learning : Option PatternLearningEngine) (objectId : ObjectId) (startTime endTime : UInt64) :
    (e.issuePrediction predictor learning objectId startTime endTime).2.metrics.cacheHits =
      e.metrics.cacheHits := by
  cases learning with
  | none => rfl
  | some learning =>
    rw [issuePrediction]
    cases predictor objectId learning <;> rfl

theorem served_iff (h : e.predictionCache.lookup id = some pred) :
    Served now e id ↔ now < pred.expiration := by
  constructor
  · intro hserved
    by_contra hlate
    have hhits := hserved (fun _ _ => .error .kNotFound) none 0 0
    rw [getPrediction, h] at hhits
    simp only [hlate, and_false, if_false, cacheHits_issuePrediction] at hhits
    exact ne_add_one _ hhits
  · intro hfresh predictor learning startTime endTime
    have hpos : 0 < pred.expiration := by
      rw [UInt64.lt_iff_toNat_lt] at hfresh ⊢
      exact Nat.zero_lt_of_lt hfresh
    rw [getPrediction, h]
    simp only [gt_iff_lt, hpos, hfresh, and_self, if_true]

theorem scored (h : e.predictionCache.lookup id = some pred) : Scored e id := by
  intro tier
  rw [registerAccessObservation, h]
  dsimp only
  split_ifs
  · exact .inl rfl
  · exact .inr rfl

theorem invalidatePrediction_cases (now : UInt64) (e : PredictionEngine) (visited : UInt64) :
    e.invalidatePrediction now visited = e ∧
        (∀ pred, e.predictionCache.lookup visited = some pred → ¬ Expired now pred) ∨
      e.invalidatePrediction now visited =
          { e with predictionCache := e.predictionCache.erase visited } ∧
        ∃ pred, e.predictionCache.lookup visited = some pred ∧ Expired now pred := by
  rw [invalidatePrediction]
  cases hlookup : e.predictionCache.lookup visited with
  | none => exact .inl ⟨rfl, fun _ h => (by cases h)⟩
  | some pred =>
    by_cases hexpired : Expired now pred
    · exact .inr ⟨if_pos hexpired, pred, rfl, hexpired⟩
    · refine .inl ⟨if_neg hexpired, fun pred' h => ?_⟩
      rwa [← Option.some.inj h]

theorem lookup_invalidatePrediction {visited : UInt64} :
    (e.invalidatePrediction now visited).predictionCache.lookup id = some pred ↔
      e.predictionCache.lookup id = some pred ∧ (id ≠ visited ∨ ¬ Expired now pred) := by
  rcases invalidatePrediction_cases now e visited with ⟨hsame, hfresh⟩ | ⟨herase, old, hold, hexp⟩
  · rw [hsame]
    refine (and_iff_left_of_imp fun hlookup => ?_).symm
    refine or_iff_not_imp_left.mpr fun hid => hfresh pred ?_
    rwa [← not_ne_iff.mp hid]
  · rw [herase]
    by_cases hid : id = visited
    · subst hid
      rw [AList.lookup_erase, hold]
      refine iff_of_false (Option.some_ne_none pred).symm fun h => ?_
      exact h.2.elim (absurd rfl) (absurd (Option.some.inj h.1 ▸ hexp))
    · rw [AList.lookup_erase_ne hid]
      exact (and_iff_left (.inl hid)).symm

theorem lookup_invalidateExpiredPredictions :
    (e.invalidateExpiredPredictions now order).predictionCache.lookup id = some pred ↔
      e.predictionCache.lookup id = some pred ∧ (id ∉ order ∨ ¬ Expired now pred) := by
  induction order generalizing e with
  | nil => exact (and_iff_left (.inl List.not_mem_nil)).symm
  | cons visited order ih =>
    have hrest := ih (e := e.invalidatePrediction now visited)
    rw [lookup_invalidatePrediction, and_assoc] at hrest
    refine hrest.trans (and_congr_right fun _ => ?_)
    rw [List.mem_cons, not_or, and_or_right]

theorem invalidateExpiredPredictions_eq_self
    (h : ∀ id pred, e.predictionCache.lookup id = some pred → ¬ Expired now pred) :
    e.invalidateExpiredPredictions now order = e := by
  induction order with
  | nil => rfl
  | cons visited order ih =>
    rw [invalidateExpiredPredictions, List.foldl_cons]
    rcases invalidatePrediction_cases now e visited with ⟨hsame, -⟩ | ⟨-, pred, hlookup, hexpired⟩
    · rw [hsame]
      exact ih
    · exact absurd hexpired (h visited pred hlookup)

theorem metrics_invalidateExpiredPredictions (now : UInt64) (e : PredictionEngine)
    (order : List UInt64) : (e.invalidateExpiredPredictions now order).metrics = e.metrics := by
  induction order generalizing e with
  | nil => rfl
  | cons visited order ih =>
    refine (ih (e.invalidatePrediction now visited)).trans ?_
    rcases invalidatePrediction_cases now e visited with ⟨h, -⟩ | ⟨h, -⟩ <;> rw [h]

theorem mem_order (horder : order.Perm e.predictionCache.keys)
    (h : e.predictionCache.lookup id = some pred) : id ∈ order :=
  horder.mem_iff.mpr (Table.mem_keys_of_lookup h)

theorem retained_iff (horder : order.Perm e.predictionCache.keys)
    (h : e.predictionCache.lookup id = some pred) :
    Retained now order e id ↔ ¬ Expired now pred := by
  rw [Retained, h, lookup_invalidateExpiredPredictions, and_iff_right h]
  exact or_iff_right (not_not_intro (mem_order horder h))

theorem not_expired_of_lt (h : now < pred.expiration) : ¬ Expired now pred :=
  fun hexpired => UInt64.not_lt.mpr hexpired.2 h

/-- The three tests agree on a prediction exactly if its expiration is still to come. -/
theorem agree_iff (horder : order.Perm e.predictionCache.keys)
    (h : e.predictionCache.lookup id = some pred) :
    (Served now e id ↔ Scored e id) ∧ (Scored e id ↔ Retained now order e id) ↔
      now < pred.expiration := by
  rw [served_iff h, iff_true_intro (scored h), retained_iff horder h, iff_true, true_iff]
  exact ⟨fun hboth => hboth.1, fun hlt => ⟨hlt, not_expired_of_lt hlt⟩⟩

theorem expiration_predict {t t' : UInt64} {learning : PatternLearningEngine}
    (h : HybridPredictor.predict t t' id learning = .ok pred) :
    pred.expiration = t' + 5000000000 := by
  rw [HybridPredictor.predict] at h
  cases hpattern : learning.getPattern id with
  | error status => simp [hpattern] at h
  | ok p =>
    simp only [hpattern, Except.ok.injEq] at h
    rw [← h]

/-- An access to an object whose prediction has been removed is a false negative. -/
theorem observation_differs (horder : order.Perm e.predictionCache.keys)
    (h : e.predictionCache.lookup id = some pred) (hexpired : Expired now pred) (tier : TierClass) :
    ((e.invalidateExpiredPredictions now order).registerAccessObservation id
        tier).metrics.falseNegatives ≠
      (e.registerAccessObservation id tier).metrics.falseNegatives := by
  have hgone : (e.invalidateExpiredPredictions now order).predictionCache.lookup id = none := by
    refine Option.eq_none_iff_forall_ne_some.mpr fun pred' h' => ?_
    obtain ⟨hsame, hkept⟩ := lookup_invalidateExpiredPredictions.mp h'
    rw [h] at hsame
    exact hkept.elim (absurd (mem_order horder h)) (absurd (Option.some.inj hsame ▸ hexpired))
  have hleft : ((e.invalidateExpiredPredictions now order).registerAccessObservation id
      tier).metrics.falseNegatives = e.metrics.falseNegatives + 1 := by
    rw [registerAccessObservation, hgone]
    simp only [metrics_invalidateExpiredPredictions]
  have hright : (e.registerAccessObservation id tier).metrics.falseNegatives =
      e.metrics.falseNegatives := by
    rw [registerAccessObservation, h]
    dsimp only
    split_ifs <;> rfl
  rw [hleft, hright]
  exact (ne_add_one _).symm

end Tests

/-- A prediction in the cache is served, scored and retained alike exactly if its expiration
is still to come. Removing the expired ones first makes no difference to any call exactly if
there are none. -/
theorem expiry_agrees_iff (e : PredictionEngine) (now : UInt64) {order : List UInt64}
    (horder : order.Perm e.predictionCache.keys) :
    (∀ id pred, e.predictionCache.lookup id = some pred →
        ((Served now e id ↔ Scored e id) ∧ (Scored e id ↔ Retained now order e id) ↔
          now < pred.expiration)) ∧
      ((∀ op, (perform now (e.invalidateExpiredPredictions now order) op).1 =
            (perform now e op).1 ∧
          (perform now (e.invalidateExpiredPredictions now order) op).2.metrics =
            (perform now e op).2.metrics) ↔
        ∀ id pred, e.predictionCache.lookup id = some pred → ¬ Expired now pred) := by
  refine ⟨fun id pred h => agree_iff horder h, ?_⟩
  constructor
  · intro hsame id pred h hexpired
    have hmetrics := (hsame (.registerAccessObservation id TierClass.kRam)).2
    exact observation_differs horder h hexpired TierClass.kRam
      (congrArg PredictionMetrics.falseNegatives hmetrics)
  · intro hfresh op
    rw [invalidateExpiredPredictions_eq_self hfresh]
    exact ⟨rfl, rfl⟩

/-- The engine after one request, with the prediction expiring at this time. -/
def expiringAt (expiration : UInt64) : PredictionEngine :=
  (getPrediction {} (fun id _ => .ok { targetObject := id, expiration, isValid := true })
    (some {}) 7 0 0 0).2

theorem expiry_agrees_expiringAt :
    (expiringAt 10).predictionCache.lookup 7 =
        some { targetObject := 7, expiration := 10, isValid := true } ∧
      (Served 9 (expiringAt 10) 7 ↔ Scored (expiringAt 10) 7) ∧
      (Scored (expiringAt 10) 7 ↔ Retained 9 [7] (expiringAt 10) 7) := by
  have hlookup : (expiringAt 10).predictionCache.lookup 7 =
      some { targetObject := 7, expiration := 10, isValid := true } := by decide +kernel
  have horder : [7].Perm (expiringAt 10).predictionCache.keys := by decide +kernel
  exact ⟨hlookup, ((expiry_agrees_iff (expiringAt 10) 9 horder).1 7 _ hlookup).mpr (by decide)⟩

/-- A prediction without an expiration is not served, and yet it is scored and retained. One
that has expired is scored, unless it is removed before. -/
theorem expiry_differs :
    ((expiringAt 0).perform 9 (.getPrediction (fun _ _ => .error .kNotFound) (some {}) 7 9 9)).1 =
        some (.error .kNotFound) ∧
      ((expiringAt 0).registerAccessObservation 7 TierClass.kRam).metrics.correctPredictions = 1 ∧
      ((expiringAt 0).invalidateExpiredPredictions 9 [7]).predictionCache.keys = [7] ∧
      ((expiringAt 10).registerAccessObservation 7 TierClass.kRam).metrics.correctPredictions = 1 ∧
      (((expiringAt 10).invalidateExpiredPredictions 10 [7]).registerAccessObservation 7
        TierClass.kRam).metrics.falseNegatives = 1 := by
  decide +kernel

end PredictionEngine

end Ume
