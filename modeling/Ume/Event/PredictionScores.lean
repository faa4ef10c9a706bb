import Ume.Event.PredictionExpiry
import Ume.Lib.Counter
import Ume.Lib.Runs

/-! What the counters of the prediction engine add up to. Every prediction that has been
issued is in the cache, has been scored by one observation, or has been dropped for its
expiration. -/

namespace Ume

namespace PredictionEngine

open Counter

/-- A prediction that a request drops instead of serving it. -/
def Stale (now : UInt64) (pred : Prediction) : Prop :=
  ¬ (0 < pred.expiration ∧ now < pred.expiration)

instance (now : UInt64) (pred : Prediction) : Decidable (Stale now pred) :=
  inferInstanceAs (Decidable (¬ _))

def expired (now : UInt64) (e : PredictionEngine) : Nat :=
  Table.sum (fun pred => if Expired now pred then 1 else 0) e.predictionCache

/-- An engine and what has happened since it was last reset. -/
structure Session where
  engine : PredictionEngine := {}
  gets : Nat := 0
  observations : Nat := 0
  dropped : Nat := 0

/-- A call with the clock showing `now`. The predictions are visited in some order of their
keys. -/
def Session.step (s : Session) (call : UInt64 × Operation) : Option Session :=
  let engine := (s.engine.perform call.1 call.2).2
  match call.2 with
  | .getPrediction _ _ id _ _ =>
    let stale := (s.engine.predictionCache.lookup id).any fun pred => Stale call.1 pred
    some
      { s with
        engine := engine
        gets := s.gets + 1
        dropped := s.dropped + stale.toNat }
  | .registerAccessObservation _ _ =>
    some { s with engine := engine, observations := s.observations + 1 }
  | .invalidateExpiredPredictions order =>
    if order.Perm s.engine.predictionCache.keys then
      some { s with engine := engine, dropped := s.dropped + s.engine.expired call.1 }
    else none
  | .reset => some { engine := engine }

/-- The counters as numbers that do not wrap. -/
structure Tally where
  issued : Nat := 0
  correct : Nat := 0
  falsePositives : Nat := 0
  falseNegatives : Nat := 0
  hits : Nat := 0
  misses : Nat := 0

structure Tally.Tracks (t : Tally) (s : Session) : Prop where
  issued : Counts s.engine.metrics.predictionsIssued t.issued
  correct : Counts s.engine.metrics.correctPredictions t.correct
  falsePositives : Counts s.engine.metrics.falsePositives t.falsePositives
  falseNegatives : Counts s.engine.metrics.falseNegatives t.falseNegatives
  hits : Counts s.engine.metrics.cacheHits t.hits
  misses : Counts s.engine.metrics.cacheMisses t.misses
  scored : t.issued =
    t.correct + t.falsePositives + s.engine.predictionCache.entries.length + s.dropped
  requests : t.hits + t.misses = s.gets
  issued_le : t.issued ≤ t.misses
  observed : t.correct + t.falsePositives + t.falseNegatives = s.observations

theorem tracks_empty : Tally.Tracks {} {} := by
  constructor <;> rfl

/-- A request that the cache cannot answer is a miss, and may add a prediction to the cache. -/
theorem issuePrediction_cases (e : PredictionEngine) (predictor : IPredictor)
    (learning : Option PatternLearningEngine) (id : ObjectId) (startTime endTime : UInt64) :
    let e' := (e.issuePrediction predictor learning id startTime endTime).2
    let missed := { e.metrics with cacheMisses := e.metrics.cacheMisses + 1 }
    e' = { e with metrics := missed } ∨
      ∃ pred latency, e' =
        { predictionCache := e.predictionCache.insert id pred
          metrics :=
            { missed with
              predictionsIssued := e.metrics.predictionsIssued + 1
              totalPredictionLatencyNs := latency } } := by
  intro e' missed
  cases learning with
  | none => exact .inl rfl
  | some learning =>
    simp only [e', issuePrediction]
    cases predictor id learning with
    | error status => exact .inl rfl
    | ok pred => exact .inr ⟨pred, _, rfl⟩

section Step

variable {t : Tally} {s s' : Session}

theorem Tally.Tracks.issue (h : t.Tracks s) {id : ObjectId}
    (hnone : s.engine.predictionCache.lookup id = none) (predictor : IPredictor)
    (learning : Option PatternLearningEngine) (startTime endTime : UInt64) :
    ∃ t' : Tally, t'.Tracks
      { s with
        engine := (s.engine.issuePrediction predictor learning id startTime endTime).2
        gets := s.gets + 1 } := by
  have hrequests := h.requests
  have hle := h.issued_le
  have hscored := h.scored
  rcases issuePrediction_cases s.engine predictor learning id startTime endTime with
    hmiss | ⟨pred, latency, hissue⟩
  · rw [hmiss]
    exact ⟨{ t with misses := t.misses + 1 },
      { h with
        misses := h.misses.add_one
        requests := by dsimp only; omega
        issued_le := by dsimp only; omega }⟩
  · rw [hissue]
    exact ⟨{ t with misses := t.misses + 1, issued := t.issued + 1 },
      { h with
        issued := h.issued.add_one
        misses := h.misses.add_one
        scored := by dsimp only; rw [Table.length_insert hnone]; omega
        requests := by dsimp only; omega
        issued_le := by dsimp only; omega }⟩

theorem Tally.Tracks.getPrediction (h : t.Tracks s) (now : UInt64) (predictor : IPredictor)
    (learning : Option PatternLearningEngine) (id : ObjectId) (startTime endTime : UInt64)
    (hs : s.step (now, .getPrediction predictor learning id startTime endTime) = some s') :
    ∃ t' : Tally, t'.Tracks s' := by
  obtain rfl := Option.some.inj hs
  simp only [perform, PredictionEngine.getPrediction]
  cases hlookup : s.engine.predictionCache.lookup id with
  | none => simpa using h.issue hlookup predictor learning startTime endTime
  | some pred =>
    by_cases hfresh : 0 < pred.expiration ∧ now < pred.expiration
    · have hstale : ¬ Stale now pred := not_not.mpr hfresh
      simp only [gt_iff_lt, hfresh, and_self, if_true, Option.any_some, hstale, decide_false,
        Bool.toNat_false]
      have hrequests := h.requests
      exact ⟨{ t with hits := t.hits + 1 },
        { h with
          hits := h.hits.add_one
          requests := by dsimp only; omega }⟩
    · have hstale : Stale now pred := hfresh
      simp only [gt_iff_lt, hfresh, if_false, Option.any_some, hstale, decide_true,
        Bool.toNat_true]
      have hscored := h.scored
      rw [Table.length_erase hlookup] at hscored
      have hdropped : t.Tracks
          { s with
            engine :=
              { s.engine with predictionCache := s.engine.predictionCache.erase id }
            dropped := s.dropped + 1 } :=
        { h with scored := by dsimp only; omega }
      exact hdropped.issue (AList.lookup_erase ..) predictor learning startTime endTime

theorem Tally.Tracks.registerAccessObservation (h : t.Tracks s) (now : UInt64) (id : ObjectId)
    (tier : TierClass) (hs : s.step (now, .registerAccessObservation id tier) = some s') :
    ∃ t' : Tally, t'.Tracks s' := by
  obtain rfl := Option.some.inj hs
  have hobserved := h.observed
  have hscored := h.scored
  simp only [perform, PredictionEngine.registerAccessObservation]
  cases hlookup : s.engine.predictionCache.lookup id with
  | none =>
    exact ⟨{ t with falseNegatives := t.falseNegatives + 1 },
      { h with
        falseNegatives := h.falseNegatives.add_one
        observed := by dsimp only; omega }⟩
  | some pred =>
    rw [Table.length_erase hlookup] at hscored
    by_cases htier : pred.expectedTier = tier
    · simp only [htier, if_true]
      exact ⟨{ t with correct := t.correct + 1 },
        { h with
          correct := h.correct.add_one
          scored := by dsimp only; omega
          observed := by dsimp only; omega }⟩
    · simp only [htier, if_false]
      exact ⟨{ t with falsePositives := t.falsePositives + 1 },
        { h with
          falsePositives := h.falsePositives.add_one
          scored := by dsimp only; omega
          observed := by dsimp only; omega }⟩

theorem length_invalidatePrediction (now : UInt64) (e : PredictionEngine) (id : UInt64) :
    (e.invalidatePrediction now id).predictionCache.entries.length + e.expired now =
      e.predictionCache.entries.length + (e.invalidatePrediction now id).expired now := by
  rcases invalidatePrediction_cases now e id with ⟨hsame, -⟩ | ⟨herase, pred, hlookup, hexpired⟩
  · rw [hsame]
  · have hsum : e.expired now =
        1 + expired now { e with predictionCache := e.predictionCache.erase id } := by
      rw [expired, Table.sum_of_lookup _ hlookup, if_pos hexpired]
      rfl
    rw [herase, Table.length_erase hlookup, hsum]
    dsimp only
    omega

theorem length_invalidateExpiredPredictions (now : UInt64) (e : PredictionEngine)
    (order : List UInt64) :
    (e.invalidateExpiredPredictions now order).predictionCache.entries.length + e.expired now =
      e.predictionCache.entries.length +
        (e.invalidateExpiredPredictions now order).expired now := by
  induction order generalizing e with
  | nil => rfl
  | cons id order ih =>
    have hfirst := length_invalidatePrediction now e id
    have hrest := ih (e.invalidatePrediction now id)
    rw [invalidateExpiredPredictions, List.foldl_cons]
    unfold invalidateExpiredPredictions at hrest
    omega

theorem expired_invalidateExpiredPredictions {now : UInt64} {e : PredictionEngine}
    {order : List UInt64} (horder : order.Perm e.predictionCache.keys) :
    (e.invalidateExpiredPredictions now order).expired now = 0 := by
  refine List.sum_eq_zero fun n hn => ?_
  obtain ⟨⟨id, pred⟩, hentry, rfl⟩ := List.mem_map.mp hn
  obtain ⟨hlookup, hkept⟩ :=
    lookup_invalidateExpiredPredictions.mp (AList.mem_lookup_iff.mpr hentry)
  exact if_neg (hkept.resolve_left (not_not.mpr (mem_order horder hlookup)))

theorem Tally.Tracks.invalidateExpiredPredictions (h : t.Tracks s) (now : UInt64)
    (order : List UInt64)
    (hs : s.step (now, .invalidateExpiredPredictions order) = some s') : t.Tracks s' := by
  simp only [Session.step, Option.ite_none_right_eq_some, Option.some.injEq] at hs
  obtain ⟨horder, rfl⟩ := hs
  have hscored := h.scored
  have hlength := length_invalidateExpiredPredictions now s.engine order
  rw [expired_invalidateExpiredPredictions horder] at hlength
  have hmetrics := metrics_invalidateExpiredPredictions now s.engine order
  simp only [perform]
  exact
    { h with
      issued := hmetrics ▸ h.issued
      correct := hmetrics ▸ h.correct
      falsePositives := hmetrics ▸ h.falsePositives
      falseNegatives := hmetrics ▸ h.falseNegatives
      hits := hmetrics ▸ h.hits
      misses := hmetrics ▸ h.misses
      scored := by dsimp only; omega }

theorem exists_tracks_step {call : UInt64 × Operation} (h : ∃ t : Tally, t.Tracks s)
    (hs : s.step call = some s') : ∃ t : Tally, t.Tracks s' := by
  obtain ⟨t, ht⟩ := h
  obtain ⟨now, op⟩ := call
  cases op with
  | getPrediction predictor learning id startTime endTime =>
    exact ht.getPrediction now predictor learning id startTime endTime hs
  | registerAccessObservation id tier => exact ht.registerAccessObservation now id tier hs
  | invalidateExpiredPredictions order => exact ⟨t, ht.invalidateExpiredPredictions now order hs⟩
  | reset =>
    obtain rfl := Option.some.inj hs
    exact ⟨{}, tracks_empty⟩

end Step

/-- The counters balance in 64 bits after any calls, and as numbers while there have been fewer
than 2⁶⁴ requests and as many observations since the last reset. -/
theorem predictions_scored_once {calls : List (UInt64 × Operation)} {s : Session}
    (h : Runs.run Session.step {} calls = some s) :
    let m := s.engine.metrics
    let cached := s.engine.predictionCache.entries.length
    (m.predictionsIssued =
        m.correctPredictions + m.falsePositives + .ofNat (cached + s.dropped) ∧
      m.cacheHits + m.cacheMisses = .ofNat s.gets ∧
      m.correctPredictions + m.falsePositives + m.falseNegatives = .ofNat s.observations) ∧
    (s.gets < 2 ^ 64 → s.observations < 2 ^ 64 →
      m.correctPredictions.toNat + m.falsePositives.toNat + cached + s.dropped =
          m.predictionsIssued.toNat ∧
        m.cacheHits.toNat + m.cacheMisses.toNat = s.gets ∧
        m.predictionsIssued.toNat ≤ m.cacheMisses.toNat ∧
        m.correctPredictions.toNat + m.falsePositives.toNat + m.falseNegatives.toNat =
          s.observations) := by
  intro m cached
  have hinv : ∃ t : Tally, t.Tracks s :=
    Runs.invariant (fun _ _ _ => exists_tracks_step) ⟨{}, tracks_empty⟩ h
  obtain ⟨t, ht⟩ := hinv
  have hscored := ht.scored
  have hrequests := ht.requests
  have hle := ht.issued_le
  have hobserved := ht.observed
  constructor
  · have hcounted := (ht.correct.add ht.falsePositives).add_ofNat (cached + s.dropped)
    have hasked := ht.hits.add ht.misses
    have hseen := (ht.correct.add ht.falsePositives).add ht.falseNegatives
    rw [← Nat.add_assoc, ← hscored] at hcounted
    rw [hrequests] at hasked
    rw [hobserved] at hseen
    exact ⟨ht.issued.eq hcounted, hasked, hseen⟩
  · intro hgets hobs
    rw [ht.issued.toNat_eq (by omega), ht.correct.toNat_eq (by omega),
      ht.falsePositives.toNat_eq (by omega), ht.falseNegatives.toNat_eq (by omega),
      ht.hits.toNat_eq (by omega), ht.misses.toNat_eq (by omega)]
    exact ⟨hscored.symm, hrequests, hle, hobserved⟩

/-- A request for an object with a prediction that expires at ten. -/
def predicted (id : ObjectId) : Operation :=
  .getPrediction (fun id _ => .ok { targetObject := id, expiration := 10, isValid := true })
    (some {}) id 0 0

/-- A prediction is scored by the access, a second one is dropped at the next request. -/
theorem predictions_scored_once_dropped :
    ∃ s, Runs.run Session.step {} [(0, predicted 7), (0, predicted 8),
        (5, .registerAccessObservation 7 TierClass.kRam), (12, predicted 8)] = some s ∧
      s.dropped = 1 ∧
      s.engine.metrics.correctPredictions.toNat + s.engine.metrics.falsePositives.toNat +
          s.engine.predictionCache.entries.length + s.dropped =
        s.engine.metrics.predictionsIssued.toNat := by
  have hrun : (Runs.run Session.step {} [(0, predicted 7), (0, predicted 8),
      (5, .registerAccessObservation 7 TierClass.kRam), (12, predicted 8)]).map
        (fun s => (s.gets, s.observations, s.dropped)) = some (3, 1, 1) := by
    decide +kernel
  obtain ⟨s, hs, hcounts⟩ := Option.map_eq_some_iff.mp hrun
  obtain ⟨hgets, hobs, hdropped⟩ : s.gets = 3 ∧ s.observations = 1 ∧ s.dropped = 1 := by
    simpa using hcounts
  exact ⟨s, hs, hdropped, ((predictions_scored_once hs).2 (by omega) (by omega)).1⟩

/-- A request for an object that nothing is known of. -/
def unknown : UInt64 × Operation :=
  (0, .getPrediction (fun _ _ => .error .kNotFound) (some {}) 8 0 0)

theorem run_replicate_unknown (n : Nat) {s : Session}
    (hnone : s.engine.predictionCache.lookup 8 = none) :
    ∃ s', Runs.run Session.step s (List.replicate n unknown) = some s' ∧
      s'.gets = s.gets + n ∧ s'.engine.metrics =
        { s.engine.metrics with cacheMisses := s.engine.metrics.cacheMisses + .ofNat n } := by
  induction n generalizing s with
  | zero => exact ⟨s, rfl, rfl, by simp⟩
  | succ n ih =>
    obtain ⟨s₁, hstep, hnone₁, hgets₁, hmetrics₁⟩ : ∃ s₁, s.step unknown = some s₁ ∧
        s₁.engine.predictionCache.lookup 8 = none ∧ s₁.gets = s.gets + 1 ∧
        s₁.engine.metrics =
          { s.engine.metrics with cacheMisses := s.engine.metrics.cacheMisses + 1 } := by
      refine ⟨_, rfl, ?_, rfl, ?_⟩
      · simp [unknown, perform, getPrediction, issuePrediction, hnone]
      · simp [unknown, perform, getPrediction, issuePrediction, hnone]
    obtain ⟨s', hrun, hgets, hmetrics⟩ := ih hnone₁
    refine ⟨s', (Runs.run_cons hstep _).trans hrun, ?_, ?_⟩
    · omega
    · rw [hmetrics, hmetrics₁, Nat.add_comm, UInt64.ofNat_add, ← UInt64.add_assoc]
      rfl

/-- After 2⁶⁴ requests, one of which was answered with a prediction, the misses are back at
zero. -/
theorem requests_wrapped :
    ∃ calls s, Runs.run Session.step {} calls = some s ∧ s.gets = 2 ^ 64 ∧
      s.engine.metrics.cacheMisses.toNat < s.engine.metrics.predictionsIssued.toNat ∧
      s.engine.metrics.cacheHits.toNat + s.engine.metrics.cacheMisses.toNat ≠ s.gets := by
  obtain ⟨s₁, hfirst, hnone, hgets₁, hmetrics₁⟩ : ∃ s : Session,
      Session.step {} (0, predicted 7) = some s ∧
        s.engine.predictionCache.lookup 8 = none ∧ s.gets = 1 ∧
          s.engine.metrics = { predictionsIssued := 1, cacheMisses := 1 } :=
    ⟨_, rfl, rfl, rfl, rfl⟩
  obtain ⟨s, hrun, hgets, hmetrics⟩ := run_replicate_unknown (2 ^ 64 - 1) hnone
  have hmisses : s.engine.metrics.cacheMisses = 0 := by
    rw [hmetrics, hmetrics₁]
    decide
  have hissued : s.engine.metrics.predictionsIssued = 1 := by rw [hmetrics, hmetrics₁]
  have hhits : s.engine.metrics.cacheHits = 0 := by rw [hmetrics, hmetrics₁]
  rw [hgets₁] at hgets
  refine ⟨_, s, (Runs.run_cons hfirst _).trans hrun, hgets, ?_, ?_⟩
  · rw [hmisses, hissued]
    decide
  · rw [hmisses, hhits, hgets]
    decide

end PredictionEngine

end Ume
