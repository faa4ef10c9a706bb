import Mathlib.Data.List.Count
import Ume.Event.PatternFile
import Ume.Event.PredictionEngine
import Ume.Lib.Rounding

/-! The scores of the learned patterns over whole runs, in doubles, and what the predictor
makes of them. -/

namespace Ume

open Binary64 (one ofNat ofDecimal round Within Representable)

namespace DefaultLearningPolicy

/-- The double next to a tenth, in units, and those next to the other constants. -/
def tenth : Nat := round (1 * one) (10 ^ 1)

def nineTenths : Nat := round (9 * one) (10 ^ 1)

def twentieth : Nat := round (5 * one) (10 ^ 2)

theorem within_tenth : Within tenth tenth (ofDecimal 1 1) :=
  Binary64.within_ofDecimal (by decide +kernel)

theorem within_nineTenths : Within nineTenths nineTenths (ofDecimal 9 1) :=
  Binary64.within_ofDecimal (by decide +kernel)

theorem within_twentieth : Within twentieth twentieth (ofDecimal 5 2) :=
  Binary64.within_ofDecimal (by decide +kernel)

theorem representable_nineTenths : Representable nineTenths :=
  Binary64.representable_round (by decide +kernel)

/-! ### The frequency score -/

/-- One step of the moving average. -/
def nextFrequency (score : Binary64) : Binary64 :=
  Binary64.add (Binary64.mul score (ofDecimal 9 1)) (ofDecimal 1 1)

/-- The score after so many accesses. -/
def frequencyAfter : Nat → Binary64
  | 0 => ofNat 0
  | n + 1 => nextFrequency (frequencyAfter n)

theorem within_nextFrequency {score : Binary64} {a m : Nat} (h : Within a one score)
    (hm : Representable m) (ham : m * one ≤ a * nineTenths) :
    Within (round (m + tenth) 1) one (nextFrequency score) := by
  have hproduct : Within m nineTenths (Binary64.mul score (ofDecimal 9 1)) :=
    h.mul within_nineTenths hm representable_nineTenths ham (Nat.mul_comm _ _).le
  have hsum : round (nineTenths + tenth) 1 ≤ one := by decide +kernel
  exact (hproduct.add_round within_tenth (hsum.trans Binary64.representable_one.2)).mono le_rfl hsum

theorem within_frequencyAfter (n : Nat) : Within 0 one (frequencyAfter n) := by
  induction n with
  | zero => exact Binary64.within_ofNat_zero.mono le_rfl (Nat.zero_le _)
  | succ n ih =>
    have hzero : 0 * one ≤ 0 * nineTenths := by rw [Nat.zero_mul, Nat.zero_mul]
    exact (within_nextFrequency ih Binary64.representable_zero hzero).mono (Nat.zero_le _) le_rfl

/-- From 13/16 on the score does not fall below it again. -/
theorem within_frequencyAfter_of_ge {n : Nat} (h : 16 ≤ n) :
    Within (13 * 2 ^ 1070) one (frequencyAfter n) := by
  induction n, h using Nat.le_induction with
  | base =>
    have hbound : Within (round (13 * one) 16) (round (13 * one) 16)
        (Binary64.ofRatio false (13 * one) 16) :=
      ⟨_, Binary64.representable_round (by decide +kernel), dif_pos (by decide +kernel), le_rfl,
        le_rfl⟩
    have hnot : Binary64.lt (frequencyAfter 16) (Binary64.ofRatio false (13 * one) 16) = false := by
      decide +kernel
    exact ((within_frequencyAfter 16).le_of_not_lt hbound hnot).mono (by decide +kernel) le_rfl
  | succ n _ ih =>
    have hrep : Representable (23 * 2 ^ 1069) := ⟨⟨23, 1069, by decide, rfl⟩, by decide +kernel⟩
    exact (within_nextFrequency ih hrep (by decide +kernel)).mono (by decide +kernel) le_rfl

/-- The score exceeds 0.8 from the 16th access on. -/
theorem lt_frequencyAfter_iff (n : Nat) :
    Binary64.lt (ofDecimal 8 1) (frequencyAfter n) = true ↔ 16 ≤ n := by
  have h8 : Within (round (8 * one) (10 ^ 1)) (round (8 * one) (10 ^ 1)) (ofDecimal 8 1) :=
    Binary64.within_ofDecimal (by decide +kernel)
  constructor
  · intro hlt
    by_contra hn
    have hsmall : ∀ k < 16, Binary64.lt (ofDecimal 8 1) (frequencyAfter k) = false := by
      decide +kernel
    exact Bool.false_ne_true ((hsmall n (by omega)).symm.trans hlt)
  · intro hn
    exact h8.lt_of_lt (within_frequencyAfter_of_ge hn) (by decide +kernel)

end DefaultLearningPolicy

/-- The scores of a pattern after so many accesses are numbers from 0 to 1. -/
structure MemoryPattern.Scored (n : Nat) (p : MemoryPattern) : Prop where
  confidence : Within 0 one p.confidence
  recency : Within 0 one p.recencyScore
  frequency : p.frequencyScore = DefaultLearningPolicy.frequencyAfter n
  accessCount : p.accessCount = UInt32.ofNat n

namespace DefaultLearningPolicy

variable {p q : MemoryPattern}

theorem within_learnStride (h : Within 0 one p.confidence) (stride : Int64) :
    Within 0 one (learnStride p stride).confidence := by
  rw [learnStride]
  split_ifs <;> dsimp only
  · have hsum : Within 0 (2 * one) (Binary64.add p.confidence (ofDecimal 1 1)) := by
      refine h.add within_tenth Binary64.representable_zero
        (Binary64.representable_mul_one (by decide)) (Nat.zero_le _) ?_
      have : tenth ≤ one := by decide +kernel
      omega
    exact (Binary64.within_one.min hsum).mono (Nat.zero_le _) (Nat.min_le_left _ _)
  · have hpos : Binary64.lt (ofDecimal 5 2) (ofNat 0) = false :=
      within_twentieth.not_lt_of_le Binary64.within_ofNat_zero (Nat.zero_le _)
    exact h.max_zero_sub_le Binary64.representable_one hpos

/-- What a step of the default policy does to the scores and the count. -/
theorem learnStep_spec {address now : UInt64} (h : learnStep p address now = some q) :
    (q.confidence = p.confidence ∨ ∃ stride, q.confidence = (learnStride
        { p with accessCount := p.accessCount + 1, lastSeen := now } stride).confidence) ∧
      q.recencyScore = ofNat 1 ∧ q.frequencyScore = nextFrequency p.frequencyScore ∧
      q.accessCount = p.accessCount + 1 := by
  obtain ⟨learned, hlearned, rfl⟩ := Option.map_eq_some_iff.mp h
  dsimp only at hlearned ⊢
  split_ifs at hlearned
  · obtain ⟨stride, -, rfl⟩ := Option.map_eq_some_iff.mp hlearned
    have hsame (r : MemoryPattern) : (learnStride r stride).frequencyScore = r.frequencyScore ∧
        (learnStride r stride).accessCount = r.accessCount := by
      rw [learnStride]
      split_ifs <;> exact ⟨rfl, rfl⟩
    refine ⟨.inr ⟨stride, rfl⟩, rfl, ?_, (hsame _).2⟩
    rw [(hsame _).1]
    rfl
  · obtain rfl := Option.some.inj hlearned
    exact ⟨.inl rfl, rfl, rfl, rfl⟩

theorem scored_learnStep {n : Nat} {address now : UInt64} (hp : p.Scored n)
    (h : learnStep p address now = some q) : q.Scored (n + 1) := by
  obtain ⟨hconf, hrec, hfreq, haccess⟩ := learnStep_spec h
  refine ⟨?_, ?_, ?_, ?_⟩
  · rcases hconf with heq | ⟨stride, heq⟩
    · rw [heq]
      exact hp.confidence
    · rw [heq]
      refine within_learnStride ?_ stride
      dsimp only
      exact hp.confidence
  · rw [hrec]
    exact Binary64.within_one.mono (Nat.zero_le _) le_rfl
  · rw [hfreq, hp.frequency, frequencyAfter]
  · rw [haccess, hp.accessCount, UInt32.ofNat_add]
    rfl

end DefaultLearningPolicy

theorem HybridPredictor.tier_forecast_iff (p : MemoryPattern) :
    (HybridPredictor.forecast p).1 = TierClass.kVram ↔
      p.lastStride ≠ 0 ∧ Binary64.lt (ofDecimal 7 1) p.confidence = true ∨
        Binary64.lt (ofDecimal 8 1) p.frequencyScore = true := by
  have hnvme : TierClass.kNvme ≠ TierClass.kVram := by decide
  have hram : TierClass.kRam ≠ TierClass.kVram := by decide
  rw [forecast]
  split_ifs with hstride hfrequency hrecency
  · simpa using Or.inl hstride
  · simp [hfrequency]
  · simp_all
  · simp_all

namespace PatternLearningEngine

variable {e e' : PatternLearningEngine} {id : ObjectId}

/-- The pattern that an access learns from. -/
def started (e : PatternLearningEngine) (id : ObjectId) : MemoryPattern :=
  let pattern := (e.patternDb.lookup id).getD {}
  if pattern.objectId = ObjectId.kNull then { pattern with objectId := id } else pattern

theorem started_of_none (h : e.patternDb.lookup id = none) :
    e.started id = { objectId := id } := by
  simp [started, h]

theorem lookup_learnAccess {address startTime endTime : UInt64}
    (hs : e.learnAccess id address startTime endTime = some e') :
    ∃ q, DefaultLearningPolicy.learnStep (e.started id) address startTime = some q ∧
      e'.patternDb = e.patternDb.insert id q := by
  obtain ⟨q, hq, rfl⟩ := Option.map_eq_some_iff.mp hs
  refine ⟨q, ?_, rfl⟩
  simpa [started] using hq

/-- What a decay leaves of a pattern. -/
def survivor (decayFactor : Binary64) (p : MemoryPattern) : Option MemoryPattern :=
  if Binary64.lt (decayed decayFactor p).confidence (ofDecimal 1 1) &&
      Binary64.lt (decayed decayFactor p).recencyScore (ofDecimal 1 1) then none
  else some (decayed decayFactor p)

theorem lookup_decayPattern (decayFactor : Binary64) (e : PatternLearningEngine)
    (id id' : UInt64) :
    (e.decayPattern decayFactor id).patternDb.lookup id' =
      if id' = id then (e.patternDb.lookup id').bind (survivor decayFactor)
      else e.patternDb.lookup id' := by
  rw [decayPattern]
  by_cases hid : id' = id
  · subst hid
    rw [if_pos rfl]
    cases hp : e.patternDb.lookup id' with
    | none => simpa using hp
    | some p =>
      rw [Option.bind_some, survivor]
      dsimp only
      split_ifs
      · exact AList.lookup_erase _ _
      · exact AList.lookup_insert _
  · rw [if_neg hid]
    cases e.patternDb.lookup id with
    | none => rfl
    | some p =>
      dsimp only
      split_ifs
      · exact AList.lookup_erase_ne hid
      · exact AList.lookup_insert_ne hid

theorem lookup_foldl_decayPattern (decayFactor : Binary64) (order : List UInt64)
    (hnodup : order.Nodup) (e : PatternLearningEngine) (id : UInt64) :
    (order.foldl (decayPattern decayFactor) e).patternDb.lookup id =
      if id ∈ order then (e.patternDb.lookup id).bind (survivor decayFactor)
      else e.patternDb.lookup id := by
  induction order generalizing e with
  | nil => simp
  | cons id' order ih =>
    obtain ⟨hnot, hnodup⟩ := List.nodup_cons.mp hnodup
    rw [List.foldl_cons, ih hnodup, lookup_decayPattern]
    by_cases hid : id = id'
    · subst hid
      simp [hnot]
    · simp [hid]

theorem step_decay {decayFactor : Binary64} {order : List UInt64}
    (hs : e.step (.decayPatterns decayFactor order) = some e') (id : UInt64) :
    e'.patternDb.lookup id = (e.patternDb.lookup id).bind (survivor decayFactor) := by
  obtain ⟨horder, hs⟩ := Option.ite_none_right_eq_some.mp hs
  obtain rfl := Option.some.inj hs
  have hnodup : order.Nodup := horder.nodup_iff.mpr e.patternDb.nodupKeys
  rw [decayPatterns]
  dsimp only
  rw [lookup_foldl_decayPattern decayFactor order hnodup]
  by_cases hmem : id ∈ order
  · rw [if_pos hmem]
  · rw [if_neg hmem, AList.lookup_eq_none.mpr fun h => hmem (horder.mem_iff.mpr h)]
    rfl

theorem eq_of_survivor {decayFactor : Binary64} {p q : MemoryPattern}
    (h : survivor decayFactor p = some q) : q = decayed decayFactor p := by
  rw [survivor] at h
  split_ifs at h
  exact (Option.some.inj h).symm

/-- Decays take away, and what they take is not negative. -/
def Action.Decays : Action → Prop
  | .decayPatterns decayFactor _ => Binary64.lt decayFactor (ofNat 0) = false
  | .learnAccess _ _ _ _ => True

def Action.accesses (id : ObjectId) : Action → Bool
  | .learnAccess objectId _ _ _ => objectId = id
  | .decayPatterns _ _ => false

/-- The accesses of an object since it last had no pattern, if there were `n` so far. -/
def accessesSince (id : ObjectId) (e : PatternLearningEngine) (n : Nat) : List Action → Nat
  | [] => n
  | a :: as =>
    match e.step a with
    | none => n
    | some e' =>
      let m := if (e'.patternDb.lookup id).isNone then 0 else n + (a.accesses id).toNat
      accessesSince id e' m as

/-- The object has no pattern, or one that is scored by the accesses since it has one. -/
structure Scored (id : ObjectId) (n : Nat) (e : PatternLearningEngine) : Prop where
  unknown : e.patternDb.lookup id = none → n = 0
  scored : ∀ p, e.patternDb.lookup id = some p → p.Scored n

theorem scored_default (id : ObjectId) : MemoryPattern.Scored 0 { objectId := id } where
  confidence := by
    have hhalf : round (5 * one) (10 ^ 1) ≤ one := by decide +kernel
    have hwithin := @Binary64.within_ofDecimal 5 1 (hhalf.trans Binary64.representable_one.2)
    dsimp only
    exact hwithin.mono (Nat.zero_le _) hhalf
  recency := by
    dsimp only
    exact Binary64.within_ofNat_zero.mono le_rfl (Nat.zero_le _)
  frequency := by
    dsimp only
    rfl
  accessCount := by
    dsimp only
    rfl

theorem Scored.started {n : Nat} (h : e.Scored id n) : (e.started id).Scored n := by
  cases hp : e.patternDb.lookup id with
  | none =>
    rw [started_of_none hp, h.unknown hp]
    exact scored_default id
  | some p =>
    have hs := h.scored p hp
    rw [PatternLearningEngine.started, hp, Option.getD_some]
    split_ifs
    · exact ⟨hs.confidence, hs.recency, hs.frequency, hs.accessCount⟩
    · exact hs

theorem scored_decayed {decayFactor : Binary64} {n : Nat} {p : MemoryPattern} (h : p.Scored n)
    (hpos : Binary64.lt decayFactor (ofNat 0) = false) : (decayed decayFactor p).Scored n where
  confidence := by
    rw [decayed]
    dsimp only
    exact h.confidence.max_zero_sub_le Binary64.representable_one hpos
  recency := by
    rw [decayed]
    dsimp only
    exact h.recency.max_zero_sub_le Binary64.representable_one hpos
  frequency := by
    rw [decayed]
    dsimp only
    exact h.frequency
  accessCount := by
    rw [decayed]
    dsimp only
    exact h.accessCount

theorem Scored.step {n : Nat} {a : Action} (h : e.Scored id n) (hok : a.Decays)
    (hs : e.step a = some e') :
    e'.Scored id (if (e'.patternDb.lookup id).isNone then 0 else n + (a.accesses id).toNat) := by
  cases hp : e'.patternDb.lookup id with
  | none =>
    refine ⟨fun _ => rfl, fun p hp' => ?_⟩
    cases hp.symm.trans hp'
  | some p =>
    refine ⟨fun hnone => ?_, fun p' hp' => ?_⟩
    · cases hnone.symm.trans hp
    obtain rfl := Option.some.inj (hp.symm.trans hp')
    rw [Option.isNone_some, if_neg Bool.false_ne_true]
    cases a with
    | learnAccess objectId address startTime endTime =>
      obtain ⟨q, hq, hdb⟩ := lookup_learnAccess hs
      rw [hdb] at hp
      by_cases hid : id = objectId
      · subst hid
        rw [AList.lookup_insert] at hp
        obtain rfl := Option.some.inj hp
        simpa [Action.accesses] using DefaultLearningPolicy.scored_learnStep h.started hq
      · rw [AList.lookup_insert_ne hid] at hp
        simpa [Action.accesses, Ne.symm hid] using h.scored p hp
    | decayPatterns decayFactor order =>
      rw [step_decay hs] at hp
      obtain ⟨old, hold, hsurv⟩ := Option.bind_eq_some_iff.mp hp
      rw [eq_of_survivor hsurv]
      exact scored_decayed (h.scored old hold) hok

theorem Scored.run {n : Nat} {actions : List Action} (h : e.Scored id n)
    (hok : ∀ a ∈ actions, a.Decays)
    (hrun : Runs.run PatternLearningEngine.step e actions = some e') :
    e'.Scored id (accessesSince id e n actions) := by
  induction actions generalizing e n with
  | nil =>
    obtain rfl := Option.some.inj hrun
    exact h
  | cons a actions ih =>
    obtain ⟨e₁, hs, hrest⟩ := Runs.run_cons_eq_some.mp hrun
    rw [List.forall_mem_cons] at hok
    rw [accessesSince, hs]
    exact ih (h.step hok.1 hs) hok.2 hrest

theorem scored_of_run {actions : List Action} (h : Runs.run step {} actions = some e)
    (hok : ∀ a ∈ actions, a.Decays) : e.Scored id (accessesSince id {} 0 actions) :=
  Scored.run ⟨fun _ => rfl, fun p hp => absurd hp (Option.some_ne_none p).symm⟩ hok h

/-- In every run whose decays are not negative the three scores of a pattern are numbers
from 0 to 1, and the predictor expects the object in the video memory exactly if it has been
accessed at least 16 times since it was last forgotten, or has a stride with a confidence
above 0.7. -/
theorem scores_and_forecasts {actions : List Action} {p : MemoryPattern}
    (h : Runs.run step {} actions = some e) (hok : ∀ a ∈ actions, a.Decays)
    (hp : e.getPattern id = .ok p) (expectedNow expirationNow : UInt64) :
    Within 0 one p.confidence ∧ Within 0 one p.recencyScore ∧ Within 0 one p.frequencyScore ∧
      p.accessCount = UInt32.ofNat (accessesSince id {} 0 actions) ∧
      ∃ pred, HybridPredictor.predict expectedNow expirationNow id e = .ok pred ∧
        (pred.expectedTier = TierClass.kVram ↔ 16 ≤ accessesSince id {} 0 actions ∨
          p.lastStride ≠ 0 ∧ Binary64.lt (ofDecimal 7 1) p.confidence = true) := by
  have hlookup : e.patternDb.lookup id = some p := by
    rw [getPattern] at hp
    split at hp
    · rename_i q hq
      rw [hq, Except.ok.inj hp]
    · cases hp
  have hscored := (scored_of_run h hok).scored p hlookup
  refine ⟨hscored.confidence, hscored.recency, ?_, hscored.accessCount, ?_⟩
  · rw [hscored.frequency]
    exact DefaultLearningPolicy.within_frequencyAfter _
  · rw [HybridPredictor.predict, hp]
    refine ⟨_, rfl, ?_⟩
    dsimp only
    rw [HybridPredictor.tier_forecast_iff, hscored.frequency,
      DefaultLearningPolicy.lt_frequencyAfter_iff, or_comm]

def accessedOnce : List Action := [.learnAccess 1 4096 0 0]

/-- One access, which is forgotten by a decay of 1, and sixteen more at one address, which
has no stride. -/
def forgottenOnce : List Action :=
  accessedOnce ++ .decayPatterns (ofNat 1) [1] :: List.replicate 16 (.learnAccess 1 4096 0 0)

theorem scores_and_forecasts_sixteen :
    ∃ e pred, Runs.run step {} forgottenOnce = some e ∧ accessesSince 1 {} 0 forgottenOnce = 16 ∧
      HybridPredictor.predict 0 0 1 e = .ok pred ∧ pred.expectedTier = TierClass.kVram := by
  have hrun : (Runs.run step {} forgottenOnce).map (fun e =>
      (e.patternDb.lookup 1).isSome) = some true := by decide +kernel
  have hcount : accessesSince 1 {} 0 forgottenOnce = 16 := by decide +kernel
  obtain ⟨e, he, hl⟩ := Option.map_eq_some_iff.mp hrun
  obtain ⟨p, hp⟩ := Option.isSome_iff_exists.mp hl
  have hget : e.getPattern 1 = .ok p := by rw [getPattern, hp]
  have hone : Binary64.lt (ofNat 1) (ofNat 0) = false := by decide +kernel
  have hok : ∀ a ∈ forgottenOnce, a.Decays := by
    simp [forgottenOnce, accessedOnce, Action.Decays, hone]
  obtain ⟨-, -, -, -, pred, hpred, htier⟩ := scores_and_forecasts he hok hget 0 0
  exact ⟨e, pred, he, hcount, hpred, htier.mpr (.inl hcount.ge)⟩

/-! ### Forgetting -/

open DefaultLearningPolicy (twentieth tenth)

/-- The highest score that so many decays of a twentieth leave. -/
def scoreBound : Nat → Nat
  | 0 => one
  | k + 1 => round (scoreBound k - twentieth) 1

theorem representable_scoreBound (k : Nat) : Representable (scoreBound k) ∧ scoreBound k ≤ one := by
  induction k with
  | zero => exact ⟨Binary64.representable_one, le_rfl⟩
  | succ k ih =>
    have hle : scoreBound (k + 1) ≤ one :=
      Binary64.round_le_of_le Nat.one_pos Binary64.representable_one (by omega)
    exact ⟨Binary64.representable_round (hle.trans Binary64.representable_one.2), hle⟩

theorem scoreBound_lt : scoreBound 18 < tenth := by decide +kernel

def Action.isDecay : Action → Bool
  | .decayPatterns _ _ => true
  | .learnAccess _ _ _ _ => false

/-- Decays take away a twentieth at least. -/
def Action.DecaysEnough : Action → Prop
  | .decayPatterns decayFactor _ => Binary64.lt decayFactor (ofDecimal 5 2) = false
  | .learnAccess _ _ _ _ => True

/-- The pattern is forgotten, or its scores have been taken down by the decays so far. -/
def Fading (id : ObjectId) (before : List Action) (e : PatternLearningEngine) : Prop :=
  e.patternDb.lookup id = none ∨ before.countP Action.isDecay < 18 ∧
    ∃ p, e.patternDb.lookup id = some p ∧
      Within 0 (scoreBound (before.countP Action.isDecay)) p.confidence ∧
      Within 0 (scoreBound (before.countP Action.isDecay)) p.recencyScore

theorem within_decayed {decayFactor : Binary64} {p : MemoryPattern} {k : Nat}
    (hok : Binary64.lt decayFactor (ofDecimal 5 2) = false)
    (hconf : Within 0 (scoreBound k) p.confidence) (hrec : Within 0 (scoreBound k) p.recencyScore) :
    Within 0 (scoreBound (k + 1)) (decayed decayFactor p).confidence ∧
      Within 0 (scoreBound (k + 1)) (decayed decayFactor p).recencyScore := by
  have hrep := (representable_scoreBound k).1
  rw [decayed]
  dsimp only
  exact ⟨hconf.max_zero_sub_round hrep hok DefaultLearningPolicy.within_twentieth,
    hrec.max_zero_sub_round hrep hok DefaultLearningPolicy.within_twentieth⟩

theorem fading_step {before : List Action} {a : Action} (h : Fading id before e)
    (hok : a.DecaysEnough ∧ a.accesses id = false) (hs : e.step a = some e') :
    Fading id (before ++ [a]) e' := by
  cases a with
  | learnAccess objectId address startTime endTime =>
    obtain ⟨q, -, hdb⟩ := lookup_learnAccess hs
    have hid : id ≠ objectId := by
      rintro rfl
      simp [Action.accesses] at hok
    have hcount : (before ++ [Action.learnAccess objectId address startTime endTime]).countP
        Action.isDecay = before.countP Action.isDecay := by simp [Action.isDecay]
    rw [Fading, hcount, hdb, AList.lookup_insert_ne hid]
    exact h
  | decayPatterns decayFactor order =>
    have hcount : (before ++ [Action.decayPatterns decayFactor order]).countP Action.isDecay =
        before.countP Action.isDecay + 1 := by simp [Action.isDecay]
    rw [Fading, hcount, step_decay hs]
    rcases h with hnone | ⟨hlt, p, hp, hconf, hrec⟩
    · rw [hnone]
      exact .inl rfl
    · rw [hp, Option.bind_some]
      obtain ⟨hconf', hrec'⟩ := within_decayed hok.1 hconf hrec
      by_cases hlast : before.countP Action.isDecay + 1 < 18
      · cases hsurv : survivor decayFactor p with
        | none => exact .inl rfl
        | some q =>
          rw [← eq_of_survivor hsurv] at hconf' hrec'
          exact .inr ⟨hlast, q, rfl, hconf', hrec'⟩
      · have h18 : before.countP Action.isDecay + 1 = 18 := by omega
        rw [h18] at hconf' hrec'
        have hlow := hconf'.lt_of_lt DefaultLearningPolicy.within_tenth scoreBound_lt
        have hlow' := hrec'.lt_of_lt DefaultLearningPolicy.within_tenth scoreBound_lt
        rw [survivor, hlow, hlow']
        exact .inl rfl

/-- After decays that were not negative, a pattern that is not accessed during 18 decays by
0.05 or more is forgotten. -/
theorem unused_patterns_forgotten {as bs : List Action} {s t : PatternLearningEngine}
    (h : Runs.run step {} as = some s) (hrest : Runs.run step s bs = some t)
    (hok : ∀ a ∈ as, a.Decays) (hbs : ∀ a ∈ bs, a.DecaysEnough ∧ a.accesses id = false)
    (hn : 18 ≤ bs.countP Action.isDecay) : t.getPattern id = .error .kNotFound := by
  have hstart : Fading id [] s := by
    cases hp : s.patternDb.lookup id with
    | none => exact .inl hp
    | some p =>
      have hscored := (scored_of_run h hok).scored p hp
      exact .inr ⟨by decide, p, hp, hscored.confidence, hscored.recency⟩
  have hfading := Runs.invariant_history (fun _ _ _ _ hu ha hs => fading_step hu ha hs) [] hstart
    (Runs.along_of_forall hbs s) hrest
  rw [List.nil_append] at hfading
  rcases hfading with hnone | ⟨hlt, -⟩
  · rw [getPattern, hnone]
  · omega

def decays (n : Nat) : List Action := List.replicate n (.decayPatterns (ofDecimal 5 2) [1])

/-- After one access 17 decays leave the pattern, and 18 do not. -/
theorem unused_patterns_forgotten_once :
    ∃ s t u, Runs.run step {} accessedOnce = some s ∧ Runs.run step s (decays 17) = some t ∧
      (∃ p, t.getPattern 1 = .ok p) ∧ Runs.run step s (decays 18) = some u ∧
      u.getPattern 1 = .error .kNotFound := by
  have hkept : ((Runs.run step {} accessedOnce).bind (Runs.run step · (decays 17))).map
      (fun t => (t.patternDb.lookup 1).isSome) = some true := by decide +kernel
  have hrun : ((Runs.run step {} accessedOnce).bind (Runs.run step · (decays 18))).isSome := by
    decide +kernel
  obtain ⟨t, ht, hsome⟩ := Option.map_eq_some_iff.mp hkept
  obtain ⟨p, hp⟩ := Option.isSome_iff_exists.mp hsome
  obtain ⟨s, hs, ht⟩ := Option.bind_eq_some_iff.mp ht
  rw [hs, Option.bind_some] at hrun
  obtain ⟨u, hu⟩ := Option.isSome_iff_exists.mp hrun
  have hok : ∀ a ∈ accessedOnce, a.Decays := by simp [accessedOnce, Action.Decays]
  have hself : Binary64.lt (ofDecimal 5 2) (ofDecimal 5 2) = false := by decide +kernel
  have hbs : ∀ a ∈ decays 18, a.DecaysEnough ∧ a.accesses 1 = false := by
    simp [decays, Action.DecaysEnough, Action.accesses, hself]
  exact ⟨s, t, u, hs, ht, ⟨p, by rw [getPattern, hp]⟩, hu,
    unused_patterns_forgotten hs hu hok hbs (by decide)⟩

/-! ### The counters -/

/-- Every pattern that was learned is active or forgotten. -/
structure Accounted (passes : Nat) (e : PatternLearningEngine) : Prop where
  keyed : e.Keyed
  learned : e.metrics.learnedPatternsCount =
    e.metrics.forgottenPatternsCount + UInt64.ofNat e.patternDb.entries.length
  active : e.metrics.activePatternsCount = UInt64.ofNat e.patternDb.entries.length
  passes : e.metrics.learningPasses = UInt64.ofNat passes

theorem length_decayPattern (decayFactor : Binary64) (e : PatternLearningEngine) (id : UInt64) :
    (e.decayPattern decayFactor id).metrics.forgottenPatternsCount +
        UInt64.ofNat (e.decayPattern decayFactor id).patternDb.entries.length =
      e.metrics.forgottenPatternsCount + UInt64.ofNat e.patternDb.entries.length ∧
    (e.decayPattern decayFactor id).metrics.learnedPatternsCount =
      e.metrics.learnedPatternsCount ∧
    (e.decayPattern decayFactor id).metrics.learningPasses = e.metrics.learningPasses := by
  rw [decayPattern]
  cases hp : e.patternDb.lookup id with
  | none => exact ⟨rfl, rfl, rfl⟩
  | some p =>
    dsimp only
    split_ifs
    · refine ⟨?_, rfl, rfl⟩
      rw [Table.length_erase hp, UInt64.ofNat_add, UInt64.add_assoc, UInt64.add_comm 1]
      rfl
    · refine ⟨?_, rfl, rfl⟩
      rw [AList.entries_insert, List.length_cons, Table.length_erase hp]
      rfl

theorem length_foldl_decayPattern (decayFactor : Binary64) (order : List UInt64)
    (e : PatternLearningEngine) :
    let e' := order.foldl (decayPattern decayFactor) e
    e'.metrics.forgottenPatternsCount + UInt64.ofNat e'.patternDb.entries.length =
        e.metrics.forgottenPatternsCount + UInt64.ofNat e.patternDb.entries.length ∧
      e'.metrics.learnedPatternsCount = e.metrics.learnedPatternsCount ∧
      e'.metrics.learningPasses = e.metrics.learningPasses := by
  induction order generalizing e with
  | nil => exact ⟨rfl, rfl, rfl⟩
  | cons id order ih =>
    obtain ⟨hsum, hlearned, hpasses⟩ := length_decayPattern decayFactor e id
    obtain ⟨hsum', hlearned', hpasses'⟩ := ih (e.decayPattern decayFactor id)
    exact ⟨hsum'.trans hsum, hlearned'.trans hlearned, hpasses'.trans hpasses⟩

def Action.NotNull : Action → Prop
  | .learnAccess objectId _ _ _ => objectId ≠ ObjectId.kNull
  | .decayPatterns _ _ => True

theorem Accounted.learnAccess {n : Nat} {address startTime endTime : UInt64}
    (h : e.Accounted n) (hid : id ≠ ObjectId.kNull)
    (hs : e.learnAccess id address startTime endTime = some e') : e'.Accounted (n + 1) := by
  have hkeyed := keyed_learnAccess h.keyed hs
  obtain ⟨q, -, rfl⟩ := Option.map_eq_some_iff.mp hs
  refine ⟨hkeyed, ?_, rfl, ?_⟩
  · dsimp only
    cases hp : e.patternDb.lookup id with
    | none =>
      rw [Table.length_insert hp, UInt64.ofNat_add, ← UInt64.add_assoc, ← h.learned]
      rfl
    | some old =>
      have hold : old.objectId ≠ ObjectId.kNull := fun hnull => hid (h.keyed id old hp ▸ hnull)
      have hsame : (e.patternDb.insert id q).entries.length = e.patternDb.entries.length := by
        rw [AList.entries_insert, List.length_cons, Table.length_erase hp]
        rfl
      simp only [Option.getD_some, hold, decide_false, Bool.false_eq_true, if_false, hsame]
      rw [h.learned, UInt64.add_zero]
  · rw [UInt64.ofNat_add, ← h.passes]
    rfl

theorem Accounted.step {before : List Action} {a : Action}
    (h : e.Accounted (before.countP fun b => !b.isDecay)) (hok : a.NotNull)
    (hs : e.step a = some e') :
    e'.Accounted ((before ++ [a]).countP fun b => !b.isDecay) := by
  cases a with
  | learnAccess objectId address startTime endTime =>
    have hcount : (before ++ [Action.learnAccess objectId address startTime endTime]).countP
        (fun b => !b.isDecay) = before.countP (fun b => !b.isDecay) + 1 := by
      simp [Action.isDecay]
    rw [hcount]
    exact h.learnAccess hok hs
  | decayPatterns decayFactor order =>
    have hkeyed := keyed_step h.keyed hs
    obtain ⟨-, hs⟩ := Option.ite_none_right_eq_some.mp hs
    obtain rfl := Option.some.inj hs
    obtain ⟨hsum, hlearned, hpasses⟩ := length_foldl_decayPattern decayFactor order e
    have hcount : (before ++ [Action.decayPatterns decayFactor order]).countP
        (fun b => !b.isDecay) = before.countP (fun b => !b.isDecay) := by
      simp [Action.isDecay]
    rw [hcount]
    exact ⟨hkeyed, hlearned.trans (h.learned.trans hsum.symm), rfl, hpasses.trans h.passes⟩

/-- Over every run on objects that are not null, the patterns that were learned are those in
the table and those forgotten, and the other two counters are the size of the table and the
number of accesses. -/
theorem learned_patterns_accounted {actions : List Action}
    (h : Runs.run step {} actions = some e) (hok : ∀ a ∈ actions, a.NotNull) :
    e.metrics.learnedPatternsCount =
        e.metrics.forgottenPatternsCount + UInt64.ofNat e.patternDb.entries.length ∧
      e.metrics.activePatternsCount = UInt64.ofNat e.patternDb.entries.length ∧
      e.metrics.learningPasses = UInt64.ofNat (actions.countP fun a => !a.isDecay) := by
  have hnew : Accounted (([] : List Action).countP fun a => !a.isDecay) {} :=
    ⟨fun _ p hp => absurd hp (Option.some_ne_none p).symm, rfl, rfl, rfl⟩
  have hstep (before : List Action) (u : PatternLearningEngine) (a : Action)
      (u' : PatternLearningEngine) (hu : u.Accounted (before.countP fun b => !b.isDecay))
      (ha : a.NotNull) (hs : u.step a = some u') :
      u'.Accounted ((before ++ [a]).countP fun b => !b.isDecay) := hu.step ha hs
  have hall := Runs.invariant_history hstep [] hnew (Runs.along_of_forall hok _) h
  exact ⟨hall.learned, hall.active, hall.passes⟩

theorem learned_patterns_accounted_forgotten :
    ∃ e, Runs.run step {} (accessedOnce ++ decays 18 ++ accessedOnce) = some e ∧
      e.metrics.learnedPatternsCount = 2 ∧
      e.metrics.learnedPatternsCount =
        e.metrics.forgottenPatternsCount + UInt64.ofNat e.patternDb.entries.length := by
  have hrun : (Runs.run step {} (accessedOnce ++ decays 18 ++ accessedOnce)).map
      (fun e => e.metrics.learnedPatternsCount) = some 2 := by decide +kernel
  obtain ⟨e, he, htwo⟩ := Option.map_eq_some_iff.mp hrun
  have hok : ∀ a ∈ accessedOnce ++ decays 18 ++ accessedOnce, a.NotNull := by
    simp [accessedOnce, decays, Action.NotNull, ObjectId.kNull]
  exact ⟨e, he, htwo, (learned_patterns_accounted he hok).1⟩

end PatternLearningEngine

end Ume
