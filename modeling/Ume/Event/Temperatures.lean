import Mathlib.Data.List.Count
import Ume.Event.OptimizerTasks
import Ume.Lib.Rounding

/-! The temperatures of the objects over whole runs, in doubles. They stay between 0 and
100, and the tier of an object follows from how often it is accessed between the passes. -/

namespace Ume

open Binary64 (one ofNat ofDecimal round Within Representable)

namespace MemoryOptimizer

theorem representable_hundred : Representable (100 * one) :=
  Binary64.representable_mul_one (by decide)

section Ageing

variable {res : ResidencyInfo} {rate : Binary64} {u : Nat}

theorem within_aged {b : Nat} (hb : Representable b) (hrate : Binary64.lt rate (ofNat 0) = false)
    (h : Within 0 b res.temperature) : Within 0 b (aged rate res) :=
  h.max_zero_sub_le hb (h.not_neg_mul hrate)

/-- An access adds ten degrees up to a hundred. -/
theorem within_warmed {t : Binary64} {a : Nat} (ha : a ≤ 90)
    (h : Within (a * one) (100 * one) t) :
    Within ((a + 10) * one) (100 * one)
      (Binary64.min (ofNat 100) (Binary64.add t (ofNat 10))) := by
  have h10 : Within (10 * one) (10 * one) (ofNat 10) := Binary64.within_ofNat (by decide)
  have h100 : Within (100 * one) (100 * one) (ofNat 100) := Binary64.within_ofNat (by decide)
  have hsum : Within ((a + 10) * one) (110 * one) (Binary64.add t (ofNat 10)) :=
    h.add h10 (Binary64.representable_mul_one (by omega))
      (Binary64.representable_mul_one (by decide)) (Nat.add_mul _ _ _).le (by omega)
  refine (h100.min hsum).mono (Nat.le_min.mpr ⟨?_, le_rfl⟩) (Nat.min_le_left _ _)
  exact Nat.mul_le_mul_right _ (by omega)

theorem within_warmed_zero {t : Binary64} (h : Within 0 (100 * one) t) :
    Within 0 (100 * one) (Binary64.min (ofNat 100) (Binary64.add t (ofNat 10))) := by
  have hwarm := within_warmed (Nat.zero_le 90) ((Nat.zero_mul one).symm ▸ h)
  exact hwarm.mono (Nat.zero_le _) le_rfl

theorem exists_defaultRate :
    ∃ r h, ofDecimal 5 2 = .finite false r h ∧ 5 * one ≤ 100 * r ∧ 100 * r ≤ 6 * one := by
  obtain ⟨hr, h⟩ := @Binary64.exists_ofDecimal 5 2 (by decide +kernel)
  exact ⟨_, hr, h, by decide +kernel, by decide +kernel⟩

theorem within_aged_hot (h : Within (90 * one) (100 * one) res.temperature) :
    Within (84 * one) (100 * one) (aged (ofDecimal 5 2) res) := by
  obtain ⟨r, hr, hrate, -, hr6⟩ := exists_defaultRate
  have hwithin : Within r r (ofDecimal 5 2) := ⟨r, hr, hrate, le_rfl, le_rfl⟩
  have hloss : Within 0 (6 * one) (Binary64.mul res.temperature (ofDecimal 5 2)) := by
    refine h.mul hwithin Binary64.representable_zero
      (Binary64.representable_mul_one (by decide)) ?_ ?_
    · rw [Nat.zero_mul]
      exact Nat.zero_le _
    · calc 100 * one * r = 100 * r * one := Nat.mul_right_comm _ _ _
        _ ≤ 6 * one * one := Nat.mul_le_mul_right _ hr6
  exact h.max_zero_sub hloss (Binary64.representable_mul_one (by decide)) representable_hundred
    (by omega) (by omega)

/-- At the default rate an object that is not cold loses five percent in a pass, up to the
errors of two roundings. -/
theorem exists_aged (hu : Representable u) (ht : res.temperature = .finite false u hu)
    (hlow : 20 * one ≤ u) :
    ∃ v hv, aged (ofDecimal 5 2) res = .finite false v hv ∧ v * 10 ^ 6 ≤ u * 950001 := by
  obtain ⟨r, hr, hrate, hr5, hr6⟩ := exists_defaultRate
  have hr1 : r ≤ one := by omega
  have hm : round (u * r) one ≤ u :=
    Binary64.round_le_of_le Binary64.one_pos hu (Nat.mul_le_mul_left u hr1)
  have hv : round (u - round (u * r) one) 1 ≤ u :=
    Binary64.round_le_of_le Nat.one_pos hu (by omega)
  have hmul : Binary64.mul res.temperature (ofDecimal 5 2) =
      .finite false (round (u * r) one) (Binary64.representable_round (hm.trans hu.2)) := by
    rw [ht, hrate]
    exact dif_pos (hm.trans hu.2)
  have hsub : Binary64.sub res.temperature (Binary64.mul res.temperature (ofDecimal 5 2)) =
      .finite false (round (u - round (u * r) one) 1)
        (Binary64.representable_round (hv.trans hu.2)) := by
    rw [hmul, ht, Binary64.sub_finite hu _ hm]
    exact dif_pos (hv.trans hu.2)
  obtain ⟨hv', haged⟩ :=
    (show Within _ _ _ from ⟨_, _, hsub, le_rfl, le_rfl⟩).max_zero.exists_eq
  refine ⟨_, hv', haged, ?_⟩
  obtain ⟨hproduct, -⟩ := Binary64.round_error (n := u * r) Binary64.one_pos
  obtain ⟨-, hdiff⟩ := Binary64.round_error (n := u - round (u * r) one) Nat.one_pos
  have hbig : 2 ^ 60 ≤ u := le_trans (by decide +kernel) hlow
  have hpart : (2 ^ 53 - 1) * (5 * u) ≤ 2 ^ 53 * (100 * round (u * r) one) + 2 ^ 52 * 100 := by
    refine Nat.le_of_mul_le_mul_right ?_ Binary64.one_pos
    have hfive : 5 * u * one ≤ 100 * (u * r) := by
      calc 5 * u * one = u * (5 * one) := by ring
        _ ≤ u * (100 * r) := Nat.mul_le_mul_left u hr5
        _ = 100 * (u * r) := by ring
    have hcomm : (2 ^ 53 * (100 * round (u * r) one) + 2 ^ 52 * 100) * one =
        100 * (2 ^ 53 * (one * round (u * r) one) + 2 ^ 52 * one) := by ring
    rw [hcomm, Nat.mul_assoc]
    omega
  omega

end Ageing

theorem lookup_warmed (opt : MemoryOptimizer) (id : ObjectId) (sizeBytes : UInt64)
    (tier : TierClass) (now : UInt64) :
    ∃ res, (opt.recordAccess id sizeBytes tier now).residencyMap.lookup id = some res ∧
      res.currentTier = tier ∧
      res.temperature = Binary64.min (ofNat 100)
        (Binary64.add ((opt.residencyMap.lookup id).getD {}).temperature (ofNat 10)) :=
  ⟨_, AList.lookup_insert _, rfl, rfl⟩

theorem decayRate_age {opt : MemoryOptimizer} (hk : opt.Keyed) (order : List UInt64) :
    (opt.age order).decayRate = opt.decayRate := by
  induction order generalizing opt with
  | nil => rfl
  | cons id order ih => rw [age_cons, ih hk.ageObject, decayRate_ageObject hk]

theorem decayRate_processPending (opt : MemoryOptimizer) (placement : MemoryPlacementEngine)
    (clock : Nat → UInt64) (tasks : List MigrationTask) :
    (opt.processPending placement clock tasks).2.1.decayRate = opt.decayRate := by
  induction tasks generalizing opt placement clock with
  | nil => rfl
  | cons task tasks ih =>
    by_cases href : placement.Refuses task.objectId
    · rw [processPending_cons_of_refuses opt clock tasks href]
      exact ih _ _ _
    · rw [processPending_cons_of_not_refuses opt clock tasks href]
      exact ih _ _ _

/-- An object without pending tasks makes the move that the pass schedules for it. -/
theorem passMove_of_idle {opt : MemoryOptimizer} {placement : MemoryPlacementEngine}
    {id : ObjectId} (hidle : moves opt.pendingMigrations id = [])
    (hfree : ¬placement.Refuses id) : opt.passMove placement id = opt.scheduled id := by
  rw [passMove, if_neg hfree, due, hidle, List.nil_append]
  cases opt.scheduled id <;> rfl

theorem currentTier_of_cold {rate : Binary64} {res : ResidencyInfo} {b : Nat}
    (h : Within 0 b (aged rate res)) (hb : b < 20 * one) :
    (res.after (moveFor rate res)).currentTier ≠ TierClass.kVram := by
  have h20 : Within (20 * one) (20 * one) (ofNat 20) := Binary64.within_ofNat (by decide)
  have h80 : Within (80 * one) (80 * one) (ofNat 80) := Binary64.within_ofNat (by decide)
  have hcold : Binary64.lt (aged rate res) (ofNat 20) = true := h.lt_of_lt h20 hb
  have hnot : Binary64.lt (ofNat 80) (aged rate res) = false := h80.not_lt_of_le h (by omega)
  by_cases htier : res.currentTier = TierClass.kVram
  · rw [moveFor, if_pos ⟨hcold, htier⟩]
    exact vram_ne_ram.symm
  · rw [moveFor, if_neg fun h => htier h.2, if_neg fun h => Bool.false_ne_true (hnot ▸ h.1)]
    exact htier

theorem currentTier_of_hot {rate : Binary64} {res : ResidencyInfo} {a b : Nat}
    (h : Within a b (aged rate res)) (ha : 80 * one < a)
    (htier : res.currentTier = TierClass.kRam) :
    (res.after (moveFor rate res)).currentTier = TierClass.kVram := by
  have h80 : Within (80 * one) (80 * one) (ofNat 80) := Binary64.within_ofNat (by decide)
  have hhot : Binary64.lt (ofNat 80) (aged rate res) = true := h80.lt_of_lt h ha
  rw [moveFor, if_neg fun h => vram_ne_ram (h.2.symm.trans htier), if_pos ⟨hhot, htier⟩]
  rfl

end MemoryOptimizer

namespace OptimizerSystem

open MemoryOptimizer

variable {s s' t : OptimizerSystem} {a : Action} {id : ObjectId}

def Action.isPass : Action → Bool
  | .optimizePass _ _ => true
  | _ => false

def Action.accesses (id : ObjectId) : Action → Bool
  | .recordAccess objectId _ _ _ => objectId = id
  | _ => false

def Action.RateNotNegative : Action → Prop
  | .setDecayRate decayRate => Binary64.lt decayRate (ofNat 0) = false
  | _ => True

theorem defaultRate_not_neg : Binary64.lt (ofDecimal 5 2) (ofNat 0) = false := by
  obtain ⟨r, hr, h, -, -⟩ := exists_defaultRate
  have hwithin : Within r r (ofDecimal 5 2) := ⟨r, hr, h, le_rfl, le_rfl⟩
  exact hwithin.not_lt_of_le Binary64.within_ofNat_zero (Nat.zero_le _)

/-- What a pass leaves of the record of an object. -/
theorem lookup_pass {order : List UInt64} {clock : Nat → UInt64} (hk : s.optimizer.Keyed)
    (hs : s.step (.optimizePass order clock) = some s') (id : ObjectId) :
    s'.optimizer.residencyMap.lookup id =
      (s.optimizer.residencyMap.lookup id).map fun res =>
        { res.after (s.optimizer.passMove s.placement id) with
          temperature := aged s.optimizer.decayRate res } := by
  obtain ⟨horder, hopt, -⟩ := step_optimizePass hs
  rw [hopt]
  exact lookup_optimizePass hk horder s.placement clock id

theorem decayRate_pass {order : List UInt64} {clock : Nat → UInt64} (hk : s.optimizer.Keyed)
    (hs : s.step (.optimizePass order clock) = some s') :
    s'.optimizer.decayRate = s.optimizer.decayRate := by
  obtain ⟨-, hopt, -⟩ := step_optimizePass hs
  rw [hopt, optimizePass_eq]
  dsimp only
  rw [decayRate_processPending, decayRate_age hk]

/-- The table as it is when no rate has been negative. -/
structure Tempered (s : OptimizerSystem) : Prop where
  wellFormed : s.optimizer.WellFormed
  rate : Binary64.lt s.optimizer.decayRate (ofNat 0) = false
  within : ∀ id res, s.optimizer.residencyMap.lookup id = some res →
    Within 0 (100 * one) res.temperature

theorem tempered_new (placement : MemoryPlacementEngine) : Tempered ⟨{}, placement⟩ where
  wellFormed := new_tasksFresh.1
  rate := by
    dsimp only
    exact defaultRate_not_neg
  within _ _ h := absurd h (Option.some_ne_none _).symm

theorem Tempered.getD (h : s.Tempered) (id : ObjectId) :
    Within 0 (100 * one) ((s.optimizer.residencyMap.lookup id).getD {}).temperature := by
  cases hl : s.optimizer.residencyMap.lookup id with
  | none =>
    have h50 : Within (50 * one) (50 * one) (ofNat 50) := Binary64.within_ofNat (by decide)
    dsimp only [Option.getD_none]
    exact h50.mono (Nat.zero_le _) (Nat.mul_le_mul_right _ (by decide))
  | some res => exact h.within id res hl

theorem Tempered.step (h : s.Tempered) (hok : a.RateNotNegative) (hs : s.step a = some s') :
    s'.Tempered := by
  refine ⟨wellFormed_step h.wellFormed hs, ?_, ?_⟩
  · cases a with
    | setDecayRate decayRate =>
      obtain rfl := Option.some.inj hs
      exact hok
    | optimizePass order clock =>
      rw [decayRate_pass h.wellFormed.keyed hs]
      exact h.rate
    | recordAccess _ _ _ _ | enqueue _ _ | dequeue | clear =>
      obtain rfl := Option.some.inj hs
      exact h.rate
  · cases a with
    | recordAccess objectId sizeBytes tier now =>
      intro id res hres
      obtain rfl := Option.some.inj hs
      by_cases hid : id = objectId
      · subst hid
        obtain ⟨res', hres', -, htemp⟩ := lookup_warmed s.optimizer id sizeBytes tier now
        obtain rfl := Option.some.inj (hres'.symm.trans hres)
        rw [htemp]
        exact within_warmed_zero (h.getD id)
      · exact h.within id res (lookup_recordAccess_of_ne s.optimizer _ _ _ _ hid ▸ hres)
    | optimizePass order clock =>
      intro id res hres
      rw [lookup_pass h.wellFormed.keyed hs, Option.map_eq_some_iff] at hres
      obtain ⟨old, hold, rfl⟩ := hres
      dsimp only
      exact within_aged representable_hundred h.rate (h.within id old hold)
    | setDecayRate _ | enqueue _ _ | dequeue | clear =>
      obtain rfl := Option.some.inj hs
      exact h.within

/-- Without an access an object stays in the table, and gets no warmer. -/
theorem cools_step {b : Nat} (hb : Representable b) (h : s.Tempered)
    (hok : a.accesses id = false) (hs : s.step a = some s')
    (hwarm : ∃ res, s.optimizer.residencyMap.lookup id = some res ∧ Within 0 b res.temperature) :
    ∃ res, s'.optimizer.residencyMap.lookup id = some res ∧ Within 0 b res.temperature := by
  obtain ⟨res, hres, hwithin⟩ := hwarm
  cases a with
  | recordAccess objectId sizeBytes tier now =>
    obtain rfl := Option.some.inj hs
    have hid : id ≠ objectId := by
      rintro rfl
      simp [Action.accesses] at hok
    exact ⟨res, (lookup_recordAccess_of_ne s.optimizer _ _ _ _ hid).trans hres, hwithin⟩
  | optimizePass order clock =>
    have hlookup := lookup_pass h.wellFormed.keyed hs id
    rw [hres, Option.map_some] at hlookup
    refine ⟨_, hlookup, ?_⟩
    dsimp only
    exact within_aged hb h.rate hwithin
  | setDecayRate _ | enqueue _ _ | dequeue | clear =>
    obtain rfl := Option.some.inj hs
    exact ⟨res, hres, hwithin⟩

theorem tempered_of_run {as : List Action} (hs : s.Tempered)
    (hrate : ∀ a ∈ as, a.RateNotNegative) (h : Runs.run step s as = some t) : t.Tempered :=
  Runs.invariant_along (fun _ _ _ hu ha hstep => hu.step ha hstep) hs
    (Runs.along_of_forall hrate s) h

/-- As long as no negative rate is set, every temperature is a number from 0 to 100, and
only an access raises it. -/
theorem temperatures_bounded {placement : MemoryPlacementEngine} {as : List Action}
    (h : Runs.run step ⟨{}, placement⟩ as = some s) (hrate : ∀ a ∈ as, a.RateNotNegative)
    {res : ResidencyInfo} (hres : s.optimizer.residencyMap.lookup id = some res) :
    Within 0 (100 * one) res.temperature ∧
      ∀ bs t, Runs.run step s bs = some t →
        (∀ a ∈ bs, a.RateNotNegative ∧ a.accesses id = false) →
          ∃ res', t.optimizer.residencyMap.lookup id = some res' ∧
            Binary64.lt res.temperature res'.temperature = false := by
  have hs := tempered_of_run (tempered_new placement) hrate h
  have hwithin := hs.within id res hres
  refine ⟨hwithin, ?_⟩
  intro bs t hrun hbs
  obtain ⟨u, hu, htemp, -, -⟩ := hwithin
  have hself : Within u u res.temperature := ⟨u, hu, htemp, le_rfl, le_rfl⟩
  have hstep (v : OptimizerSystem) (a : Action) (v' : OptimizerSystem)
      (hv : v.Tempered ∧ ∃ res, v.optimizer.residencyMap.lookup id = some res ∧
        Within 0 u res.temperature)
      (ha : a.RateNotNegative ∧ a.accesses id = false) (hva : v.step a = some v') :
      v'.Tempered ∧ ∃ res, v'.optimizer.residencyMap.lookup id = some res ∧
        Within 0 u res.temperature :=
    ⟨hv.1.step ha.1 hva, cools_step hu hv.1 ha.2 hva hv.2⟩
  obtain ⟨-, res', hres', hwarm⟩ := Runs.invariant_along hstep
    ⟨hs, res, hres, hself.mono (Nat.zero_le _) le_rfl⟩ (Runs.along_of_forall hbs s) hrun
  exact ⟨res', hres', hself.not_lt_of_le hwarm le_rfl⟩

/-- Two accesses and a pass in between. -/
def accessedTwice : List Action :=
  [.recordAccess 1 64 TierClass.kRam 0, .optimizePass [1] fun _ => 0,
    .recordAccess 1 64 TierClass.kRam 1]

theorem temperatures_bounded_twice :
    ∃ s res, Runs.run step ⟨{}, ⟨4096, 4096, 4096, 0, 0, 0, [], ∅, 0, 0⟩⟩ accessedTwice = some s ∧
      s.optimizer.residencyMap.lookup 1 = some res ∧ Within 0 (100 * one) res.temperature := by
  have hrun : (Runs.run step ⟨{}, ⟨4096, 4096, 4096, 0, 0, 0, [], ∅, 0, 0⟩⟩ accessedTwice).map
      (fun s => (s.optimizer.residencyMap.lookup 1).isSome) = some true := by decide +kernel
  obtain ⟨s, hs, hl⟩ := Option.map_eq_some_iff.mp hrun
  obtain ⟨res, hres⟩ := Option.isSome_iff_exists.mp hl
  have hrate : ∀ a ∈ accessedTwice, a.RateNotNegative := by
    simp [accessedTwice, Action.RateNotNegative]
  exact ⟨s, res, hs, hres, (temperatures_bounded hs hrate hres).1⟩

/-- The decay rate is left alone, and the passes find no request for the object queued. -/
def Unhindered (id : ObjectId) (s : OptimizerSystem) : Action → Prop
  | .setDecayRate _ => False
  | .optimizePass _ _ => ¬s.placement.Refuses id
  | _ => True

instance (id : ObjectId) (s : OptimizerSystem) : ∀ a, Decidable (s.Unhindered id a)
  | .recordAccess _ _ _ _ => .isTrue trivial
  | .optimizePass _ _ => inferInstanceAs (Decidable (¬_))
  | .setDecayRate _ => .isFalse not_false
  | .enqueue _ _ => .isTrue trivial
  | .dequeue => .isTrue trivial
  | .clear => .isTrue trivial

/-- The default rate, and no task for the object. -/
structure Settled (id : ObjectId) (s : OptimizerSystem) : Prop extends Tempered s where
  default : s.optimizer.decayRate = ofDecimal 5 2
  idle : moves s.optimizer.pendingMigrations id = []

theorem settled_new (id : ObjectId) (placement : MemoryPlacementEngine) :
    Settled id ⟨{}, placement⟩ where
  toTempered := tempered_new placement
  default := by dsimp only
  idle := rfl

theorem Settled.step (h : s.Settled id) (hok : s.Unhindered id a) (hs : s.step a = some s') :
    s'.Settled id := by
  have hrate : a.RateNotNegative := by
    cases a with
    | setDecayRate _ => exact hok.elim
    | _ => trivial
  refine ⟨h.toTempered.step hrate hs, ?_, ?_⟩
  · cases a with
    | optimizePass order clock =>
      rw [decayRate_pass h.wellFormed.keyed hs]
      exact h.default
    | setDecayRate _ => exact hok.elim
    | recordAccess _ _ _ _ | enqueue _ _ | dequeue | clear =>
      obtain rfl := Option.some.inj hs
      exact h.default
  · cases a with
    | optimizePass order clock =>
      obtain ⟨horder, hopt, -⟩ := step_optimizePass hs
      rw [hopt, moves_optimizePass h.wellFormed.keyed horder, if_neg hok, due, h.idle,
        List.nil_append]
      cases s.optimizer.scheduled id <;> rfl
    | setDecayRate _ => exact hok.elim
    | recordAccess _ _ _ _ | enqueue _ _ | dequeue | clear =>
      obtain rfl := Option.some.inj hs
      exact h.idle

/-- What an unhindered pass leaves of the record. -/
theorem Settled.lookup_pass {order : List UInt64} {clock : Nat → UInt64} {res : ResidencyInfo}
    (h : s.Settled id) (hok : ¬s.placement.Refuses id)
    (hs : s.step (.optimizePass order clock) = some s')
    (hres : s.optimizer.residencyMap.lookup id = some res) :
    s'.optimizer.residencyMap.lookup id = some
      { res.after (moveFor (ofDecimal 5 2) res) with temperature := aged (ofDecimal 5 2) res } := by
  rw [OptimizerSystem.lookup_pass h.wellFormed.keyed hs, passMove_of_idle h.idle hok, scheduled,
    hres, h.default, Option.map_some, Option.bind_some]

/-- How far an object has cooled after so many passes: by five percent in each, and after
32 of them it is cold. -/
def CooledBy (n u : Nat) : Prop :=
  u < 20 * one ∨ n < 32 ∧ u * 10 ^ (6 * n) ≤ 100 * one * 950001 ^ n

theorem CooledBy.succ {n u v : Nat} (h : CooledBy n u) (hle : v ≤ u)
    (hstep : 20 * one ≤ u → v * 10 ^ 6 ≤ u * 950001) : CooledBy (n + 1) v := by
  by_cases hcold : u < 20 * one
  · exact .inl (hle.trans_lt hcold)
  · obtain ⟨hn, hbound⟩ := h.resolve_left hcold
    have hnext : v * 10 ^ (6 * (n + 1)) ≤ 100 * one * 950001 ^ (n + 1) := by
      calc v * 10 ^ (6 * (n + 1)) = v * 10 ^ 6 * 10 ^ (6 * n) := by ring
        _ ≤ u * 950001 * 10 ^ (6 * n) := Nat.mul_le_mul_right _ (hstep (not_lt.mp hcold))
        _ = u * 10 ^ (6 * n) * 950001 := Nat.mul_right_comm _ _ _
        _ ≤ 100 * one * 950001 ^ n * 950001 := Nat.mul_le_mul_right _ hbound
        _ = 100 * one * 950001 ^ (n + 1) := by ring
    by_cases hlast : n + 1 < 32
    · exact .inr ⟨hlast, hnext⟩
    · obtain rfl : n = 31 := by omega
      refine .inl (Nat.lt_of_mul_lt_mul_right (a := 10 ^ (6 * (31 + 1))) (hnext.trans_lt ?_))
      decide +kernel

/-- The passes so far have cooled the object, and the 32nd finds it cold. -/
structure Cooling (id : ObjectId) (before : List Action) (s : OptimizerSystem) : Prop
    extends Settled id s where
  cooled : ∀ res, s.optimizer.residencyMap.lookup id = some res →
    ∃ u hu, res.temperature = .finite false u hu ∧ CooledBy (before.countP Action.isPass) u
  left : 32 ≤ before.countP Action.isPass → s.optimizer.tierOf id ≠ some TierClass.kVram

theorem Settled.cooling (h : s.Settled id) : Cooling id [] s where
  toSettled := h
  cooled res hres := by
    obtain ⟨u, hu, htemp, -, hle⟩ := h.within id res hres
    refine ⟨u, hu, htemp, .inr ⟨by decide, ?_⟩⟩
    simpa using hle
  left hn := absurd hn (by decide)

theorem Cooling.step {before : List Action} (h : Cooling id before s)
    (hok : s.Unhindered id a ∧ a.accesses id = false) (hs : s.step a = some s') :
    Cooling id (before ++ [a]) s' := by
  have hsettled := h.toSettled.step hok.1 hs
  cases a with
  | optimizePass order clock =>
    have hcount : (before ++ [Action.optimizePass order clock]).countP Action.isPass =
        before.countP Action.isPass + 1 := by simp [Action.isPass]
    cases hres : s.optimizer.residencyMap.lookup id with
    | none =>
      have hnone : s'.optimizer.residencyMap.lookup id = none := by
        rw [OptimizerSystem.lookup_pass h.wellFormed.keyed hs, hres]
        rfl
      refine ⟨hsettled, ?_, ?_⟩
      · intro res hres'
        exact absurd (hnone.symm.trans hres') (Option.some_ne_none _).symm
      · intro _
        rw [tierOf, hnone]
        exact (Option.some_ne_none _).symm
    | some res =>
      have hnew := h.toSettled.lookup_pass hok.1 hs hres
      obtain ⟨u, hu, htemp, hcooled⟩ := h.cooled res hres
      have hself : Within 0 u res.temperature := ⟨u, hu, htemp, Nat.zero_le _, le_rfl⟩
      obtain ⟨v, hv, haged, -, hle⟩ := within_aged hu defaultRate_not_neg hself
      have hsucc : CooledBy (before.countP Action.isPass + 1) v := by
        refine hcooled.succ hle fun hlow => ?_
        obtain ⟨w, hw, haged', hwle⟩ := exists_aged hu htemp hlow
        obtain rfl : v = w := by
          have heq := haged.symm.trans haged'
          simp only [Binary64.finite.injEq, true_and] at heq
          exact heq
        exact hwle
      refine ⟨hsettled, ?_, ?_⟩
      · intro res' hres'
        obtain rfl := Option.some.inj (hnew.symm.trans hres')
        refine ⟨v, hv, ?_, hcount ▸ hsucc⟩
        dsimp only
        exact haged
      · intro hn
        rw [hcount] at hn
        have hcold : v < 20 * one := by
          rcases hsucc with hcold | ⟨hlt, -⟩
          · exact hcold
          · omega
        have haged0 : Within 0 v (aged (ofDecimal 5 2) res) :=
          ⟨v, hv, haged, Nat.zero_le _, le_rfl⟩
        rw [tierOf, hnew, Option.map_some]
        simpa using currentTier_of_cold haged0 hcold
  | recordAccess objectId sizeBytes tier now =>
    obtain rfl := Option.some.inj hs
    have hid : id ≠ objectId := by
      rintro rfl
      simp [Action.accesses] at hok
    have hlookup := lookup_recordAccess_of_ne s.optimizer objectId sizeBytes tier now hid
    have hcount : (before ++ [Action.recordAccess objectId sizeBytes tier now]).countP
        Action.isPass = before.countP Action.isPass := by simp [Action.isPass]
    refine ⟨hsettled, ?_, ?_⟩
    · intro res hres
      rw [hcount]
      exact h.cooled res (hlookup.symm.trans hres)
    · rw [hcount, tierOf, hlookup]
      exact h.left
  | setDecayRate _ => exact hok.1.elim
  | enqueue _ _ | dequeue | clear =>
    obtain rfl := Option.some.inj hs
    refine ⟨hsettled, ?_, ?_⟩
    · simpa [Action.isPass] using h.cooled
    · simpa [Action.isPass] using h.left

/-- At the default rate, and where no request for an object is still queued at a pass, an
object that is not accessed during 32 passes is no longer in the video memory. -/
theorem cold_objects_leave_vram {placement : MemoryPlacementEngine} {as bs : List Action}
    (h : Runs.run step ⟨{}, placement⟩ as = some s) (hrest : Runs.run step s bs = some t)
    (hok : Runs.Along step (Unhindered id) ⟨{}, placement⟩ as)
    (hok' : Runs.Along step (Unhindered id) s bs) (hno : ∀ a ∈ bs, a.accesses id = false)
    (hn : 32 ≤ bs.countP Action.isPass) : t.optimizer.tierOf id ≠ some TierClass.kVram := by
  have hs : s.Settled id :=
    Runs.invariant_along (fun _ _ _ hu ha hstep => hu.step ha hstep)
      (settled_new id placement) hok h
  have hcooling := Runs.invariant_history (fun _ _ _ _ hu ha hstep => hu.step ha hstep) []
    hs.cooling (Runs.along_and.mpr ⟨hok', Runs.along_of_forall hno s⟩) hrest
  exact hcooling.left hn

/-- An object as hot as it can be. -/
def heated (tier : TierClass) : List Action := List.replicate 9 (.recordAccess 1 64 tier 0)

def passes (n : Nat) : List Action := List.replicate n (.optimizePass [1] fun _ => 0)

/-- The object is still there after 31 passes, and is not after 32. -/
theorem cold_objects_leave_vram_heated :
    ∃ s t, Runs.run step ⟨{}, ⟨4096, 4096, 4096, 0, 0, 0, [], ∅, 0, 0⟩⟩
        (heated TierClass.kVram) = some s ∧
      (Runs.run step s (passes 31)).map (·.optimizer.tierOf 1) = some (some TierClass.kVram) ∧
      Runs.run step s (passes 32) = some t ∧ t.optimizer.tierOf 1 ≠ some TierClass.kVram := by
  obtain ⟨s, hs, hstays, hrun, hok'⟩ : ∃ s, Runs.run step
      ⟨{}, ⟨4096, 4096, 4096, 0, 0, 0, [], ∅, 0, 0⟩⟩ (heated TierClass.kVram) = some s ∧
        (Runs.run step s (passes 31)).map (·.optimizer.tierOf 1) = some (some TierClass.kVram) ∧
        (Runs.run step s (passes 32)).isSome ∧ Runs.Along step (Unhindered 1) s (passes 32) :=
    ⟨_, rfl, by decide +kernel, by decide +kernel, by decide +kernel⟩
  obtain ⟨t, ht⟩ := Option.isSome_iff_exists.mp hrun
  have hok : Runs.Along step (Unhindered 1) ⟨{}, ⟨4096, 4096, 4096, 0, 0, 0, [], ∅, 0, 0⟩⟩
      (heated TierClass.kVram) := by decide +kernel
  have hno : ∀ a ∈ passes 32, a.accesses 1 = false := by
    simp [passes, Action.accesses]
  exact ⟨s, t, hs, hstays, ht, cold_objects_leave_vram hs ht hok hok' hno (by decide)⟩

/-- The accesses since the last pass have warmed the object, in the memory. -/
structure Warming (id : ObjectId) (before : List Action) (s : OptimizerSystem) : Prop
    extends Settled id s where
  warmed : 0 < before.countP (Action.accesses id) →
    ∃ res, s.optimizer.residencyMap.lookup id = some res ∧ res.currentTier = TierClass.kRam ∧
      Within (Nat.min 9 (before.countP (Action.accesses id)) * 10 * one) (100 * one)
        res.temperature

theorem Warming.before {before : List Action} (h : Warming id before s) :
    Within (Nat.min 9 (before.countP (Action.accesses id)) * 10 * one) (100 * one)
      ((s.optimizer.residencyMap.lookup id).getD {}).temperature := by
  rcases Nat.eq_zero_or_pos (before.countP (Action.accesses id)) with hz | hpos
  · rw [hz, show Nat.min 9 0 * 10 = 0 from rfl, Nat.zero_mul]
    exact h.getD id
  · obtain ⟨res, hres, -, hwithin⟩ := h.warmed hpos
    rw [hres]
    exact hwithin

theorem Warming.step {before : List Action} (h : Warming id before s)
    (hok : s.Unhindered id a ∧ a.isPass = false ∧
      ∀ sizeBytes tier now, a = .recordAccess id sizeBytes tier now → tier = TierClass.kRam)
    (hs : s.step a = some s') : Warming id (before ++ [a]) s' := by
  obtain ⟨hun, hpass, htier⟩ := hok
  refine ⟨h.toSettled.step hun hs, ?_⟩
  cases a with
  | recordAccess objectId sizeBytes tier now =>
    obtain rfl := Option.some.inj hs
    by_cases hid : id = objectId
    · subst hid
      obtain ⟨res, hres, htier', htemp⟩ := lookup_warmed s.optimizer id sizeBytes tier now
      have hcount : (before ++ [Action.recordAccess id sizeBytes tier now]).countP
          (Action.accesses id) = before.countP (Action.accesses id) + 1 := by
        simp [Action.accesses]
      intro _
      refine ⟨res, hres, htier'.trans (htier _ _ _ rfl), ?_⟩
      rw [htemp, hcount]
      have hle : Nat.min 9 (before.countP (Action.accesses id)) ≤ 9 := Nat.min_le_left _ _
      have hnext : Nat.min 9 (before.countP (Action.accesses id) + 1) * 10 ≤
          Nat.min 9 (before.countP (Action.accesses id)) * 10 + 10 := by
        simp only [Nat.min_def]
        split_ifs <;> omega
      exact (within_warmed (by omega) h.before).mono (Nat.mul_le_mul_right _ hnext) le_rfl
    · have hlookup := lookup_recordAccess_of_ne s.optimizer objectId sizeBytes tier now hid
      have hcount : (before ++ [Action.recordAccess objectId sizeBytes tier now]).countP
          (Action.accesses id) = before.countP (Action.accesses id) := by
        simp [Action.accesses, Ne.symm hid]
      rw [hcount, hlookup]
      exact h.warmed
  | optimizePass order clock => exact absurd hpass (by simp [Action.isPass])
  | setDecayRate _ => exact hun.elim
  | enqueue _ _ | dequeue | clear =>
    obtain rfl := Option.some.inj hs
    simpa [Action.accesses] using h.warmed

/-- At the default rate, and where no request for it is still queued, an object in the
memory that is accessed nine times between two passes is in the video memory after the
second one. -/
theorem hot_objects_enter_vram {placement : MemoryPlacementEngine} {as bs : List Action}
    {order : List UInt64} {clock : Nat → UInt64} {u : OptimizerSystem}
    (h : Runs.run step ⟨{}, placement⟩ as = some s) (hrest : Runs.run step s bs = some t)
    (hpass : t.step (.optimizePass order clock) = some u)
    (hok : Runs.Along step (Unhindered id) ⟨{}, placement⟩ as)
    (hok' : Runs.Along step (Unhindered id) s bs) (hfree : ¬t.placement.Refuses id)
    (hbs : ∀ a ∈ bs, a.isPass = false ∧ ∀ sizeBytes tier now,
      a = .recordAccess id sizeBytes tier now → tier = TierClass.kRam)
    (hn : 9 ≤ bs.countP (Action.accesses id)) :
    u.optimizer.tierOf id = some TierClass.kVram := by
  have hs : s.Settled id :=
    Runs.invariant_along (fun _ _ _ hv ha hstep => hv.step ha hstep)
      (settled_new id placement) hok h
  have hstart : Warming id [] s := ⟨hs, fun hpos => absurd hpos (Nat.lt_irrefl 0)⟩
  have hwarming := Runs.invariant_history (fun _ _ _ _ hv ha hstep => hv.step ha hstep) []
    hstart (Runs.along_and.mpr ⟨hok', Runs.along_of_forall hbs s⟩) hrest
  rw [List.nil_append] at hwarming
  obtain ⟨res, hres, htier, hwithin⟩ := hwarming.warmed (by omega)
  rw [show Nat.min 9 _ = 9 from Nat.min_eq_left hn, show 9 * 10 = 90 from rfl] at hwithin
  have hhot := within_aged_hot hwithin
  have hmore : 80 * one < 84 * one := Nat.mul_lt_mul_of_pos_right (by decide) Binary64.one_pos
  rw [tierOf, hwarming.toSettled.lookup_pass hfree hpass hres, Option.map_some]
  simpa using currentTier_of_hot hhot hmore htier

theorem hot_objects_enter_vram_heated :
    ∃ t u, Runs.run step ⟨{}, ⟨4096, 4096, 4096, 0, 0, 0, [], ∅, 0, 0⟩⟩
        (heated TierClass.kRam) = some t ∧ t.step (.optimizePass [1] fun _ => 0) = some u ∧
      u.optimizer.tierOf 1 = some TierClass.kVram := by
  obtain ⟨t, ht, hpass, hfree⟩ : ∃ t, Runs.run step
      ⟨{}, ⟨4096, 4096, 4096, 0, 0, 0, [], ∅, 0, 0⟩⟩ (heated TierClass.kRam) = some t ∧
        (t.step (.optimizePass [1] fun _ => 0)).isSome ∧ ¬t.placement.Refuses 1 :=
    ⟨_, rfl, by decide +kernel, by decide +kernel⟩
  obtain ⟨u, hu⟩ := Option.isSome_iff_exists.mp hpass
  have hok : Runs.Along step (Unhindered 1) ⟨{}, ⟨4096, 4096, 4096, 0, 0, 0, [], ∅, 0, 0⟩⟩
      (heated TierClass.kRam) := by decide +kernel
  have hnil : Runs.run step ⟨{}, ⟨4096, 4096, 4096, 0, 0, 0, [], ∅, 0, 0⟩⟩ [] =
      some ⟨{}, ⟨4096, 4096, 4096, 0, 0, 0, [], ∅, 0, 0⟩⟩ := rfl
  have hbs : ∀ a ∈ heated TierClass.kRam, a.isPass = false ∧ ∀ sizeBytes tier now,
      a = .recordAccess 1 sizeBytes tier now → tier = TierClass.kRam := by
    simp +contextual [heated, Action.isPass]
  exact ⟨t, u, ht, hu, hot_objects_enter_vram hnil ht hu trivial hok hfree hbs (by decide)⟩

end OptimizerSystem

end Ume
