import Ume.Concurrency.EpochReclaim
import Ume.Concurrency.EpochSequential

/-! From construction to destruction. A call of `reclaim` that no other thread
interrupts is the sequential one, which is what the destructor makes, and every
deleter handed to `retire` has run exactly once when the manager is gone. -/

namespace Ume

open Custody

namespace EpochRcu

/-- The deleters that the destructor runs: those of its own `reclaim`, then the rest. -/
def destroy (timeoutMs : UInt32) (rcu : EpochRcu) (clock : Nat → UInt64) : List Nat :=
  let r := rcu.reclaim timeoutMs clock
  r.2.1 ++ r.2.2.retiredList.map DeferredDeletion.deleter

theorem destroy_perm (timeoutMs : UInt32) (rcu : EpochRcu) (clock : Nat → UInt64) :
    (rcu.destroy timeoutMs clock).Perm (rcu.retiredList.map DeferredDeletion.deleter) := by
  simp only [destroy, reclaim]
  rw [← List.map_append, tryAdvanceEpoch_frame]
  exact (List.filter_append_perm _ _).map _

section Kept

variable {ι : Type*} {s s' : System ι}

/-- No deleter is lost: each one is in some place. -/
def Kept (s : System ι) : Prop := ∀ d < s.retires, ∃ l, d ∈ deletersAt s l

theorem Kept.mono (h : Kept s) (hsub : ∀ l, ∀ d ∈ deletersAt s l, ∃ l', d ∈ deletersAt s' l')
    (hretires : s'.retires = s.retires) : Kept s' := by
  intro d hd
  obtain ⟨l, hl⟩ := h d (hretires ▸ hd)
  exact hsub l d hl

theorem Kept.congr (h : Kept s) (hsame : ∀ l, deletersAt s' l = deletersAt s l)
    (hretires : s'.retires = s.retires) : Kept s' :=
  h.mono (fun l _ hd => ⟨l, (hsame l).symm ▸ hd⟩) hretires

variable [DecidableEq ι] {p : ι} {pc : Pc}

/-- A thread at a new place, where the retired list and the deleters that ran have
changed as well: nothing is lost if the thread's own deleters and the list are
accounted for. -/
theorem Kept.update (h : Kept s) (hpc : s'.pc = Function.update s.pc p pc)
    (hown : ∀ d ∈ (s.pc p).deleters, ∃ l, d ∈ deletersAt s' l)
    (hlist : ∀ d ∈ s.retiredList.map DeferredDeletion.deleter, ∃ l, d ∈ deletersAt s' l)
    (hran : s.ran ⊆ s'.ran) (hretires : s'.retires = s.retires) : Kept s' := by
  refine h.mono (fun l d hd => ?_) hretires
  cases l with
  | thread q =>
    by_cases hq : q = p
    · subst hq
      exact hown d hd
    · have hne : Place.thread q ≠ .thread p := fun heq => hq (Place.thread.inj heq)
      exact ⟨.thread q, (Once.deletersAt_of_ne hpc hne).symm ▸ hd⟩
  | retired => exact hlist d hd
  | ran => exact ⟨.ran, hran hd⟩

theorem Kept.setPc (h : Kept s) (hpc : s'.pc = Function.update s.pc p pc)
    (hown : (s.pc p).deleters = pc.deleters) (hlist : s'.retiredList = s.retiredList)
    (hran : s'.ran = s.ran) (hretires : s'.retires = s.retires) : Kept s' := by
  refine h.update hpc (fun d hd => ⟨.thread p, ?_⟩) (fun d hd => ⟨.retired, ?_⟩)
    (by rw [hran]; exact List.Subset.refl _) hretires
  · rw [Once.deletersAt_self hpc, ← hown]
    exact hd
  · rw [deletersAt, hlist]
    exact hd

theorem kept_next {timeoutMs : UInt32} {nowNs : UInt64} (h : Kept s)
    (hs : next timeoutMs s p nowNs = some s') : Kept s' := by
  cases hp : s.pc p with
  | idle => simp [next, hp] at hs
  | retirePush e d =>
    simp only [next, hp] at hs
    obtain rfl := Option.some.inj hs
    refine h.update rfl (fun x hx => ⟨.retired, ?_⟩) (fun x hx => ⟨.retired, ?_⟩)
      (List.Subset.refl _) rfl
    · rw [hp, Pc.deleters, List.mem_singleton] at hx
      simp [deletersAt, hx]
    · simp only [deletersAt, List.map_append, List.mem_append]
      exact .inl hx
  | advanceScan e n i caller =>
    simp only [next, hp] at hs
    repeat' split at hs
    all_goals obtain rfl := Option.some.inj hs
    · exact h.setPc rfl (by rw [hp]; rfl) rfl rfl rfl
    · exact h.setPc rfl (by rw [hp]; rfl) rfl rfl rfl
    · exact h.setPc rfl (by rw [hp]; cases caller <;> rfl) rfl rfl rfl
  | advanceEpoch e n i caller =>
    simp only [next, hp] at hs
    split at hs <;> obtain rfl := Option.some.inj hs <;>
      exact h.setPc rfl (by rw [hp]; rfl) rfl rfl rfl
  | advanceTime e n i caller =>
    simp only [next, hp] at hs
    split at hs <;> obtain rfl := Option.some.inj hs
    · exact h.setPc rfl (by rw [hp]; cases caller <;> rfl) rfl rfl rfl
    · exact h.setPc rfl (by rw [hp]; rfl) rfl rfl rfl
  | minScan m n i =>
    simp only [next, hp] at hs
    repeat' split at hs
    all_goals obtain rfl := Option.some.inj hs
    · exact h.setPc rfl (by rw [hp]; rfl) rfl rfl rfl
    · exact h.setPc rfl (by rw [hp]; rfl) rfl rfl rfl
    · refine h.update rfl (fun x hx => ?_) (fun x hx => ?_) (List.Subset.refl _) rfl
      · rw [hp] at hx
        cases hx
      · obtain ⟨item, hitem, rfl⟩ := List.mem_map.mp hx
        by_cases hold : item.epoch < m
        · refine ⟨.thread p, ?_⟩
          rw [Once.deletersAt_self rfl]
          exact List.mem_map_of_mem (List.mem_filter.mpr ⟨hitem, decide_eq_true hold⟩)
        · exact ⟨.retired, List.mem_map_of_mem (List.mem_filter.mpr ⟨hitem, by simpa using hold⟩)⟩
  | delete ds =>
    cases ds with
    | nil =>
      simp only [next, hp] at hs
      obtain rfl := Option.some.inj hs
      exact h.setPc rfl (by rw [hp]; rfl) rfl rfl rfl
    | cons d ds =>
      simp only [next, hp] at hs
      obtain rfl := Option.some.inj hs
      refine h.update rfl (fun x hx => ?_) (fun x hx => ⟨.retired, hx⟩)
        (List.subset_append_left _ _) rfl
      rw [hp, Pc.deleters, List.mem_cons] at hx
      rcases hx with rfl | hx
      · exact ⟨.ran, List.mem_append_right _ (List.mem_singleton_self _)⟩
      · refine ⟨.thread p, ?_⟩
        rw [Once.deletersAt_self rfl]
        exact hx
  | _ =>
    simp only [next, hp] at hs
    obtain rfl := Option.some.inj hs
    exact h.setPc rfl (by rw [hp]; rfl) rfl rfl rfl

theorem kept_step {timeoutMs : UInt32} (s : System ι) (a : Action ι) (s' : System ι) (h : Kept s)
    (hs : step timeoutMs s a = some s') : Kept s' := by
  cases a with
  | next p nowNs => exact kept_next h hs
  | retire p =>
    simp only [step] at hs
    split at hs
    · next hidle =>
      obtain rfl := Option.some.inj hs
      intro d hd
      by_cases hnew : d = s.retires
      · refine ⟨.thread p, ?_⟩
        rw [Once.deletersAt_self rfl, hnew]
        exact List.mem_singleton_self _
      · obtain ⟨l, hl⟩ := h d (by simp only at hd; omega)
        cases l with
        | thread q =>
          have hq : q ≠ p := by
            rintro rfl
            rw [deletersAt, hidle] at hl
            cases hl
          refine ⟨.thread q, ?_⟩
          rw [Once.deletersAt_of_ne rfl (show Place.thread q ≠ .thread p by simpa using hq)]
          exact hl
        | retired => exact ⟨.retired, hl⟩
        | ran => exact ⟨.ran, hl⟩
    · cases hs
  | enter p =>
    simp only [step] at hs
    repeat' split at hs
    · next i _ hidle =>
      obtain rfl := Option.some.inj hs
      exact h.setPc rfl (by rw [hidle.1]; rfl) rfl rfl rfl
    · cases hs
    · cases hs
  | tryAdvanceEpoch p | reclaim p =>
    simp only [step] at hs
    split at hs
    · next hidle =>
      obtain rfl := Option.some.inj hs
      exact h.setPc rfl (by rw [hidle]; rfl) rfl rfl rfl
    · cases hs
  | _ =>
    simp only [step] at hs
    repeat' split at hs
    all_goals cases hs
    all_goals exact h.congr (fun l => by cases l <;> rfl) rfl

/-- One deleter is run by a call of `reclaim`, the other is left to the destructor. -/
def retiring : List (Action (Fin 2)) :=
  [.retire 0, .next 0 0, .reclaim 1] ++ List.replicate 7 (.next 1 0) ++ [.retire 0, .next 0 0]

end Kept

section Alone

variable {ι : Type*} [DecidableEq ι] {timeoutMs : UInt32} {p : ι} {s t u : System ι}
  {times : List UInt64}

/-- The steps of one thread while no other takes one, with what its clock reads at each. -/
def runAlone (timeoutMs : UInt32) (p : ι) (s : System ι) (times : List UInt64) :
    Option (System ι) :=
  Runs.run (step timeoutMs) s (times.map (.next p))

theorem runAlone_append (h : runAlone timeoutMs p s times = some t) (times' : List UInt64) :
    runAlone timeoutMs p s (times ++ times') = runAlone timeoutMs p t times' := by
  rw [runAlone, List.map_append, Runs.run_append h]
  rfl

theorem runAlone_cons {nowNs : UInt64} (h : next timeoutMs s p nowNs = some t) :
    runAlone timeoutMs p s (nowNs :: times) = runAlone timeoutMs p t times :=
  Runs.run_cons (show step timeoutMs s (.next p nowNs) = some t from h) _

/-- The call that the thread is in ends with the last of the readings. -/
def Returns (timeoutMs : UInt32) (p : ι) (times : List UInt64) (s t : System ι) : Prop :=
  runAlone timeoutMs p s times = some t ∧ t.pc p = .idle

/-- A thread that has returned takes no step, so a call that is known to go on has not
returned before. -/
theorem Returns.le_length {n : Nat} (h : Returns timeoutMs p times s t)
    (hgoes : ∀ times' : List UInt64, times'.length = n →
      ∃ u, runAlone timeoutMs p s times' = some u) : n ≤ times.length := by
  by_contra hlt
  obtain ⟨k, rfl⟩ : ∃ k, n = times.length + (k + 1) := ⟨n - times.length - 1, by omega⟩
  obtain ⟨u, hu⟩ := hgoes (times ++ List.replicate (k + 1) 0) (by simp)
  rw [runAlone_append h.1, List.replicate_succ, runAlone, List.map_cons,
    Runs.run_cons_eq_some] at hu
  obtain ⟨v, hv, -⟩ := hu
  have hidle : next timeoutMs t p 0 = none := by simp [next, h.2]
  cases hidle.symm.trans hv

/-- What a number of steps leads to whatever the clock reads. -/
def Silent (timeoutMs : UInt32) (p : ι) (s t : System ι) : Prop :=
  ∃ n, ∀ times : List UInt64, times.length = n → runAlone timeoutMs p s times = some t

theorem Silent.refl (s : System ι) : Silent timeoutMs p s s :=
  ⟨0, fun times hn => by rw [List.length_eq_zero_iff.mp hn]; rfl⟩

theorem Silent.head (hs : ∀ nowNs, next timeoutMs s p nowNs = some t)
    (h : Silent timeoutMs p t u) : Silent timeoutMs p s u := by
  obtain ⟨n, hn⟩ := h
  refine ⟨n + 1, fun times hlen => ?_⟩
  obtain ⟨nowNs, rest, rfl⟩ := List.exists_cons_of_length_eq_add_one hlen
  rw [runAlone_cons (hs nowNs), hn rest (Nat.succ.inj hlen)]

theorem Silent.trans (h : Silent timeoutMs p s t) (h' : Silent timeoutMs p t u) :
    Silent timeoutMs p s u := by
  obtain ⟨n, hn⟩ := h
  obtain ⟨m, hm⟩ := h'
  refine ⟨n + m, fun times hlen => ?_⟩
  have hrun := runAlone_append (hn (times.take n) (by simp [hlen])) (times.drop n)
  rwa [List.take_append_drop, hm _ (by simp [hlen])] at hrun

theorem Silent.exists_runAlone (h : Silent timeoutMs p s t) :
    ∃ times, runAlone timeoutMs p s times = some t := by
  obtain ⟨n, hn⟩ := h
  exact ⟨List.replicate n 0, hn _ List.length_replicate⟩

theorem Silent.returns (h : Silent timeoutMs p s t) (hreturns : Returns timeoutMs p times s u) :
    ∃ rest, rest <:+ times ∧ Returns timeoutMs p rest t u := by
  obtain ⟨n, hn⟩ := h
  have hle := hreturns.le_length fun times' hlen => ⟨t, hn times' hlen⟩
  have hrun := runAlone_append (hn (times.take n) (by simp [hle])) (times.drop n)
  rw [List.take_append_drop, hreturns.1] at hrun
  exact ⟨times.drop n, List.drop_suffix n times, hrun.symm, hreturns.2⟩

@[simp] theorem setPc_setPc (s : System ι) (pc pc' : Pc) :
    (s.setPc p pc).setPc p pc' = s.setPc p pc' := by
  simp [System.setPc]

@[simp] theorem pc_setPc (s : System ι) (pc : Pc) : (s.setPc p pc).pc p = pc := by
  simp [System.setPc]

/-- The state in which `try_advance_epoch` returns to its caller. -/
def advanced (s : System ι) (p : ι) (caller : Caller) : Bool → System ι
  | true => { s.setPc p caller.resume with
      globalEpoch := s.globalEpoch + 1
      advances := s.advances + 1 }
  | false => s.setPc p caller.resume

/-- At one slot the scan of `try_advance_epoch` depends on the clock by its last reading. -/
theorem exists_visit (timeoutMs : UInt32) (p : ι) (s : System ι) (caller : Caller) {num i : Nat}
    (hi : i < num) : ∃ n, 0 < n ∧ ∀ times : List UInt64, times.length = n →
      runAlone timeoutMs p (s.setPc p (.advanceScan s.globalEpoch num i caller)) times =
        some (if ThreadEpochSlot.blocks timeoutMs s.globalEpoch (times.getLastD 0) (s.slots i) then
          s.setPc p caller.resume
        else s.setPc p (.advanceScan s.globalEpoch num (i + 1) caller)) := by
  cases hactive : (s.slots i).active with
  | false =>
    refine ⟨1, by decide, fun times hlen => ?_⟩
    obtain ⟨a, rfl⟩ := List.length_eq_one_iff.mp hlen
    rw [runAlone_cons (t := s.setPc p (.advanceScan s.globalEpoch num (i + 1) caller))
      (by simp [next, System.setPc, hi, hactive])]
    simp [runAlone, Runs.run, ThreadEpochSlot.blocks, hactive]
  | true =>
    have hload (a : UInt64) :
        next timeoutMs (s.setPc p (.advanceScan s.globalEpoch num i caller)) p a =
          some (s.setPc p (.advanceEpoch s.globalEpoch num i caller)) := by
      simp [next, System.setPc, hi, hactive]
    by_cases hold : (s.slots i).epoch < s.globalEpoch
    · refine ⟨3, by decide, fun times hlen => ?_⟩
      obtain ⟨a, b, c, rfl⟩ := List.length_eq_three.mp hlen
      rw [runAlone_cons (hload a),
        runAlone_cons (t := s.setPc p (.advanceTime s.globalEpoch num i caller))
          (by simp [next, System.setPc, hold])]
      by_cases htime : elapsedMs c (s.slots i).entryTimeNs < timeoutMs.toUInt64
      · rw [runAlone_cons (t := s.setPc p caller.resume) (by simp [next, System.setPc, htime])]
        simp [runAlone, Runs.run, ThreadEpochSlot.blocks, hactive, hold, htime]
      · rw [runAlone_cons (t := s.setPc p (.advanceScan s.globalEpoch num (i + 1) caller))
          (by simp [next, System.setPc, htime])]
        simp [runAlone, Runs.run, ThreadEpochSlot.blocks, hactive, hold, htime]
    · refine ⟨2, by decide, fun times hlen => ?_⟩
      obtain ⟨a, b, rfl⟩ := List.length_eq_two.mp hlen
      rw [runAlone_cons (hload a),
        runAlone_cons (t := s.setPc p (.advanceScan s.globalEpoch num (i + 1) caller))
          (by simp [next, System.setPc, hold])]
      simp [runAlone, Runs.run, ThreadEpochSlot.blocks, hactive, hold]

theorem silent_scanned (timeoutMs : UInt32) (p : ι) (s : System ι) (caller : Caller) (num : Nat) :
    Silent timeoutMs p (s.setPc p (.advanceScan s.globalEpoch num num caller))
      (advanced s p caller true) :=
  .head (fun nowNs => by simp [next, advanced, System.setPc]) (.refl _)

/-- The scan of `try_advance_epoch` from a slot on, for any readings at the slots. -/
theorem exists_scan (timeoutMs : UInt32) (p : ι) (s : System ι) (caller : Caller)
    (clock : Nat → UInt64) (k i : Nat) : ∃ times,
      runAlone timeoutMs p (s.setPc p (.advanceScan s.globalEpoch (i + k) i caller)) times =
        some (advanced s p caller (!(List.range' i k).any fun j =>
          ThreadEpochSlot.blocks timeoutMs s.globalEpoch (clock j) (s.slots j))) := by
  induction k generalizing i with
  | zero => exact (silent_scanned timeoutMs p s caller i).exists_runAlone
  | succ k ih =>
    obtain ⟨n, hn, hvisit⟩ := exists_visit timeoutMs p s caller (Nat.lt_add_of_pos_right k.succ_pos)
    have hrun := hvisit (List.replicate n (clock i)) List.length_replicate
    rw [List.getLastD_eq_getLast?, List.getLast?_replicate, if_neg hn.ne', Option.getD_some] at hrun
    rw [List.range'_succ, List.any_cons]
    cases hblocks : ThreadEpochSlot.blocks timeoutMs s.globalEpoch (clock i) (s.slots i) with
    | true =>
      rw [hblocks, if_pos rfl] at hrun
      exact ⟨_, hrun⟩
    | false =>
      rw [hblocks, if_neg (by decide), ← Nat.succ_add_eq_add_succ] at hrun
      obtain ⟨times, htimes⟩ := ih (i + 1)
      rw [← Nat.succ_add_eq_add_succ, Bool.false_or]
      exact ⟨_, (runAlone_append hrun times).trans htimes⟩

theorem Returns.exists_visit {caller : Caller} {num i : Nat} (hi : i < num)
    (h : Returns timeoutMs p times (s.setPc p (.advanceScan s.globalEpoch num i caller)) t) :
    ∃ nowNs ∈ times, ∃ rest, rest <:+ times ∧ Returns timeoutMs p rest
      (if ThreadEpochSlot.blocks timeoutMs s.globalEpoch nowNs (s.slots i) then
        s.setPc p caller.resume
      else s.setPc p (.advanceScan s.globalEpoch num (i + 1) caller)) t := by
  obtain ⟨n, hn, hvisit⟩ := EpochRcu.exists_visit timeoutMs p s caller hi
  have hle := h.le_length fun times' hlen => ⟨_, hvisit times' hlen⟩
  have hne : times.take n ≠ [] := by
    rw [← List.length_pos_iff_ne_nil, List.length_take]
    omega
  have hlast : (times.take n).getLastD 0 ∈ times := by
    rw [List.getLastD_eq_getLast?, List.getLast?_eq_getLast_of_ne_nil hne]
    exact List.mem_of_mem_take (List.getLast_mem hne)
  have hrun := runAlone_append (hvisit (times.take n) (by simp [hle])) (times.drop n)
  rw [List.take_append_drop, h.1] at hrun
  exact ⟨_, hlast, times.drop n, List.drop_suffix n times, hrun.symm, h.2⟩

theorem any_range'_update (f : Nat → UInt64 → Bool) (clock : Nat → UInt64) (i k : Nat)
    (nowNs : UInt64) :
    ((List.range' (i + 1) k).any fun j => f j (Function.update clock i nowNs j)) =
      (List.range' (i + 1) k).any fun j => f j (clock j) := by
  rw [Bool.eq_iff_iff, List.any_eq_true, List.any_eq_true]
  refine exists_congr fun j => and_congr_right fun hj => ?_
  have hne : j ≠ i := Nat.ne_of_gt (List.mem_range'_1.mp hj).1
  rw [Function.update_of_ne hne]

/-- The scan of a call that returns, with the readings that it took at the slots. -/
theorem Returns.exists_scan {caller : Caller} {k i : Nat} (h : Returns timeoutMs p times
      (s.setPc p (.advanceScan s.globalEpoch (i + k) i caller)) t) :
    ∃ clock : Nat → UInt64, (∀ j, clock j ∈ times) ∧ ∃ rest, Returns timeoutMs p rest
      (advanced s p caller (!(List.range' i k).any fun j =>
        ThreadEpochSlot.blocks timeoutMs s.globalEpoch (clock j) (s.slots j))) t := by
  induction k generalizing i times with
  | zero =>
    have hpos := h.le_length (n := 1) fun times' hlen => by
      obtain ⟨a, rfl⟩ := List.length_eq_one_iff.mp hlen
      exact ⟨_, runAlone_cons (t := advanced s p caller true)
        (by simp [next, advanced, System.setPc])⟩
    obtain ⟨rest, -, hrest⟩ := (silent_scanned timeoutMs p s caller i).returns h
    exact ⟨fun _ => times.get ⟨0, hpos⟩, fun _ => List.get_mem .., rest, hrest⟩
  | succ k ih =>
    obtain ⟨nowNs, hnow, rest, hsub, hrest⟩ := h.exists_visit (Nat.lt_add_of_pos_right k.succ_pos)
    rw [List.range'_succ]
    cases hblocks : ThreadEpochSlot.blocks timeoutMs s.globalEpoch nowNs (s.slots i) with
    | true =>
      rw [hblocks, if_pos rfl] at hrest
      refine ⟨fun _ => nowNs, fun _ => hnow, rest, ?_⟩
      rw [List.any_cons, hblocks, Bool.true_or]
      exact hrest
    | false =>
      rw [hblocks, if_neg (by decide), ← Nat.succ_add_eq_add_succ] at hrest
      obtain ⟨clock, hclock, rest', hrest'⟩ := ih hrest
      refine ⟨Function.update clock i nowNs, fun j => ?_, rest', ?_⟩
      · rw [Function.update_apply]
        split_ifs
        · exact hnow
        · exact hsub.subset (hclock j)
      · rw [List.any_cons, Function.update_self, hblocks, Bool.false_or, any_range'_update
          (fun j nowNs => ThreadEpochSlot.blocks timeoutMs s.globalEpoch nowNs (s.slots j))]
        exact hrest'

/-- The manager after `try_advance_epoch`, and the count of the advances. -/
def afterAdvance (timeoutMs : UInt32) (s : System ι) (clock : Nat → UInt64) : System ι :=
  { s with
    toEpochRcu := (s.toEpochRcu.tryAdvanceEpoch timeoutMs clock).2
    advances := s.advances + (s.toEpochRcu.tryAdvanceEpoch timeoutMs clock).1.toNat }

theorem advanced_eq_afterAdvance (timeoutMs : UInt32) (p : ι) (s : System ι) (caller : Caller)
    (clock : Nat → UInt64) :
    advanced s p caller (!(List.range' 0 (numSlots s)).any fun j =>
        ThreadEpochSlot.blocks timeoutMs s.globalEpoch (clock j) (s.slots j)) =
      (afterAdvance timeoutMs s clock).setPc p caller.resume := by
  rw [← List.range_eq_range']
  simp only [afterAdvance, tryAdvanceEpoch]
  split_ifs with hany
  · rw [show scannedSlots s.toEpochRcu = numSlots s from rfl] at hany
    rw [hany]
    simp [advanced, System.setPc]
  · rw [show scannedSlots s.toEpochRcu = numSlots s from rfl, Bool.not_eq_true] at hany
    rw [hany]
    simp [advanced, System.setPc]

/-- The scan for the smallest epoch of an active slot, from a slot on. -/
theorem silent_minScan (s : System ι) (m : UInt64) (k i : Nat) :
    Silent timeoutMs p (s.setPc p (.minScan m (i + k) i))
      (s.setPc p (.minScan ((List.range' i k).foldl (fun m j =>
        if (s.slots j).active then min m (s.slots j).epoch else m) m) (i + k) (i + k))) := by
  induction k generalizing m i with
  | zero => exact .refl _
  | succ k ih =>
    rw [List.range'_succ, List.foldl_cons]
    have hnext (m : UInt64) := ih m (i + 1)
    rw [show i + 1 + k = i + (k + 1) by omega] at hnext
    by_cases hactive : (s.slots i).active = true
    · refine .head (t := s.setPc p (.minEpoch m (i + (k + 1)) i)) (fun nowNs => ?_) ?_
      · simp [next, System.setPc, hactive]
      · rw [if_pos hactive]
        refine .head (fun nowNs => ?_) (hnext _)
        simp [next, System.setPc]
    · rw [if_neg hactive]
      refine .head (fun nowNs => ?_) (hnext m)
      simp [next, System.setPc, hactive]

theorem silent_delete (s : System ι) (ds : List Nat) :
    Silent timeoutMs p (s.setPc p (.delete ds)) { s.setPc p .idle with ran := s.ran ++ ds } := by
  induction ds generalizing s with
  | nil =>
    refine .head (fun nowNs => ?_) (.refl _)
    simp [next, System.setPc]
  | cons d ds ih =>
    have hnext := ih { s with ran := s.ran ++ [d] }
    rw [List.append_assoc, List.singleton_append] at hnext
    refine .head (fun nowNs => ?_) hnext
    simp [next, System.setPc]

/-- What `reclaim` leaves, with the readings at the slots. -/
def afterReclaim (timeoutMs : UInt32) (s : System ι) (clock : Nat → UInt64) : System ι :=
  { s with
    toEpochRcu := (s.toEpochRcu.reclaim timeoutMs clock).2.2
    advances := s.advances + (s.toEpochRcu.tryAdvanceEpoch timeoutMs clock).1.toNat
    ran := s.ran ++ (s.toEpochRcu.reclaim timeoutMs clock).2.1 }

/-- After the advance the rest of `reclaim` does not read the clock. -/
theorem silent_reclaim (hp : s.pc p = .idle) (clock : Nat → UInt64) :
    Silent timeoutMs p ((afterAdvance timeoutMs s clock).setPc p .minLoad)
      (afterReclaim timeoutMs s clock) := by
  let u := afterAdvance timeoutMs s clock
  let v : System ι := { u with toEpochRcu := (s.toEpochRcu.reclaim timeoutMs clock).2.2 }
  let ds := (s.toEpochRcu.reclaim timeoutMs clock).2.1
  have hscan : Silent timeoutMs p (u.setPc p .minLoad)
      (u.setPc p (.minScan u.minActiveEpoch (numSlots u) (numSlots u))) := by
    refine .head (t := u.setPc p (.minCount u.globalEpoch))
      (fun nowNs => by simp [next, System.setPc]) ?_
    refine .head (t := u.setPc p (.minScan u.globalEpoch (numSlots u) 0))
      (fun nowNs => by simp [next, System.setPc, numSlots]) ?_
    have hloop : Silent timeoutMs p _ _ := silent_minScan u u.globalEpoch (numSlots u) 0
    rwa [← List.range_eq_range', Nat.zero_add] at hloop
  have htake : Silent timeoutMs p
      (u.setPc p (.minScan u.minActiveEpoch (numSlots u) (numSlots u)))
      (v.setPc p (.delete ds)) := by
    refine .head (fun nowNs => ?_) (.refl _)
    simp only [next, pc_setPc, Nat.lt_irrefl, if_false, setPc_setPc]
    rfl
  have hback : Function.update s.pc p .idle = s.pc := by
    rw [← hp, Function.update_eq_self]
  have hend := hscan.trans (htake.trans (silent_delete v ds))
  simpa [v, u, ds, afterAdvance, afterReclaim, System.setPc, hback] using hend

/-- A call of `reclaim` during which no other thread takes a step does what the sequential
function does, whatever the other threads are in the middle of: for all readings of its clock
with which it returns, and there are some for whatever it is to read at the slots. -/
theorem reclaim_uninterrupted (hp : s.pc p = .idle) :
    (∀ (times : List UInt64) (t : System ι),
      Runs.run (step timeoutMs) s (.reclaim p :: times.map (.next p)) = some t →
        t.pc p = .idle → ∃ clock : Nat → UInt64, (∀ i, clock i ∈ times) ∧
          t = afterReclaim timeoutMs s clock) ∧
      ∀ clock : Nat → UInt64, ∃ times : List UInt64,
        Runs.run (step timeoutMs) s (.reclaim p :: times.map (.next p)) =
          some (afterReclaim timeoutMs s clock) := by
  have hcall : step timeoutMs s (.reclaim p) =
      some (s.setPc p (.advanceCount s.globalEpoch .reclaim)) := by
    simp [step, hp]
  have hcount : Silent timeoutMs p (s.setPc p (.advanceCount s.globalEpoch .reclaim))
      (s.setPc p (.advanceScan s.globalEpoch (0 + numSlots s) 0 .reclaim)) :=
    .head (fun nowNs => by simp [next, numSlots, System.setPc]) (.refl _)
  constructor
  · intro times t hrun hidle
    rw [Runs.run_cons hcall] at hrun
    obtain ⟨rest, hsub, hrest⟩ := hcount.returns ⟨hrun, hidle⟩
    obtain ⟨clock, hclock, rest', hrest'⟩ := hrest.exists_scan
    rw [advanced_eq_afterAdvance] at hrest'
    obtain ⟨rest'', -, hend⟩ := (silent_reclaim hp clock).returns hrest'
    refine ⟨clock, fun i => hsub.subset (hclock i), ?_⟩
    cases rest'' with
    | nil => exact (Option.some.inj hend.1).symm
    | cons nowNs rest'' =>
      obtain ⟨u, hu, -⟩ := Runs.run_cons_eq_some.mp hend.1
      have hnone : next timeoutMs (afterReclaim timeoutMs s clock) p nowNs = none := by
        simp [next, afterReclaim, hp]
      cases hnone.symm.trans hu
  · intro clock
    obtain ⟨times₁, h₁⟩ := hcount.exists_runAlone
    obtain ⟨times₂, h₂⟩ := exists_scan timeoutMs p s .reclaim clock (numSlots s) 0
    rw [advanced_eq_afterAdvance] at h₂
    have hsilent : Silent timeoutMs p _ _ := silent_reclaim hp clock
    obtain ⟨times₃, h₃⟩ := hsilent.exists_runAlone
    refine ⟨times₁ ++ (times₂ ++ times₃), ?_⟩
    rw [Runs.run_cons hcall]
    exact (runAlone_append h₁ _).trans ((runAlone_append h₂ _).trans h₃)

theorem reclaim_uninterrupted_pending : ∃ t : System (Fin 2),
    Runs.run (step 100) { retiredList := [⟨1, 0⟩], retires := 1 }
        (.reclaim 0 :: (List.replicate 7 5).map (.next 0)) = some t ∧
      t = afterReclaim 100 { retiredList := [⟨1, 0⟩], retires := 1 } (fun _ => 5) ∧
      t.ran = [0] ∧ t.retiredList = [] := by
  have hlog : (Runs.run (step 100) ({ retiredList := [⟨1, 0⟩], retires := 1 } : System (Fin 2))
      (.reclaim 0 :: (List.replicate 7 5).map (.next 0))).map (·.pc 0) = some .idle := by
    decide +kernel
  obtain ⟨t, hrun, hidle⟩ := Option.map_eq_some_iff.mp hlog
  obtain ⟨clock, hclock, rfl⟩ := (reclaim_uninterrupted rfl).1 _ t hrun hidle
  obtain rfl : clock = fun _ => 5 := funext fun i => List.eq_of_mem_replicate (hclock i)
  exact ⟨_, hrun, rfl, by decide +kernel, by decide +kernel⟩

end Alone

end EpochRcu

end Ume
