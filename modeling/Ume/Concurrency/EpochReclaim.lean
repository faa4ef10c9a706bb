import Ume.Concurrency.EpochSafety
import Ume.Lib.Custody

/-! Every deleter is in one place at a time: with the thread that retires it, in
the retired list, with the reclaimer that took it, or among those that have run.
So it runs at most once. With the epoch invariant this gives the guarantee of the
reclamation, up to the point where the 64-bit epoch comes round. -/

namespace Ume

open Custody

namespace EpochRcu

variable {ι : Type*}

inductive Place (ι : Type*) where
  | thread (p : ι)
  | retired
  | ran

def Pc.deleters : Pc → List Nat
  | .retirePush _ d => [d]
  | .delete ds => ds
  | _ => []

def deletersAt (s : System ι) : Place ι → List Nat
  | .thread p => (s.pc p).deleters
  | .retired => s.retiredList.map DeferredDeletion.deleter
  | .ran => s.ran

structure Once (s : System ι) : Prop where
  apart : Apart (deletersAt s)
  lt : ∀ l, ∀ d ∈ deletersAt s l, d < s.retires

theorem once_init : Once ({} : System ι) where
  apart :=
    { nodup := fun l => by cases l <;> exact List.nodup_nil
      unique := fun l _ d hd => by cases l <;> cases hd }
  lt l d hd := by cases l <;> cases hd

namespace Once

variable {s s' : System ι}

theorem transfer (h : Once s) {src dst : Place ι} {ds : List Nat} (hne : src ≠ dst)
    (hsplit : (ds ++ deletersAt s' src).Perm (deletersAt s src))
    (hdst : deletersAt s' dst = deletersAt s dst ++ ds)
    (hother : ∀ l, l ≠ src → l ≠ dst → deletersAt s' l = deletersAt s l)
    (hretires : s.retires = s'.retires) : Once s' where
  apart := h.apart.transfer hne hsplit hdst hother
  lt := forall_transfer (hretires ▸ h.lt) hsplit hdst hother

theorem congr (h : Once s) (hsame : ∀ l, deletersAt s' l = deletersAt s l)
    (hretires : s.retires = s'.retires) : Once s' := by
  have heq : deletersAt s' = deletersAt s := funext hsame
  exact ⟨heq ▸ h.apart, by rw [heq, ← hretires]; exact h.lt⟩

variable [DecidableEq ι] {p : ι} {pc : Pc}

theorem deletersAt_self (hpc : s'.pc = Function.update s.pc p pc) :
    deletersAt s' (.thread p) = pc.deleters := by
  rw [deletersAt, hpc, Function.update_self]

theorem deletersAt_of_ne (hpc : s'.pc = Function.update s.pc p pc) {p' : ι}
    (hne : Place.thread p' ≠ .thread p) :
    deletersAt s' (.thread p') = deletersAt s (.thread p') := by
  have hpp : p' ≠ p := fun hpp => hne (hpp ▸ rfl)
  rw [deletersAt, hpc, Function.update_of_ne hpp]
  rfl

theorem setPc (h : Once s) {old : Pc} (hp : s.pc p = old) (hsame : pc.deleters = old.deleters) :
    Once (s.setPc p pc) := by
  subst hp
  refine h.congr (fun l => ?_) rfl
  cases l with
  | thread p' =>
    by_cases hl : Place.thread p' = .thread p
    · cases hl
      exact (deletersAt_self rfl).trans hsame
    · exact deletersAt_of_ne rfl hl
  | retired => rfl
  | ran => rfl

theorem retire (h : Once s) {epoch : UInt64} (hp : s.pc p = .idle)
    (hpc : s'.pc = Function.update s.pc p (.retirePush epoch s.retires))
    (hlist : s'.retiredList = s.retiredList) (hran : s'.ran = s.ran)
    (hretires : s'.retires = s.retires + 1) : Once s' := by
  have hold : deletersAt s (.thread p) = [] := by rw [deletersAt, hp]; rfl
  have hfresh : ∀ l, s.retires ∉ deletersAt s l := fun l hd => Nat.lt_irrefl _ (h.lt l _ hd)
  have hself : deletersAt s' (.thread p) = deletersAt s (.thread p) ++ [s.retires] := by
    rw [deletersAt_self hpc, hold]
    rfl
  have hother : ∀ l ≠ .thread p, deletersAt s' l = deletersAt s l := by
    intro l hl
    cases l with
    | thread p' => exact deletersAt_of_ne hpc hl
    | retired => rw [deletersAt, hlist]; rfl
    | ran => exact hran
  refine ⟨h.apart.insert hfresh hself hother, fun l d hd => ?_⟩
  rw [hretires]
  by_cases hl : l = .thread p
  · subst hl
    rw [hself, hold, List.nil_append, List.mem_singleton] at hd
    omega
  · rw [hother l hl] at hd
    exact Nat.lt_succ_of_lt (h.lt l d hd)

theorem push (h : Once s) {epoch : UInt64} {d : Nat} (hp : s.pc p = .retirePush epoch d)
    (hpc : s'.pc = Function.update s.pc p .idle)
    (hlist : s'.retiredList = s.retiredList ++ [⟨epoch, d⟩]) (hran : s'.ran = s.ran)
    (hretires : s.retires = s'.retires) : Once s' := by
  refine h.transfer (show Place.thread p ≠ .retired by simp) (List.Perm.of_eq ?_)
    (show deletersAt s' .retired = deletersAt s .retired ++ [d] from ?_) ?_ hretires
  · rw [deletersAt_self hpc, deletersAt, hp]
    rfl
  · rw [deletersAt, hlist, List.map_append]
    rfl
  · intro l hl hr
    cases l with
    | thread p' => exact deletersAt_of_ne hpc hl
    | retired => exact absurd rfl hr
    | ran => exact hran

theorem take (h : Once s) {minEpoch : UInt64} (hp : (s.pc p).deleters = [])
    (hpc : s'.pc = Function.update s.pc p (.delete ((s.retiredList.filter (·.epoch < minEpoch)).map
      DeferredDeletion.deleter)))
    (hlist : s'.retiredList = s.retiredList.filter fun item => !(item.epoch < minEpoch))
    (hran : s'.ran = s.ran) (hretires : s.retires = s'.retires) : Once s' := by
  refine h.transfer (show Place.retired ≠ .thread p by simp) ?_
    (show deletersAt s' (.thread p) = deletersAt s (.thread p) ++ _ from
      (deletersAt_self hpc).trans (by rw [deletersAt, hp]; rfl)) ?_ hretires
  · rw [deletersAt, deletersAt, hlist, ← List.map_append]
    exact (List.filter_append_perm _ _).map _
  · intro l hl hr
    cases l with
    | thread p' => exact deletersAt_of_ne hpc hr
    | retired => exact absurd rfl hl
    | ran => exact hran

theorem delete (h : Once s) {d : Nat} {ds : List Nat} (hp : s.pc p = .delete (d :: ds))
    (hpc : s'.pc = Function.update s.pc p (.delete ds)) (hlist : s'.retiredList = s.retiredList)
    (hran : s'.ran = s.ran ++ [d]) (hretires : s.retires = s'.retires) : Once s' := by
  refine h.transfer (show Place.thread p ≠ .ran by simp) (List.Perm.of_eq ?_) hran ?_ hretires
  · rw [deletersAt_self hpc, deletersAt, hp]
    rfl
  · intro l hl hr
    cases l with
    | thread p' => exact deletersAt_of_ne hpc hl
    | retired => rw [deletersAt, hlist]; rfl
    | ran => exact absurd rfl hr

end Once

variable [DecidableEq ι]

theorem once_next {timeoutMs : UInt32} {s s' : System ι} {p : ι} {nowNs : UInt64} (h : Once s)
    (hs : next timeoutMs s p nowNs = some s') : Once s' := by
  cases hp : s.pc p with
  | idle => simp [next, hp] at hs
  | enterTime i e =>
    simp only [next, hp] at hs
    obtain rfl := Option.some.inj hs
    have hpc : Once (s.setPc p (.enterEpoch i e)) := h.setPc hp rfl
    exact hpc.congr (fun l => by cases l <;> rfl) rfl
  | enterEpoch i e =>
    simp only [next, hp] at hs
    obtain rfl := Option.some.inj hs
    have hpc : Once (s.setPc p (.enterActive i)) := h.setPc hp rfl
    exact hpc.congr (fun l => by cases l <;> rfl) rfl
  | enterActive i =>
    simp only [next, hp] at hs
    obtain rfl := Option.some.inj hs
    have hidle : Once (s.setPc p .idle) := h.setPc hp rfl
    exact hidle.congr (fun l => by cases l <;> rfl) rfl
  | retirePush e d =>
    simp only [next, hp] at hs
    obtain rfl := Option.some.inj hs
    exact h.push hp rfl rfl rfl rfl
  | advanceScan e n i caller =>
    simp only [next, hp] at hs
    repeat' split at hs
    all_goals obtain rfl := Option.some.inj hs
    · exact h.setPc hp rfl
    · exact h.setPc hp rfl
    · have hresume : Once (s.setPc p caller.resume) := h.setPc hp (by cases caller <;> rfl)
      exact hresume.congr (fun l => by cases l <;> rfl) rfl
  | advanceTime e n i caller =>
    simp only [next, hp] at hs
    split at hs <;> obtain rfl := Option.some.inj hs
    · exact h.setPc hp (by cases caller <;> rfl)
    · exact h.setPc hp rfl
  | minScan m n i =>
    simp only [next, hp] at hs
    repeat' split at hs
    all_goals obtain rfl := Option.some.inj hs
    · exact h.setPc hp rfl
    · exact h.setPc hp rfl
    · exact h.take (by rw [hp]; rfl) rfl rfl rfl rfl
  | delete ds =>
    cases ds with
    | nil =>
      simp only [next, hp] at hs
      obtain rfl := Option.some.inj hs
      exact h.setPc hp rfl
    | cons d ds =>
      simp only [next, hp] at hs
      obtain rfl := Option.some.inj hs
      exact h.delete hp rfl rfl rfl rfl
  | advanceEpoch e n i caller =>
    simp only [next, hp] at hs
    split at hs <;> obtain rfl := Option.some.inj hs <;> exact h.setPc hp rfl
  | _ =>
    simp only [next, hp] at hs
    obtain rfl := Option.some.inj hs
    exact h.setPc hp rfl

theorem once_step {timeoutMs : UInt32} (s : System ι) (a : Action ι) (s' : System ι) (h : Once s)
    (hs : step timeoutMs s a = some s') : Once s' := by
  cases a with
  | next p nowNs => exact once_next h hs
  | retire p =>
    simp only [step] at hs
    split at hs
    · next hidle =>
      obtain rfl := Option.some.inj hs
      exact h.retire hidle rfl rfl rfl rfl
    · cases hs
  | enter p =>
    simp only [step] at hs
    repeat' split at hs
    · next i _ hidle =>
      obtain rfl := Option.some.inj hs
      exact h.setPc hidle.1 rfl
    · cases hs
    · cases hs
  | tryAdvanceEpoch p | reclaim p =>
    simp only [step] at hs
    split at hs
    · next hidle =>
      obtain rfl := Option.some.inj hs
      exact h.setPc hidle rfl
    · cases hs
  | _ =>
    simp only [step] at hs
    repeat' split at hs
    all_goals cases hs
    all_goals exact h.congr (fun l => by cases l <;> rfl) rfl

/-- With at most 64 registered threads, each deleter runs at most once, and as
long as the epoch has not come round to zero no deleter is run, or even taken,
while a reader that was inside when its `retire` call read the epoch is still in
the same critical section. -/
theorem rcu_reclaims_safely {timeoutMs : UInt32} {as : List (Action ι)} {s : System ι}
    (hrun : Runs.run (step timeoutMs) {} as = some s)
    (hthreads : s.allocatedSlots ≤ kMaxRcuThreads) :
    s.ran.Nodup ∧
      (s.advances < 2 ^ 64 - 1 → ∀ p d ds, s.pc p = .delete ds → d ∈ ds →
        ∀ r k, s.guards d r = some k → s.inside r ≠ some k) := by
  have honce : Once s := Runs.invariant once_step once_init hrun
  refine ⟨honce.apart.nodup .ran, fun hlt p d ds hp hd r k hg hk => ?_⟩
  have hat := (good_of_run hrun hthreads hlt).pcs p
  rw [hp] at hat
  exact (hat d hd).2 r ⟨k, hg, hk⟩

/-- Thread 1 reclaims twice: it leaves the deleter alone while reader 0 is inside
and takes it after the reader has left. -/
theorem rcu_reclaims_after_exit :
    ∃ s : System (Fin 3), Runs.run (step 100) {}
        ([.registerThread 0, .enter 0, .next 0 0, .next 0 0, .next 0 0, .retire 2, .next 2 0,
          .reclaim 1] ++ List.replicate 10 (.next 1 0) ++ [.exit 0, .reclaim 1] ++
          List.replicate 7 (.next 1 0)) = some s ∧
      s.pc 1 = .delete [0] ∧ s.guards 0 0 = some 0 ∧ s.ran.Nodup ∧
      ∀ r k, s.guards 0 r = some k → s.inside r ≠ some k := by
  have hlog : (Runs.run (step 100) ({} : System (Fin 3))
      ([.registerThread 0, .enter 0, .next 0 0, .next 0 0, .next 0 0, .retire 2, .next 2 0,
        .reclaim 1] ++ List.replicate 10 (.next 1 0) ++ [.exit 0, .reclaim 1] ++
        List.replicate 7 (.next 1 0))).map
      (fun s => (s.allocatedSlots, s.advances, s.pc 1, s.guards 0 0)) =
      some (1, 2, .delete [0], some 0) := by decide +kernel
  obtain ⟨s, hs, hstate⟩ := Option.map_eq_some_iff.mp hlog
  simp only [Prod.mk.injEq] at hstate
  obtain ⟨hslots, hadvances, hpc, hguard⟩ := hstate
  obtain ⟨hnodup, hsafe⟩ := rcu_reclaims_safely hs (by rw [hslots]; decide)
  exact ⟨s, hs, hpc, hguard, hnodup,
    hsafe (by rw [hadvances]; decide) 1 0 [0] hpc List.mem_cons_self⟩

theorem run_advance (timeoutMs : UInt32) {s : System ι} {p : ι} (hp : s.pc p = .idle)
    (hslots : s.allocatedSlots = 0) :
    Runs.run (step timeoutMs) s [.tryAdvanceEpoch p, .next p 0, .next p 0] =
      some { s with globalEpoch := s.globalEpoch + 1, advances := s.advances + 1 } := by
  have hback : Function.update s.pc p .idle = s.pc := by
    rw [← hp, Function.update_eq_self]
  simp [Runs.run, step, next, hp, System.setPc, numSlots, hslots, Caller.resume, hback]

theorem run_advances (timeoutMs : UInt32) {s : System ι} {p : ι} (hp : s.pc p = .idle)
    (hslots : s.allocatedSlots = 0) (n : Nat) :
    ∃ as, Runs.run (step timeoutMs) s as = some { s with
      globalEpoch := s.globalEpoch + UInt64.ofNat n, advances := s.advances + n } := by
  induction n with
  | zero => exact ⟨[], by simp [Runs.run]⟩
  | succ n ih =>
    obtain ⟨as, has⟩ := ih
    refine ⟨as ++ [Action.tryAdvanceEpoch p, .next p 0, .next p 0], ?_⟩
    have hround := run_advance timeoutMs (s := { s with
      globalEpoch := s.globalEpoch + UInt64.ofNat n, advances := s.advances + n }) hp hslots
    rw [Runs.run_append has, hround, UInt64.ofNat_add, ← UInt64.add_assoc, ← Nat.add_assoc]
    rfl

/-- After `2 ^ 64 - 1` advances the epoch is zero again. A reclaimer that found
its minimum just before takes and runs a deleter of epoch zero while a reader
from before its `retire` call is inside. -/
theorem deleter_runs_under_reader :
    ∃ as, ∃ s : System (Fin 3), Runs.run (step 100) {} as = some s ∧
      s.allocatedSlots = 1 ∧ s.advances = 2 ^ 64 - 1 ∧ s.ran = [0] ∧
      s.guards 0 0 = some 0 ∧ s.inside 0 = some 0 := by
  obtain ⟨as, has⟩ := run_advances 100 (s := ({} : System (Fin 3))) (p := 2) rfl rfl (2 ^ 64 - 3)
  have hlog : (Runs.run (step 100)
      ({ globalEpoch := 1 + UInt64.ofNat (2 ^ 64 - 3), advances := 0 + (2 ^ 64 - 3) } :
        System (Fin 3))
      ([.reclaim 1, .next 1 0, .next 1 0, .next 1 0, .next 1 0, .registerThread 0, .enter 0,
        .next 0 0, .next 0 0, .next 0 0, .tryAdvanceEpoch 2, .next 2 0, .next 2 0, .next 2 0,
        .next 2 0, .retire 2, .next 2 0, .next 1 0, .next 1 0])).map
      (fun s => (s.allocatedSlots, s.advances, s.ran, s.guards 0 0, s.inside 0)) =
      some (1, 2 ^ 64 - 1, [0], some 0, some 0) := by decide +kernel
  obtain ⟨s, hs, hstate⟩ := Option.map_eq_some_iff.mp hlog
  simp only [Prod.mk.injEq] at hstate
  exact ⟨_, s, (Runs.run_append has _).trans hs, hstate⟩

end EpochRcu

end Ume
