import Mathlib.Data.Nat.ModEq
import Ume.Event.StatisticsBalance
import Ume.Lib.Runs

/-! Migrations and snapshots of several threads on one collector. A migration is
two critical sections, and a snapshot one. -/

namespace Ume

def MemoryStatisticsSnapshot.totalBytes (snap : MemoryStatisticsSnapshot) : UInt64 :=
  snap.currentRamBytes + snap.currentVramBytes + snap.currentSsdBytes

namespace StatisticsCollector

/-- The counter of the snapshot that a tier counts in. -/
def Account.ofTier (tier : TierClass) : Account :=
  if tier = TierClass.kVram then .vram else if tier = TierClass.kNvme then .ssd else .ram

structure Migration where
  srcTier : TierClass
  tgtTier : TierClass
  bytes : UInt64
  pid : UInt32

/-- The collector, the migrations between their two critical sections by thread,
and the snapshots taken so far. -/
structure Views (ι : Type*) [DecidableEq ι] where
  collector : StatisticsCollector
  moving : AList (fun _ : ι => Migration) := ∅
  snapshots : List MemoryStatisticsSnapshot := []

namespace Views

variable {ι : Type*} [DecidableEq ι]

inductive Action (ι : Type*) where
  | free (p : ι) (migration : Migration)
  | allocate (p : ι)
  | snapshot

def step (s : Views ι) : Action ι → Option (Views ι)
  | .free p m =>
    if (s.moving.lookup p).isSome then none
    else some { s with
      collector := s.collector.recordFree m.srcTier m.bytes 0 m.pid
      moving := s.moving.insert p m }
  | .allocate p =>
    match s.moving.lookup p with
    | none => none
    | some m => some { s with
      collector := s.collector.recordAllocation m.tgtTier m.bytes m.pid
      moving := s.moving.erase p }
  | .snapshot => some { s with snapshots := s.snapshots ++ [s.collector.snapshot] }

/-- The source of a migration holds the bytes that move. -/
def SourceHolds (s : Views ι) : Action ι → Prop
  | .free _ m => m.bytes ≤ ((Account.ofTier m.srcTier).gauge s.collector).current
  | _ => True

/-- A snapshot is taken only when no migration is half done. -/
def Quiet (s : Views ι) : Action ι → Prop
  | .snapshot => s.moving = ∅
  | _ => True

end Views

section TotalBytes

variable (c : StatisticsCollector) (t : TierClass) (n l : UInt64) (p : UInt32)

theorem totalBytes_recordAllocation :
    (c.recordAllocation t n p).snapshot.totalBytes = c.snapshot.totalBytes + n := by
  have hram := congrArg Gauge.current (gauge_recordAllocation c t n p .ram)
  have hvram := congrArg Gauge.current (gauge_recordAllocation c t n p .vram)
  have hssd := congrArg Gauge.current (gauge_recordAllocation c t n p .ssd)
  rw [apply_ite Gauge.current] at hram hvram hssd
  simp only [Account.gauge, Gauge.raise, Account.Covers] at hram hvram hssd
  unfold MemoryStatisticsSnapshot.totalBytes
  rw [hram, hvram, hssd]
  have hne : TierClass.kNvme ≠ TierClass.kVram := by decide
  by_cases hv : t = TierClass.kVram
  · simp only [hv, hne.symm, ne_eq, not_true_eq_false, false_and, if_true, if_false]
    grind
  · by_cases hn : t = TierClass.kNvme
    · simp only [hn, hne, ne_eq, not_true_eq_false, and_false, if_true, if_false]
      grind
    · simp only [hv, hn, ne_eq, not_false_eq_true, and_self, if_true, if_false]
      grind

theorem totalBytes_recordFree (h : n ≤ ((Account.ofTier t).gauge c).current) :
    (c.recordFree t n l p).snapshot.totalBytes + n = c.snapshot.totalBytes := by
  have hram := congrArg Gauge.current (gauge_recordFree c t n l p .ram)
  have hvram := congrArg Gauge.current (gauge_recordFree c t n l p .vram)
  have hssd := congrArg Gauge.current (gauge_recordFree c t n l p .ssd)
  rw [apply_ite Gauge.current] at hram hvram hssd
  simp only [Account.gauge, Gauge.lower, Account.Covers] at hram hvram hssd
  unfold MemoryStatisticsSnapshot.totalBytes
  rw [hram, hvram, hssd]
  have hne : TierClass.kNvme ≠ TierClass.kVram := by decide
  unfold Account.ofTier at h
  by_cases hv : t = TierClass.kVram
  · simp only [hv, hne.symm, ne_eq, not_true_eq_false, false_and, if_true, if_false,
      Account.gauge] at h ⊢
    rw [saturatingSub_of_le h]
    grind
  · by_cases hn : t = TierClass.kNvme
    · simp only [hn, hne, ne_eq, not_true_eq_false, and_false, if_true, if_false,
      Account.gauge] at h ⊢
      rw [saturatingSub_of_le h]
      grind
    · simp only [hv, hn, ne_eq, not_false_eq_true, and_self, if_true, if_false,
      Account.gauge] at h ⊢
      rw [saturatingSub_of_le h]
      grind

end TotalBytes

namespace Views

variable {ι : Type*} [DecidableEq ι] {c₀ : StatisticsCollector} {s s' : Views ι} {a : Action ι}

/-- The bytes that have left their source and not reached their target. -/
def inFlight (s : Views ι) : Nat := Table.sum (fun m : Migration => m.bytes.toNat) s.moving

/-- No bytes are lost: what a snapshot would miss is in flight. -/
def Conserved (c₀ : StatisticsCollector) (s : Views ι) : Prop :=
  s.collector.snapshot.totalBytes.toNat + s.inFlight ≡ c₀.snapshot.totalBytes.toNat [MOD 2 ^ 64]

theorem conserved_step (h : Conserved c₀ s) (hok : SourceHolds s a) (hstep : step s a = some s') :
    Conserved c₀ s' := by
  cases a with
  | free p m =>
    simp only [step] at hstep
    split_ifs at hstep with hp
    obtain rfl := Option.some.inj hstep
    have hfree := congrArg UInt64.toNat
      (totalBytes_recordFree s.collector m.srcTier m.bytes 0 m.pid hok)
    have hin : Table.sum (fun m : Migration => m.bytes.toNat) (s.moving.insert p m) =
        m.bytes.toNat + s.inFlight := by
      rw [Table.sum_insert, Table.erase_of_lookup (by simpa using hp), inFlight]
    rw [UInt64.toNat_add] at hfree
    unfold Conserved Nat.ModEq at h ⊢
    rw [← hfree] at h
    rw [inFlight, hin]
    dsimp only
    omega
  | allocate p =>
    simp only [step] at hstep
    cases hp : s.moving.lookup p with
    | none => simp only [hp, reduceCtorEq] at hstep
    | some m =>
      simp only [hp] at hstep
      obtain rfl := Option.some.inj hstep
      have hin := Table.sum_of_lookup (fun m : Migration => m.bytes.toNat) hp
      unfold Conserved Nat.ModEq inFlight at h ⊢
      rw [hin] at h
      rw [totalBytes_recordAllocation, UInt64.toNat_add]
      dsimp only
      omega
  | snapshot =>
    obtain rfl := Option.some.inj hstep
    exact h

/-- The migrations look atomic in every snapshot: it has the bytes there were
before them, and was taken when each was done or not started. -/
def Atomic (c₀ : StatisticsCollector) (as : List (Action ι)) (s : Views ι) : Prop :=
  ∀ snap ∈ s.snapshots, snap.totalBytes = c₀.snapshot.totalBytes ∧
    ∃ before t, before <+: as ∧ Runs.run step { collector := c₀ } before = some t ∧
      t.moving = ∅ ∧ snap = t.collector.snapshot

theorem totalBytes_of_quiet (h : Conserved c₀ s) (hq : s.moving = ∅) :
    s.collector.snapshot.totalBytes = c₀.snapshot.totalBytes := by
  unfold Conserved inFlight at h
  rw [hq] at h
  have heq : s.collector.snapshot.totalBytes.toNat = c₀.snapshot.totalBytes.toNat :=
    h.eq_of_lt_of_lt (UInt64.toNat_lt _) (UInt64.toNat_lt _)
  exact UInt64.toNat_inj.mp heq

/-- A state with the actions that led to it. -/
structure Observed (c₀ : StatisticsCollector) (as : List (Action ι)) (s : Views ι) : Prop where
  run : Runs.run step { collector := c₀ } as = some s
  conserved : Conserved c₀ s
  atomic : Atomic c₀ as s

theorem snapshots_of_step (hstep : step s a = some s') :
    s'.snapshots = s.snapshots ∨
      a = .snapshot ∧ s'.snapshots = s.snapshots ++ [s.collector.snapshot] := by
  cases a with
  | free p m =>
    simp only [step] at hstep
    split_ifs at hstep
    obtain rfl := Option.some.inj hstep
    exact .inl rfl
  | allocate p =>
    simp only [step] at hstep
    split at hstep
    · cases hstep
    · obtain rfl := Option.some.inj hstep
      exact .inl rfl
  | snapshot =>
    obtain rfl := Option.some.inj hstep
    exact .inr ⟨rfl, rfl⟩

theorem observed_step {as : List (Action ι)} (h : Observed c₀ as s) (hsrc : SourceHolds s a)
    (hquiet : Quiet s a) (hstep : step s a = some s') : Observed c₀ (as ++ [a]) s' where
  run := by
    rw [Runs.run_append h.run, Runs.run_cons hstep]
    rfl
  conserved := conserved_step h.conserved hsrc hstep
  atomic := by
    intro snap hsnap
    have hold : snap ∈ s.snapshots → snap.totalBytes = c₀.snapshot.totalBytes ∧
        ∃ before t, before <+: as ++ [a] ∧ Runs.run step { collector := c₀ } before = some t ∧
          t.moving = ∅ ∧ snap = t.collector.snapshot := by
      intro hmem
      obtain ⟨htotal, before, t, hb, hrest⟩ := h.atomic snap hmem
      exact ⟨htotal, before, t, hb.trans (List.prefix_append as [a]), hrest⟩
    rcases snapshots_of_step hstep with hsame | ⟨rfl, hnew⟩
    · exact hold (hsame ▸ hsnap)
    · rw [hnew, List.mem_append, List.mem_singleton] at hsnap
      rcases hsnap with hmem | rfl
      · exact hold hmem
      · exact ⟨totalBytes_of_quiet h.conserved hquiet, as, s, List.prefix_append as _, h.run,
          hquiet, rfl⟩

theorem migrations_look_atomic {as : List (Action ι)}
    (hok : Runs.Along step (fun s a => SourceHolds s a ∧ Quiet s a) { collector := c₀ } as)
    (hrun : Runs.run step { collector := c₀ } as = some s) : Atomic c₀ as s := by
  have hstart : Observed c₀ [] ({ collector := c₀ } : Views ι) :=
    ⟨rfl, Nat.ModEq.refl _, fun _ h => absurd h List.not_mem_nil⟩
  have hend : Observed c₀ ([] ++ as) s := Runs.invariant_history
    (fun _ _ _ _ h hok hstep => observed_step h hok.1 hok.2 hstep) [] hstart hok hrun
  exact hend.atomic

/-- A migration of eight bytes seen before and after, not in between. -/
theorem migration_seen_whole : ∃ s : Views Unit,
    Runs.run step { collector := ({} : StatisticsCollector).recordAllocation TierClass.kRam 8 0 }
      [.snapshot, .free () ⟨TierClass.kRam, TierClass.kVram, 8, 0⟩, .allocate (), .snapshot] =
        some s ∧
      Atomic (({} : StatisticsCollector).recordAllocation TierClass.kRam 8 0)
        [.snapshot, .free () ⟨TierClass.kRam, TierClass.kVram, 8, 0⟩, .allocate (), .snapshot]
        s := by
  refine ⟨_, rfl, migrations_look_atomic ⟨⟨trivial, rfl⟩, fun s₁ h₁ => ?_⟩ rfl⟩
  obtain rfl := Option.some.inj h₁
  refine ⟨⟨by show (8 : UInt64) ≤ _; decide +kernel, trivial⟩, fun s₂ h₂ => ?_⟩
  obtain rfl := Option.some.inj h₂
  refine ⟨⟨trivial, trivial⟩, fun s₃ h₃ => ?_⟩
  obtain rfl := Option.some.inj h₃
  exact ⟨⟨trivial, rfl⟩, fun _ _ => trivial⟩

/-- A snapshot between the two critical sections misses the bytes that move. -/
theorem snapshot_misses_migration : ∃ s : Views Unit,
    Runs.run step { collector := ({} : StatisticsCollector).recordAllocation TierClass.kRam 8 0 }
      [.free () ⟨TierClass.kRam, TierClass.kVram, 8, 0⟩, .snapshot, .allocate ()] = some s ∧
      s.snapshots.map MemoryStatisticsSnapshot.totalBytes = [0] ∧
      ¬ Atomic (({} : StatisticsCollector).recordAllocation TierClass.kRam 8 0)
        [.free () ⟨TierClass.kRam, TierClass.kVram, 8, 0⟩, .snapshot, .allocate ()] s := by
  refine ⟨_, rfl, by decide +kernel, fun h => ?_⟩
  exact absurd (h _ (List.mem_singleton_self _)).1 (by decide +kernel)

end Views

end StatisticsCollector

end Ume
