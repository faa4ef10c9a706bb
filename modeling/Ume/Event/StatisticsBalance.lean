import Ume.Event.MemoryStatistics
import Ume.Lib.Folds
import Ume.Lib.Ledger
import Ume.Lib.Table

/-! The counters of the collector as accounts over one ledger. Every counter of
current bytes holds the net bytes of the tiers and processes it covers, and every
peak is the highest value its counter has had. -/

namespace Ume

theorem saturatingSub_le (a b : UInt64) : saturatingSub a b ≤ a := by
  unfold saturatingSub
  split_ifs with h
  · exact UInt64.sub_le h
  · exact UInt64.zero_le

theorem saturatingSub_of_le {a b : UInt64} (h : b ≤ a) : saturatingSub a b = a - b := if_pos h

theorem toNat_saturatingSub {a b : UInt64} (h : b ≤ a) :
    (saturatingSub a b).toNat = a.toNat - b.toNat := by
  rw [saturatingSub_of_le h, UInt64.toNat_sub_of_le _ _ h]

namespace StatisticsCollector

inductive Update where
  | allocation (tier : TierClass) (sizeBytes : UInt64) (pid : UInt32)
  | free (tier : TierClass) (sizeBytes lifetimeNs : UInt64) (pid : UInt32)

def update (c : StatisticsCollector) : Update → StatisticsCollector
  | .allocation tier sizeBytes pid => c.recordAllocation tier sizeBytes pid
  | .free tier sizeBytes lifetimeNs pid => c.recordFree tier sizeBytes lifetimeNs pid

inductive Call where
  | recordAllocation (tier : TierClass) (sizeBytes : UInt64) (pid : UInt32)
  | recordFree (tier : TierClass) (sizeBytes lifetimeNs : UInt64) (pid : UInt32)
  | recordMigration (srcTier tgtTier : TierClass) (bytes : UInt64) (pid : UInt32)

def call (c : StatisticsCollector) : Call → StatisticsCollector
  | .recordAllocation tier sizeBytes pid => c.recordAllocation tier sizeBytes pid
  | .recordFree tier sizeBytes lifetimeNs pid => c.recordFree tier sizeBytes lifetimeNs pid
  | .recordMigration srcTier tgtTier bytes pid => c.recordMigration srcTier tgtTier bytes pid

def Call.updates : Call → List Update
  | recordAllocation tier sizeBytes pid => [.allocation tier sizeBytes pid]
  | recordFree tier sizeBytes lifetimeNs pid => [.free tier sizeBytes lifetimeNs pid]
  | recordMigration srcTier tgtTier bytes pid =>
    [.free srcTier bytes 0 pid, .allocation tgtTier bytes pid]

theorem foldl_call (calls : List Call) (c : StatisticsCollector) :
    calls.foldl call c = (calls.flatMap Call.updates).foldl update c := by
  induction calls generalizing c with
  | nil => rfl
  | cons k calls ih =>
    rw [List.foldl_cons, ih, List.flatMap_cons, List.foldl_append]
    cases k <;> rfl

/-- What an update books, by tier and process. -/
def Update.entry : Update → Ledger.Entry (TierClass × UInt32)
  | allocation tier sizeBytes pid => ⟨.credit, (tier, pid), sizeBytes.toNat⟩
  | free tier sizeBytes _ pid => ⟨.debit, (tier, pid), sizeBytes.toNat⟩

/-- The pairs of a current value and a peak that the collector keeps. -/
inductive Account where
  | ram
  | vram
  | ssd
  | tier (tier : TierClass)
  | process (pid : UInt32)

/-- A current value with the highest value it has had. -/
structure Gauge where
  current : UInt64
  peak : UInt64

def Gauge.raise (g : Gauge) (n : UInt64) : Gauge := ⟨g.current + n, max g.peak (g.current + n)⟩

def Gauge.lower (g : Gauge) (n : UInt64) : Gauge := ⟨saturatingSub g.current n, g.peak⟩

namespace Account

def gauge (c : StatisticsCollector) : Account → Gauge
  | ram => ⟨c.snapshot.currentRamBytes, c.snapshot.peakRamBytes⟩
  | vram => ⟨c.snapshot.currentVramBytes, c.snapshot.peakVramBytes⟩
  | ssd => ⟨c.snapshot.currentSsdBytes, c.snapshot.peakSsdBytes⟩
  | tier t => ⟨(c.tierStatistics t).currentBytes, (c.tierStatistics t).peakBytes⟩
  | process pid => ⟨(c.processStatistics pid).currentBytes, (c.processStatistics pid).peakBytes⟩

/-- The allocations an account counts. -/
def Covers : Account → TierClass × UInt32 → Prop
  | ram, k => k.1 ≠ TierClass.kVram ∧ k.1 ≠ TierClass.kNvme
  | vram, k => k.1 = TierClass.kVram
  | ssd, k => k.1 = TierClass.kNvme
  | tier t, k => k.1 = t
  | process pid, k => k.2 = pid ∧ pid ≠ 0

instance : (a : Account) → DecidablePred a.Covers
  | ram, k => inferInstanceAs (Decidable (k.1 ≠ TierClass.kVram ∧ k.1 ≠ TierClass.kNvme))
  | vram, k => inferInstanceAs (Decidable (k.1 = TierClass.kVram))
  | ssd, k => inferInstanceAs (Decidable (k.1 = TierClass.kNvme))
  | tier t, k => inferInstanceAs (Decidable (k.1 = t))
  | process pid, k => inferInstanceAs (Decidable (k.2 = pid ∧ pid ≠ 0))

end Account

section Records

variable (c : StatisticsCollector) (t : TierClass) (n l : UInt64) (p : UInt32)

theorem tierStats_recordAllocation : (c.recordAllocation t n p).tierStats =
    c.tierStats.insert t ((c.tierStatistics t).recordAllocation n) := by
  unfold recordAllocation allocateTier
  split_ifs <;> rfl

theorem processStats_recordAllocation : (c.recordAllocation t n p).processStats =
    if p ≠ 0 then c.processStats.insert p ((c.processStatistics p).recordAllocation p n)
    else c.processStats := by
  unfold recordAllocation allocateTier
  split_ifs <;> rfl

theorem tierStats_recordFree : (c.recordFree t n l p).tierStats =
    c.tierStats.insert t ((c.tierStatistics t).recordFree n) := by
  unfold recordFree freeTier
  split_ifs <;> rfl

theorem processStats_recordFree : (c.recordFree t n l p).processStats =
    if p ≠ 0 then c.processStats.insert p ((c.processStatistics p).recordFree n)
    else c.processStats := by
  unfold recordFree freeTier
  split_ifs <;> rfl

theorem tierStatistics_recordAllocation (t' : TierClass) :
    (c.recordAllocation t n p).tierStatistics t' =
      if t = t' then (c.tierStatistics t).recordAllocation n else c.tierStatistics t' := by
  rw [tierStatistics, tierStats_recordAllocation, Table.getD_lookup_insert]
  rfl

theorem tierStatistics_recordFree (t' : TierClass) :
    (c.recordFree t n l p).tierStatistics t' =
      if t = t' then (c.tierStatistics t).recordFree n else c.tierStatistics t' := by
  rw [tierStatistics, tierStats_recordFree, Table.getD_lookup_insert]
  rfl

theorem processStatistics_of_insert {c c' : StatisticsCollector} {v : ProcessStatistics}
    (h : c'.processStats =
      if p ≠ 0 then c.processStats.insert p v else c.processStats) (pid : UInt32) :
    c'.processStatistics pid = if p = pid ∧ pid ≠ 0 then v else c.processStatistics pid := by
  rw [processStatistics, h]
  by_cases hp : p = 0
  · rw [if_neg (not_not.mpr hp), if_neg (by rintro ⟨rfl, h⟩; exact h hp), processStatistics]
  · rw [if_pos hp, Table.getD_lookup_insert]
    by_cases h : p = pid
    · rw [if_pos h, if_pos ⟨h, h ▸ hp⟩]
    · rw [if_neg h, if_neg (fun hc => h hc.1), processStatistics]

theorem processStatistics_recordAllocation (pid : UInt32) :
    (c.recordAllocation t n p).processStatistics pid =
      if p = pid ∧ pid ≠ 0 then (c.processStatistics p).recordAllocation p n
      else c.processStatistics pid :=
  processStatistics_of_insert p (processStats_recordAllocation c t n p) pid

theorem processStatistics_recordFree (pid : UInt32) :
    (c.recordFree t n l p).processStatistics pid =
      if p = pid ∧ pid ≠ 0 then (c.processStatistics p).recordFree n
      else c.processStatistics pid :=
  processStatistics_of_insert p (processStats_recordFree c t n l p) pid

/-- The accounts of a tier and of a process follow the statistics that an update replaces. -/
theorem gauge_tier_of_ite {c c' : StatisticsCollector} {t' : TierClass} {v : TierStatistics}
    {f : Gauge → Gauge}
    (h : c'.tierStatistics t' = if t = t' then v else c.tierStatistics t')
    (hv : ⟨v.currentBytes, v.peakBytes⟩ = f ((Account.tier t).gauge c)) :
    (Account.tier t').gauge c' =
      if (Account.tier t').Covers (t, p) then f ((Account.tier t').gauge c)
      else (Account.tier t').gauge c := by
  rw [Account.gauge, h]
  by_cases ht : t = t'
  · subst ht
    rw [if_pos rfl, if_pos (show Account.Covers (.tier t) (t, p) from rfl), hv]
  · rw [if_neg ht, if_neg (show ¬ Account.Covers (.tier t') (t, p) from ht), Account.gauge]

theorem gauge_process_of_ite {c c' : StatisticsCollector} {pid : UInt32}
    {v : ProcessStatistics} {f : Gauge → Gauge}
    (h : c'.processStatistics pid =
      if p = pid ∧ pid ≠ 0 then v else c.processStatistics pid)
    (hv : ⟨v.currentBytes, v.peakBytes⟩ = f ((Account.process p).gauge c)) :
    (Account.process pid).gauge c' =
      if (Account.process pid).Covers (t, p) then f ((Account.process pid).gauge c)
      else (Account.process pid).gauge c := by
  rw [Account.gauge, h]
  by_cases hp : p = pid ∧ pid ≠ 0
  · obtain ⟨rfl, hne⟩ := hp
    rw [if_pos ⟨rfl, hne⟩, if_pos (show Account.Covers (.process p) (t, p) from ⟨rfl, hne⟩), hv]
  · rw [if_neg hp, if_neg (show ¬ Account.Covers (.process pid) (t, p) from hp), Account.gauge]

variable (a : Account)

theorem gauge_recordAllocation : a.gauge (c.recordAllocation t n p) =
    if a.Covers (t, p) then (a.gauge c).raise n else a.gauge c := by
  have hne : TierClass.kNvme ≠ TierClass.kVram := by decide
  cases a with
  | ram | vram | ssd =>
    by_cases hv : t = TierClass.kVram
    · simp only [Account.Covers, Account.gauge, snapshot, recordAllocation, allocateTier, hv,
        hne.symm, ne_eq, not_true_eq_false, false_and, if_true, if_false]
      split_ifs <;> rfl
    · by_cases hn : t = TierClass.kNvme
      · simp only [Account.Covers, Account.gauge, snapshot, recordAllocation, allocateTier, hn,
          hne, ne_eq, not_true_eq_false, and_false, if_true, if_false]
        split_ifs <;> rfl
      · simp only [Account.Covers, Account.gauge, snapshot, recordAllocation, allocateTier, hv,
          hn, ne_eq, not_false_eq_true, and_self, if_true, if_false]
        split_ifs <;> rfl
  | tier t' =>
    exact gauge_tier_of_ite t p (f := (·.raise n)) (tierStatistics_recordAllocation c t n p t') rfl
  | process pid =>
    exact gauge_process_of_ite t p (f := (·.raise n))
      (processStatistics_recordAllocation c t n p pid) rfl

theorem gauge_recordFree : a.gauge (c.recordFree t n l p) =
    if a.Covers (t, p) then (a.gauge c).lower n else a.gauge c := by
  have hne : TierClass.kNvme ≠ TierClass.kVram := by decide
  cases a with
  | ram | vram | ssd =>
    by_cases hv : t = TierClass.kVram
    · simp only [Account.Covers, Account.gauge, snapshot, recordFree, freeTier, hv,
        hne.symm, ne_eq, not_true_eq_false, false_and, if_true, if_false]
      split_ifs <;> rfl
    · by_cases hn : t = TierClass.kNvme
      · simp only [Account.Covers, Account.gauge, snapshot, recordFree, freeTier, hn,
          hne, ne_eq, not_true_eq_false, and_false, if_true, if_false]
        split_ifs <;> rfl
      · simp only [Account.Covers, Account.gauge, snapshot, recordFree, freeTier, hv,
          hn, ne_eq, not_false_eq_true, and_self, if_true, if_false]
        split_ifs <;> rfl
  | tier t' =>
    exact gauge_tier_of_ite t p (f := (·.lower n)) (tierStatistics_recordFree c t n l p t') rfl
  | process pid =>
    exact gauge_process_of_ite t p (f := (·.lower n))
      (processStatistics_recordFree c t n l p pid) rfl

theorem totals_recordAllocation :
    (c.recordAllocation t n p).totalBytesAllocated = c.totalBytesAllocated + n ∧
      (c.recordAllocation t n p).totalBytesFreed = c.totalBytesFreed := by
  unfold recordAllocation allocateTier
  split_ifs <;> exact ⟨rfl, rfl⟩

theorem counts_recordAllocation :
    (c.recordAllocation t n p).totalAllocations = c.totalAllocations + 1 ∧
      (c.recordAllocation t n p).totalFrees = c.totalFrees := by
  unfold recordAllocation allocateTier
  split_ifs <;> exact ⟨rfl, rfl⟩

theorem counts_recordFree :
    (c.recordFree t n l p).totalAllocations = c.totalAllocations ∧
      (c.recordFree t n l p).totalFrees = c.totalFrees + 1 := by
  unfold recordFree freeTier
  split_ifs <;> exact ⟨rfl, rfl⟩

theorem totals_recordFree :
    (c.recordFree t n l p).totalBytesAllocated = c.totalBytesAllocated ∧
      (c.recordFree t n l p).totalBytesFreed = c.totalBytesFreed + n := by
  unfold recordFree freeTier
  split_ifs <;> exact ⟨rfl, rfl⟩

end Records

/-- The counters hold what the ledger says. -/
structure Agrees (es : List (Ledger.Entry (TierClass × UInt32))) (c : StatisticsCollector) :
    Prop where
  current : ∀ a : Account, (a.gauge c).current.toNat = Ledger.net a.Covers es
  allocated : c.totalBytesAllocated.toNat = Ledger.total .credit (fun _ => True) es
  freed : c.totalBytesFreed.toNat = Ledger.total .debit (fun _ => True) es

theorem agrees_empty : Agrees [] {} where
  current a := by cases a <;> rfl
  allocated := rfl
  freed := rfl

section Agrees

variable {es : List (Ledger.Entry (TierClass × UInt32))} {c : StatisticsCollector}

theorem Agrees.recordAllocation (h : Agrees es c) (t : TierClass) (n : UInt64) (p : UInt32)
    (hcov : Ledger.Covered es)
    (hlt : Ledger.total .credit (fun _ => True) es + n.toNat < 2 ^ 64) :
    Agrees (es ++ [⟨.credit, (t, p), n.toNat⟩]) (c.recordAllocation t n p) where
  current a := by
    have hle := hcov.debits_le a.Covers
    have hall := Ledger.total_le_all .credit a.Covers es
    have ha := h.current a
    rw [gauge_recordAllocation, Ledger.net, Ledger.total_snoc, Ledger.total_snoc]
    simp only [Ledger.Entry.counted, reduceCtorEq, false_and, true_and, if_false]
    unfold Ledger.net at ha
    by_cases hc : a.Covers (t, p)
    · rw [if_pos hc, if_pos hc]
      show (_ + n).toNat = _
      rw [UInt64.toNat_add, ha]
      omega
    · rw [if_neg hc, if_neg hc]
      exact ha
  allocated := by
    rw [(totals_recordAllocation ..).1, UInt64.toNat_add, h.allocated, Ledger.total_snoc]
    exact Nat.mod_eq_of_lt hlt
  freed := by
    rw [(totals_recordAllocation ..).2, h.freed, Ledger.total_snoc]
    rfl

theorem Agrees.recordFree (h : Agrees es c) (t : TierClass) (n l : UInt64) (p : UInt32)
    (hcov : Ledger.Covered (es ++ [⟨.debit, (t, p), n.toNat⟩]))
    (hlt : Ledger.total .credit (fun _ => True) es < 2 ^ 64) :
    Agrees (es ++ [⟨.debit, (t, p), n.toNat⟩]) (c.recordFree t n l p) where
  current a := by
    have hle := hcov.debits_le a.Covers
    have ha := h.current a
    rw [gauge_recordFree, Ledger.net, Ledger.total_snoc, Ledger.total_snoc]
    rw [Ledger.total_snoc, Ledger.total_snoc] at hle
    simp only [Ledger.Entry.counted, reduceCtorEq, false_and, true_and, if_false] at hle ⊢
    unfold Ledger.net at ha
    by_cases hc : a.Covers (t, p)
    · rw [if_pos hc] at hle
      rw [if_pos hc, if_pos hc]
      show (saturatingSub _ n).toNat = _
      rw [toNat_saturatingSub (UInt64.le_iff_toNat_le.mpr (by omega)), ha]
      omega
    · rw [if_neg hc, if_neg hc]
      exact ha
  allocated := by
    rw [(totals_recordFree ..).1, h.allocated, Ledger.total_snoc]
    rfl
  freed := by
    have hle := hcov.debits_le (fun _ => True)
    rw [Ledger.total_snoc, Ledger.total_snoc] at hle
    simp only [Ledger.Entry.counted, reduceCtorEq, and_true, if_true, if_false] at hle
    rw [(totals_recordFree ..).2, UInt64.toNat_add, h.freed, Ledger.total_snoc]
    exact Nat.mod_eq_of_lt (by omega)

theorem Agrees.update (h : Agrees es c) (u : Update) (hcov : Ledger.Covered (es ++ [u.entry]))
    (hlt : Ledger.total .credit (fun _ => True) (es ++ [u.entry]) < 2 ^ 64) :
    Agrees (es ++ [u.entry]) (c.update u) := by
  rw [Ledger.total_snoc] at hlt
  cases u with
  | allocation t n p =>
    exact h.recordAllocation t n p (hcov.mono (List.prefix_append es _))
      (by simpa [Ledger.Entry.counted, Update.entry] using hlt)
  | free t n l p => exact h.recordFree t n l p hcov (Nat.lt_of_le_of_lt (Nat.le_add_right ..) hlt)

end Agrees

theorem agrees_foldl {us : List Update} (hcov : Ledger.Covered (us.map Update.entry))
    (hlt : Ledger.total .credit (fun _ => True) (us.map Update.entry) < 2 ^ 64) :
    Agrees (us.map Update.entry) (us.foldl update {}) := by
  induction us using List.reverseRecOn with
  | nil => exact agrees_empty
  | append_singleton us u ih =>
    rw [List.map_append, List.map_singleton] at hcov hlt ⊢
    rw [List.foldl_append]
    have hlt' := hlt
    rw [Ledger.total_snoc] at hlt'
    exact (ih (hcov.mono (List.prefix_append _ _))
      (Nat.lt_of_le_of_lt (Nat.le_add_right ..) hlt')).update u hcov hlt

theorem toNat_max (a b : UInt64) : (max a b).toNat = max a.toNat b.toNat := by
  rw [show max a b = if a ≤ b then b else a from rfl, apply_ite UInt64.toNat, max_def]
  rfl

theorem peak_update (a : Account) (c : StatisticsCollector) (u : Update)
    (h : (a.gauge c).current.toNat ≤ (a.gauge c).peak.toNat) :
    (a.gauge (c.update u)).peak.toNat =
      max (a.gauge (c.update u)).current.toNat (a.gauge c).peak.toNat := by
  cases u with
  | allocation t n p =>
    rw [update, gauge_recordAllocation]
    split_ifs
    · rw [Gauge.raise, toNat_max, Nat.max_comm]
    · exact (Nat.max_eq_right h).symm
  | free t n l p =>
    rw [update, gauge_recordFree]
    split_ifs
    · have hle := UInt64.le_iff_toNat_le.mp (saturatingSub_le (a.gauge c).current n)
      exact (Nat.max_eq_right (hle.trans h)).symm
    · exact (Nat.max_eq_right h).symm

/-- All tiers but the two with an aggregate of their own. -/
def otherTiers : Finset TierClass :=
  ((((Finset.range 256).image UInt8.ofNat).erase TierClass.kVram).erase TierClass.kNvme)

/-- A free that takes one of its counters to zero instead of below. -/
def Saturates (c : StatisticsCollector) : Update → Prop
  | .allocation _ _ _ => False
  | .free tier sizeBytes _ pid =>
    ∃ a : Account, a.Covers (tier, pid) ∧ (a.gauge c).current < sizeBytes

structure Balanced (us : List Update) (c : StatisticsCollector) : Prop where
  vram : c.snapshot.currentVramBytes = (c.tierStatistics TierClass.kVram).currentBytes
  ssd : c.snapshot.currentSsdBytes = (c.tierStatistics TierClass.kNvme).currentBytes
  ram : c.snapshot.currentRamBytes.toNat =
    ∑ t ∈ otherTiers, (c.tierStatistics t).currentBytes.toNat
  total : c.snapshot.currentRamBytes.toNat + c.snapshot.currentVramBytes.toNat +
    c.snapshot.currentSsdBytes.toNat =
      c.snapshot.totalBytesAllocated.toNat - c.snapshot.totalBytesFreed.toNat
  process : ∀ pid, pid ≠ 0 → (c.processStatistics pid).currentBytes.toNat =
    Ledger.net (·.2 = pid) (us.map Update.entry)
  peak : ∀ a : Account, IsGreatest
    (Folds.Takes update {} (fun c => (a.gauge c).current.toNat) us) (a.gauge c).peak.toNat
  unsaturated : ∀ before u, before ++ [u] <+: us → ¬ Saturates (before.foldl update {}) u

theorem mem_tiers (t : TierClass) : t ∈ (Finset.range 256).image UInt8.ofNat :=
  Finset.mem_image.mpr ⟨t.toNat, Finset.mem_range.mpr t.toNat_lt, UInt8.ofNat_toNat⟩

theorem mem_otherTiers (t : TierClass) :
    t ∈ otherTiers ↔ t ≠ TierClass.kVram ∧ t ≠ TierClass.kNvme := by
  rw [otherTiers, Finset.mem_erase, Finset.mem_erase]
  exact ⟨fun h => ⟨h.2.1, h.1⟩, fun h => ⟨h.2, h.1, mem_tiers t⟩⟩

theorem Agrees.ram_eq_sum {es : List (Ledger.Entry (TierClass × UInt32))}
    {c : StatisticsCollector} (h : Agrees es c) (hcov : Ledger.Covered es) :
    c.snapshot.currentRamBytes.toNat =
      ∑ t ∈ otherTiers, (c.tierStatistics t).currentBytes.toNat :=
  calc c.snapshot.currentRamBytes.toNat = Ledger.net (Account.Covers .ram) es := h.current .ram
    _ = Ledger.net (·.1 ∈ otherTiers) es := by
      apply Ledger.net_congr
      exact fun k => (mem_otherTiers k.1).symm
    _ = ∑ t ∈ otherTiers, Ledger.net (·.1 = t) es := (hcov.sum_net Prod.fst otherTiers).symm
    _ = ∑ t ∈ otherTiers, (c.tierStatistics t).currentBytes.toNat :=
      Finset.sum_congr rfl fun t _ => (h.current (.tier t)).symm

theorem Agrees.total_eq {es : List (Ledger.Entry (TierClass × UInt32))}
    {c : StatisticsCollector} (h : Agrees es c) (hcov : Ledger.Covered es) :
    c.snapshot.currentRamBytes.toNat + c.snapshot.currentVramBytes.toNat +
      c.snapshot.currentSsdBytes.toNat =
        c.snapshot.totalBytesAllocated.toNat - c.snapshot.totalBytesFreed.toNat := by
  have hram := h.ram_eq_sum hcov
  have hvram : c.snapshot.currentVramBytes.toNat = Ledger.net (·.1 = TierClass.kVram) es :=
    h.current .vram
  have hssd : c.snapshot.currentSsdBytes.toNat = Ledger.net (·.1 = TierClass.kNvme) es :=
    h.current .ssd
  have hother : ∑ t ∈ otherTiers, (c.tierStatistics t).currentBytes.toNat =
      ∑ t ∈ otherTiers, Ledger.net (·.1 = t) es :=
    Finset.sum_congr rfl fun t _ => h.current (.tier t)
  have hall := hcov.sum_net Prod.fst ((Finset.range 256).image UInt8.ofNat)
  rw [← Finset.add_sum_erase _ _ (mem_tiers TierClass.kVram),
    ← Finset.add_sum_erase _ _ (Finset.mem_erase.mpr ⟨by decide, mem_tiers TierClass.kNvme⟩)]
    at hall
  have hnet : Ledger.net (·.1 ∈ (Finset.range 256).image UInt8.ofNat) es =
      Ledger.total .credit (fun _ => True) es - Ledger.total .debit (fun _ => True) es :=
    Ledger.net_congr (fun k => iff_true_intro (mem_tiers k.1)) es
  rw [show c.snapshot.totalBytesAllocated = c.totalBytesAllocated from rfl,
    show c.snapshot.totalBytesFreed = c.totalBytesFreed from rfl, h.allocated, h.freed, ← hnet,
    ← hall, hram, hvram, hssd, hother]
  unfold otherTiers
  omega

/-- A free that is covered finds its bytes in every counter. -/
theorem not_saturates {us : List Update} {u : Update}
    (hcov : Ledger.Covered ((us ++ [u]).map Update.entry))
    (hlt : Ledger.total .credit (fun _ => True) (us.map Update.entry) < 2 ^ 64) :
    ¬ Saturates (us.foldl update {}) u := by
  rw [List.map_append, List.map_singleton] at hcov
  have h := agrees_foldl (hcov.mono (List.prefix_append _ _)) hlt
  cases u with
  | allocation t n p => exact id
  | free t n l p =>
    rintro ⟨a, hc, hless⟩
    have hle : n.toNat ≤ Ledger.net a.Covers (us.map Update.entry) :=
      hcov.amount_le_net a.Covers rfl hc
    rw [← h.current a] at hle
    exact absurd (UInt64.lt_iff_toNat_lt.mp hless) (Nat.not_lt.mpr hle)

/-- The statistics balance after every sequence of calls in which no tier of a
process gives back more than it has. -/
theorem statistics_balance (calls : List Call)
    (hcov : Ledger.Covered ((calls.flatMap Call.updates).map Update.entry))
    (hlt : Ledger.total .credit (fun _ => True)
      ((calls.flatMap Call.updates).map Update.entry) < 2 ^ 64) :
    Balanced (calls.flatMap Call.updates) (calls.foldl call {}) := by
  rw [foldl_call]
  generalize calls.flatMap Call.updates = us at hcov hlt
  have h := agrees_foldl hcov hlt
  exact
    { vram := UInt64.toNat_inj.mp ((h.current .vram).trans (h.current (.tier _)).symm)
      ssd := UInt64.toNat_inj.mp ((h.current .ssd).trans (h.current (.tier _)).symm)
      ram := h.ram_eq_sum hcov
      total := h.total_eq hcov
      process := fun pid hp => (h.current (.process pid)).trans
        (Ledger.net_congr (fun k => and_iff_left hp) _)
      peak := fun a => Folds.isGreatest_peak (by cases a <;> rfl) (peak_update a) us
      unsaturated := by
        rintro before u ⟨rest, rfl⟩
        rw [List.append_assoc, List.map_append, Ledger.total_append] at hlt
        refine not_saturates (hcov.mono ?_) (Nat.lt_of_le_of_lt (Nat.le_add_right ..) hlt)
        exact (List.prefix_append _ rest).map Update.entry }

/-- Ten bytes of RAM, four of which move to VRAM. -/
theorem statistics_balance_migrated :
    Balanced [.allocation TierClass.kRam 10 7, .free TierClass.kRam 4 0 7,
        .allocation TierClass.kVram 4 7]
      ((({} : StatisticsCollector).call (.recordAllocation TierClass.kRam 10 7)).call
        (.recordMigration TierClass.kRam TierClass.kVram 4 7)) := by
  have hcov : Ledger.Covered ([] ++ [Update.entry (.allocation TierClass.kRam 10 7)] ++
      [Update.entry (.free TierClass.kRam 4 0 7)] ++
        [Update.entry (.allocation TierClass.kVram 4 7)]) := by
    refine (Ledger.Covered.snoc (Ledger.Covered.snoc (Ledger.covered_nil.snoc ?_) ?_) ?_) <;> decide
  exact statistics_balance [.recordAllocation TierClass.kRam 10 7,
    .recordMigration TierClass.kRam TierClass.kVram 4 7] hcov (by decide)

end StatisticsCollector

end Ume
