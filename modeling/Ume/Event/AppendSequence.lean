import Ume.Event.AppendVisible
import Ume.Lib.Custody

/-! The sequence numbers of concurrent appends. Each number is drawn once, is with the
thread that drew it until its record is copied, and then in the log: none is used twice
and none is left out, whatever the interleaving does to the offsets. -/

namespace Ume

open JournalWriter Custody

namespace ConcurrentAppend

inductive Place (ι : Type*) where
  | thread (p : ι)
  | log

section Numbers

variable {ι : Type*} {w₀ : JournalWriter} {s s' : System ι} {n : Nat}

/-- The number drawn, counted from the state of the counter at the start. -/
def Pc.numbers (start : UInt64) : Pc → List Nat
  | .copy _ _ _ seq => [(seq - start).toNat]
  | _ => []

def numbersAt (start : UInt64) (s : System ι) : Place ι → List Nat
  | .thread p => (s.pc p).numbers start
  | .log => s.log.map fun w => (w.seq - start).toNat

/-- After `n` numbers have been drawn. -/
structure Numbered (w₀ : JournalWriter) (n : Nat) (s : System ι) : Prop where
  counter : s.writer.sequenceCounter = w₀.sequenceCounter + UInt64.ofNat n
  apart : Apart (numbersAt w₀.sequenceCounter s)
  range : ∀ l, ∀ x ∈ numbersAt w₀.sequenceCounter s l, 1 ≤ x ∧ x ≤ n
  kept : ∀ x, 1 ≤ x → x ≤ n → ∃ l, x ∈ numbersAt w₀.sequenceCounter s l
  events : s.writer.totalEventsWritten =
    w₀.totalEventsWritten + UInt64.ofNat s.log.length
  bytes : s.writer.totalBytesWritten =
    w₀.totalBytesWritten + UInt64.ofNat (totalRecordSize * s.log.length)

/-- The counters of a writer that the steps before the copy leave alone. -/
def SameCounters (w w' : JournalWriter) : Prop :=
  w'.sequenceCounter = w.sequenceCounter ∧ w'.totalEventsWritten = w.totalEventsWritten ∧
    w'.totalBytesWritten = w.totalBytesWritten

theorem sameCounters_roll {env : SessionEnv} {w w' : JournalWriter} {dir dir' : Directory}
    {status : Status} (h : rollSegmentLocked env w dir = some (status, w', dir')) :
    SameCounters w w' := by
  unfold rollSegmentLocked at h
  dsimp only at h
  split at h
  · obtain ⟨d, -, hd⟩ := Option.bind_eq_some_iff.mp h
    cases hd
    exact ⟨rfl, rfl, rfl⟩
  · cases h
    exact ⟨rfl, rfl, rfl⟩

theorem Numbered.congr (h : Numbered w₀ n s)
    (hsame : ∀ l, numbersAt w₀.sequenceCounter s' l = numbersAt w₀.sequenceCounter s l)
    (hlog : s'.log = s.log) (hwriter : SameCounters s.writer s'.writer) : Numbered w₀ n s' := by
  have heq : numbersAt w₀.sequenceCounter s' = numbersAt w₀.sequenceCounter s := funext hsame
  obtain ⟨hseq, hevents, hbytes⟩ := hwriter
  refine ⟨hseq.trans h.counter, heq ▸ h.apart, heq ▸ h.range, heq ▸ h.kept, ?_, ?_⟩
  · rw [hevents, hlog]
    exact h.events
  · rw [hbytes, hlog]
    exact h.bytes

theorem numbered_start (w : JournalWriter) (dir : Directory) :
    Numbered w 0 ({ writer := w, dir := dir } : System ι) where
  counter := (UInt64.add_zero _).symm
  apart :=
    { nodup := fun l => by cases l <;> exact List.nodup_nil
      unique := fun l _ x hx => by cases l <;> cases hx }
  range l x hx := by cases l <;> cases hx
  kept x hx hle := by omega
  events := (UInt64.add_zero _).symm
  bytes := (UInt64.add_zero _).symm

/-- With no append under way the log has every number that was drawn. -/
theorem Numbered.perm (h : Numbered w₀ n s) (hidle : ∀ p, s.pc p = .idle) :
    (numbersAt w₀.sequenceCounter s .log).Perm (List.range' 1 n) := by
  refine (List.perm_ext_iff_of_nodup (h.apart.nodup .log) List.nodup_range').mpr fun x => ?_
  rw [List.mem_range'_1]
  constructor
  · intro hx
    have hrange := h.range .log x hx
    omega
  · rintro ⟨hx, hle⟩
    obtain ⟨l, hl⟩ := h.kept x hx (by omega)
    cases l with
    | thread p =>
      rw [numbersAt, hidle p] at hl
      cases hl
    | log => exact hl

variable [DecidableEq ι] {p : ι} {pc : Pc}

theorem numbersAt_of_ne (start : UInt64) (hpc : s'.pc = Function.update s.pc p pc) {q : ι}
    (hq : q ≠ p) : numbersAt start s' (.thread q) = numbersAt start s (.thread q) := by
  rw [numbersAt, hpc, Function.update_of_ne hq]
  rfl

theorem Numbered.setPc (h : Numbered w₀ n s) (hpc : s'.pc = Function.update s.pc p pc)
    (hold : (s.pc p).numbers w₀.sequenceCounter = []) (hnew : pc.numbers w₀.sequenceCounter = [])
    (hlog : s'.log = s.log) (hwriter : SameCounters s.writer s'.writer) : Numbered w₀ n s' := by
  refine h.congr (fun l => ?_) hlog hwriter
  cases l with
  | thread q =>
    by_cases hq : q = p
    · subst hq
      rw [numbersAt, numbersAt, hpc, Function.update_self, hold, hnew]
    · exact numbersAt_of_ne _ hpc hq
  | log => rw [numbersAt, numbersAt, hlog]

/-- The counter is increased and its value goes to the thread. -/
theorem Numbered.draw (h : Numbered w₀ n s) (hlt : n + 1 < 2 ^ 64) {event : Event}
    {segment offset : Nat}
    (hold : (s.pc p).numbers w₀.sequenceCounter = []) :
    Numbered w₀ (n + 1)
      { s.setPc p (.copy event segment offset (s.writer.sequenceCounter + 1)) with
        writer := { s.writer with sequenceCounter := s.writer.sequenceCounter + 1 } } := by
  have hvalue : (s.writer.sequenceCounter + 1 - w₀.sequenceCounter).toNat = n + 1 := by
    have hsum : s.writer.sequenceCounter + 1 = w₀.sequenceCounter + UInt64.ofNat (n + 1) := by
      rw [h.counter, UInt64.ofNat_add, UInt64.add_assoc]
      rfl
    rw [hsum, UInt64.add_comm, UInt64.add_sub_cancel, UInt64.toNat_ofNat', Nat.mod_eq_of_lt hlt]
  let t : System ι := { s.setPc p (.copy event segment offset (s.writer.sequenceCounter + 1)) with
    writer := { s.writer with sequenceCounter := s.writer.sequenceCounter + 1 } }
  have hfresh (l : Place ι) : n + 1 ∉ numbersAt w₀.sequenceCounter s l := by
    intro hmem
    have hle := (h.range l _ hmem).2
    omega
  have hself : numbersAt w₀.sequenceCounter t (.thread p) =
      numbersAt w₀.sequenceCounter s (.thread p) ++ [n + 1] := by
    show (Function.update s.pc p _ p).numbers _ = (s.pc p).numbers _ ++ [n + 1]
    rw [Function.update_self, hold, Pc.numbers, hvalue, List.nil_append]
  have hother : ∀ l ≠ Place.thread p,
      numbersAt w₀.sequenceCounter t l = numbersAt w₀.sequenceCounter s l := by
    intro l hl
    cases l with
    | thread q => exact numbersAt_of_ne _ rfl fun hq => hl (hq ▸ rfl)
    | log => rfl
  refine ⟨?_, h.apart.insert hfresh hself hother, ?_, ?_, h.events, h.bytes⟩
  · show s.writer.sequenceCounter + 1 = _
    rw [h.counter, UInt64.ofNat_add, UInt64.add_assoc]
    rfl
  · intro l x hx
    by_cases hl : l = .thread p
    · subst hl
      rw [hself, List.mem_append, List.mem_singleton] at hx
      rcases hx with hx | rfl
      · have hrange := h.range _ x hx
        omega
      · omega
    · rw [hother l hl] at hx
      have hrange := h.range l x hx
      omega
  · intro x hx hle
    by_cases hnew : x = n + 1
    · exact ⟨.thread p, by rw [hself, hnew]; simp⟩
    · obtain ⟨l, hl⟩ := h.kept x hx (by omega)
      by_cases hlp : l = .thread p
      · subst hlp
        exact ⟨.thread p, by rw [hself]; exact List.mem_append_left _ hl⟩
      · exact ⟨l, (hother l hlp).symm ▸ hl⟩

/-- The number goes to the log together with the record. -/
theorem Numbered.copy (h : Numbered w₀ n s) {event : Event} {segment offset : Nat} {seq : UInt64}
    (hp : s.pc p = .copy event segment offset seq)
    (hpc : s'.pc = Function.update s.pc p .idle) {place : Written} (hseq : place.seq = seq)
    (hlog : s'.log = s.log ++ [place])
    (hcounter : s'.writer.sequenceCounter = s.writer.sequenceCounter)
    (hevents : s'.writer.totalEventsWritten = s.writer.totalEventsWritten + 1)
    (hbytes : s'.writer.totalBytesWritten =
      s.writer.totalBytesWritten + UInt64.ofNat totalRecordSize) : Numbered w₀ n s' := by
  have hne : Place.thread p ≠ .log := by simp
  have hsplit : ([(seq - w₀.sequenceCounter).toNat] ++
      numbersAt w₀.sequenceCounter s' (.thread p)).Perm
        (numbersAt w₀.sequenceCounter s (.thread p)) := by
    refine List.Perm.of_eq ?_
    simp only [numbersAt, hpc, Function.update_self, hp, Pc.numbers, List.append_nil]
  have hdst : numbersAt w₀.sequenceCounter s' .log =
      numbersAt w₀.sequenceCounter s .log ++ [(seq - w₀.sequenceCounter).toNat] := by
    simp only [numbersAt, hlog, List.map_append, List.map_singleton, hseq]
  have hother : ∀ l, l ≠ .thread p → l ≠ .log →
      numbersAt w₀.sequenceCounter s' l = numbersAt w₀.sequenceCounter s l := by
    intro l hl hl'
    cases l with
    | thread q => exact numbersAt_of_ne _ hpc fun hq => hl (hq ▸ rfl)
    | log => exact absurd rfl hl'
  have hlength : s'.log.length = s.log.length + 1 := by simp [hlog]
  refine ⟨hcounter.trans h.counter, h.apart.transfer hne hsplit hdst hother,
    forall_transfer h.range hsplit hdst hother,
    fun x hx hle => exists_transfer (h.kept x hx hle) hsplit hdst hother, ?_, ?_⟩
  · rw [hevents, h.events, hlength, UInt64.ofNat_add, UInt64.add_assoc]
    rfl
  · rw [hbytes, h.bytes, hlength, Nat.mul_add, Nat.mul_one, UInt64.ofNat_add, UInt64.add_assoc]

theorem numbered_next {env : SessionEnv} (h : Numbered w₀ n s) (hlt : n + 1 < 2 ^ 64)
    (hs : next env s p = some s') : ∃ m ≤ n + 1, Numbered w₀ m s' := by
  have hsame : SameCounters s.writer s.writer := ⟨rfl, rfl, rfl⟩
  cases hp : s.pc p with
  | idle => simp [next, hp] at hs
  | check event segment offset =>
    simp only [next, hp] at hs
    split_ifs at hs <;> obtain rfl := Option.some.inj hs
    · exact ⟨n, by omega, h.setPc rfl (by rw [hp]; rfl) rfl rfl hsame⟩
    · exact ⟨n, by omega, h.setPc rfl (by rw [hp]; rfl) rfl rfl hsame⟩
  | lock event =>
    simp only [next, hp] at hs
    split_ifs at hs <;> obtain rfl := Option.some.inj hs
    · exact ⟨n, by omega, h.setPc rfl (by rw [hp]; rfl) rfl rfl hsame⟩
    · exact ⟨n, by omega, h.setPc rfl (by rw [hp]; rfl) rfl rfl hsame⟩
  | roll event =>
    simp only [next, hp] at hs
    split at hs
    · next hroll =>
      obtain rfl := Option.some.inj hs
      have hcounters := sameCounters_roll hroll
      exact ⟨n, by omega, h.setPc rfl (by rw [hp]; rfl) rfl rfl hcounters⟩
    · next hroll =>
      obtain rfl := Option.some.inj hs
      have hcounters := sameCounters_roll hroll
      exact ⟨n, by omega, h.setPc rfl (by rw [hp]; rfl) rfl rfl hcounters⟩
    · cases hs
  | again event =>
    simp only [next, hp] at hs
    obtain rfl := Option.some.inj hs
    exact ⟨n, by omega, h.setPc rfl (by rw [hp]; rfl) rfl rfl ⟨rfl, rfl, rfl⟩⟩
  | unlock event segment offset =>
    simp only [next, hp] at hs
    obtain rfl := Option.some.inj hs
    exact ⟨n, by omega, h.setPc rfl (by rw [hp]; rfl) rfl rfl hsame⟩
  | sequence event segment offset =>
    simp only [next, hp] at hs
    obtain rfl := Option.some.inj hs
    exact ⟨n + 1, Nat.le_refl _, h.draw hlt (by rw [hp]; rfl)⟩
  | copy event segment offset seq =>
    simp only [next, hp] at hs
    obtain ⟨dir', -, rfl⟩ := Option.map_eq_some_iff.mp hs
    exact ⟨n, by omega, h.copy hp rfl rfl rfl rfl rfl rfl⟩

theorem numbered_step {env : SessionEnv} {a : Action ι} (h : Numbered w₀ n s)
    (hlt : n + 1 < 2 ^ 64) (hs : step env s a = some s') : ∃ m ≤ n + 1, Numbered w₀ m s' := by
  cases a with
  | next p => exact numbered_next h hlt hs
  | append p event =>
    simp only [step] at hs
    split at hs
    · next hidle =>
      split_ifs at hs <;> obtain rfl := Option.some.inj hs
      · exact ⟨n, by omega, h.setPc rfl (by rw [hidle]; rfl) rfl rfl ⟨rfl, rfl, rfl⟩⟩
      · exact ⟨n, by omega, h⟩
    · cases hs

theorem numbered_of_run {env : SessionEnv} {dir : Directory} {as : List (Action ι)}
    (hrun : Runs.run (step env) { writer := w₀, dir := dir } as = some s)
    (hlt : as.length < 2 ^ 64) : ∃ n, Numbered w₀ n s := by
  have hstep (before : List (Action ι)) (u : System ι) (a : Action ι) (u' : System ι)
      (hu : before.length < 2 ^ 64 → ∃ n ≤ before.length, Numbered w₀ n u) (_ : True)
      (ha : step env u a = some u') (hlt : (before ++ [a]).length < 2 ^ 64) :
      ∃ n ≤ (before ++ [a]).length, Numbered w₀ n u' := by
    rw [List.length_append, List.length_singleton] at hlt ⊢
    obtain ⟨n, hn, hnumbered⟩ := hu (by omega)
    obtain ⟨m, hm, hnumbered'⟩ := numbered_step hnumbered (by omega) ha
    exact ⟨m, by omega, hnumbered'⟩
  have hstart : ([] : List (Action ι)).length < 2 ^ 64 →
      ∃ n ≤ ([] : List (Action ι)).length,
        Numbered w₀ n ({ writer := w₀, dir := dir } : System ι) :=
    fun _ => ⟨0, Nat.le_refl 0, numbered_start w₀ dir⟩
  obtain ⟨n, -, hnumbered⟩ :=
    Runs.invariant_history hstep [] hstart (Runs.along_true _ _ _) hrun hlt
  exact ⟨n, hnumbered⟩

/-- Whatever the interleaving of the appends, once they have all returned their sequence
numbers are the next ones of the counter, each one once, and the two totals count the
records and their bytes. -/
theorem concurrent_sequence_numbers {env : SessionEnv} {w : JournalWriter} {dir : Directory}
    {as : List (Action ι)} (hrun : Runs.run (step env) { writer := w, dir := dir } as = some s)
    (hidle : ∀ p, s.pc p = .idle) (hlt : as.length < 2 ^ 64) :
    (s.log.map (·.seq)).Perm ((List.range' 1 s.log.length).map fun i =>
        w.sequenceCounter + UInt64.ofNat i) ∧
      s.writer.sequenceCounter = w.sequenceCounter + UInt64.ofNat s.log.length ∧
      s.writer.totalEventsWritten = w.totalEventsWritten + UInt64.ofNat s.log.length ∧
      s.writer.totalBytesWritten =
        w.totalBytesWritten + UInt64.ofNat (totalRecordSize * s.log.length) := by
  obtain ⟨n, h⟩ := numbered_of_run hrun hlt
  have hperm := h.perm hidle
  have hn : s.log.length = n := by
    have hlen := hperm.length_eq
    simpa [numbersAt] using hlen
  have hseq : s.log.map (·.seq) = (numbersAt w.sequenceCounter s .log).map fun i =>
      w.sequenceCounter + UInt64.ofNat i := by
    simp only [numbersAt, List.map_map]
    refine List.map_congr_left fun written _ => ?_
    simp only [Function.comp, UInt64.ofNat_toNat]
    rw [UInt64.add_comm, UInt64.sub_add_cancel]
  refine ⟨?_, ?_, h.events, h.bytes⟩
  · rw [hseq, hn]
    exact hperm.map _
  · rw [hn]
    exact h.counter

end Numbers

/-- The thread with the second slot draws the first number. -/
theorem concurrent_sequence_numbers_overtaking : ∃ w dir,
    JournalWriter.open ⟨fun _ => 0, fun _ => none⟩ {} ∅ 1048576 = some (.kOk, w, dir) ∧
      ∃ s : System Bool, Runs.run (step ⟨fun _ => 0, fun _ => none⟩) { writer := w, dir := dir }
          (overtaking ++ List.replicate 3 (.next false)) = some s ∧
        s.log.map (·.offset) = [224, 64] ∧
        (s.log.map (·.seq)).Perm [w.sequenceCounter + 1, w.sequenceCounter + 2] := by
  have hopen : OpensAll ⟨fun _ => 0, fun _ => none⟩ 1048576 := opensAll_mebibyte _
  obtain ⟨w, dir, hstart, hw, hs, hid, hoff, hmaps⟩ := open_fresh hopen
  obtain ⟨s₁, s, hrun₁, hrun₂, -, -, -, -, hidle, hlog⟩ :=
    run_overtaken ⟨fun _ => 0, fun _ => none⟩ (e := {}) hmaps hs hoff
  have hrun : Runs.run (step ⟨fun _ => 0, fun _ => none⟩) { writer := w, dir := dir }
      (overtaking ++ List.replicate 3 (.next false)) = some s := by
    rw [overtaking, List.cons_append, List.cons_append, run_bothReserved hw,
      Runs.run_append hrun₁, hrun₂]
  have hnumbers := (concurrent_sequence_numbers hrun hidle (by decide)).1
  have hlength : s.log.length = 2 := by
    rw [hlog]
    rfl
  rw [hlength] at hnumbers
  refine ⟨w, dir, hstart, s, hrun, ?_, hnumbers⟩
  rw [hlog]
  rfl

end ConcurrentAppend

end Ume
