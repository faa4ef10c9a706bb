import Mathlib.Data.Fintype.Basic
import Ume.Lib.Runs

/-! The worker thread of the optimizer and of the prefetch engine, whose `start`, `stop`
and destructor are the same code. Any number of threads call them. Each section under
the mutex is one step, as are the tests of the thread handle outside of it and the two
halves of a pass of the worker. -/

namespace Ume

inductive WorkerThread where
  | testing
  | passing
  | finished
  deriving DecidableEq

namespace WorkerOwner

/-- Where a caller is: before `joinable`, in `join`, or at the destructors of the members. -/
inductive Pc where
  | idle
  | joinable (destroying : Bool)
  | join (destroying : Bool)
  | members
  deriving DecidableEq

/-- What is left to do when `stop` returns. -/
def Pc.afterStop : Bool → Pc
  | true => .members
  | false => .idle

def Pc.stopping : Pc → Bool
  | .joinable _ | .join _ => true
  | _ => false

end WorkerOwner

open WorkerOwner in
/-- The handle names the thread it can join. The threads are those started so far, and
`terminated` says that the program was ended by `std::terminate`. -/
structure WorkerOwner (ι : Type*) where
  isRunning : Bool := false
  workerThread : Option Nat := none
  threads : List WorkerThread := []
  pc : ι → Pc := fun _ => .idle
  destroyed : Bool := false
  terminated : Bool := false

namespace WorkerOwner

inductive Action (ι : Type*) where
  | start (c : ι)
  | stop (c : ι)
  | destroy (c : ι)
  | next (c : ι)
  | worker (k : Nat)

variable {ι : Type*}

/-- A handle that can still be joined must not be assigned to. -/
def start (s : WorkerOwner ι) : WorkerOwner ι :=
  if s.isRunning then s
  else if s.workerThread.isSome then { s with isRunning := true, terminated := true }
  else
    { s with
      isRunning := true
      workerThread := some s.threads.length
      threads := s.threads ++ [.testing] }

/-- One half of a pass of `worker_loop`. -/
def worker (s : WorkerOwner ι) (k : Nat) : Option (WorkerOwner ι) :=
  match s.threads[k]? with
  | some .testing =>
    some { s with threads := s.threads.set k (if s.isRunning then .passing else .finished) }
  | some .passing => some { s with threads := s.threads.set k .testing }
  | _ => none

/-- What holds between any two steps while the program goes on. The handle can be
joined from `start` to the end of the `stop` that follows it. -/
structure Inv (s : WorkerOwner ι) : Prop where
  handle : ∀ k, s.workerThread = some k → k < s.threads.length
  others : ∀ (k : Nat) (t : WorkerThread), s.threads[k]? = some t → s.workerThread ≠ some k →
    t = .finished
  running : s.isRunning = true → s.workerThread.isSome = true
  stopping : (∃ c, (s.pc c).stopping = true) ↔
    s.isRunning = false ∧ s.workerThread.isSome = true
  unique : ∀ c c', (s.pc c).stopping = true → (s.pc c').stopping = true → c = c'
  destroying : ∀ c, s.pc c = .joinable true ∨ s.pc c = .join true → s.destroyed = true
  members : ∀ c, s.pc c = .members →
    s.destroyed = true ∧ s.isRunning = false ∧ s.workerThread = none

theorem inv_initial : Inv ({} : WorkerOwner ι) where
  handle _ hk := by cases hk
  others k t ht _ := by simp at ht
  running hr := by cases hr
  stopping := by simp [Pc.stopping]
  unique _ _ hc _ := by cases hc
  destroying _ hc := by rcases hc with hc | hc <;> cases hc
  members _ hc := by cases hc

namespace Inv

variable {s s' : WorkerOwner ι} {c : ι}

theorem workerThread_eq_none (h : Inv s) (hstop : ∀ c, (s.pc c).stopping = false)
    (hrunning : s.isRunning = false) : s.workerThread = none := by
  by_contra hsome
  obtain ⟨c, hc⟩ := h.stopping.mpr ⟨hrunning, Option.isSome_iff_ne_none.mpr hsome⟩
  rw [hstop c] at hc
  cases hc

theorem start (h : Inv s) (hstop : ∀ c, (s.pc c).stopping = false)
    (hdestroyed : s.destroyed = false) :
    Inv s.start ∧ s.start.terminated = s.terminated := by
  by_cases hrunning : s.isRunning = true
  · rw [WorkerOwner.start, if_pos hrunning]
    exact ⟨h, rfl⟩
  · have hnone := h.workerThread_eq_none hstop (by simpa using hrunning)
    rw [WorkerOwner.start, if_neg hrunning, hnone, if_neg (by simp)]
    refine ⟨⟨?_, ?_, fun _ => rfl, ?_, h.unique, h.destroying, ?_⟩, rfl⟩
    · rintro k hk
      obtain rfl := Option.some.inj hk
      simp
    · intro k t ht hk
      have hne : k ≠ s.threads.length := fun hk' => hk (hk' ▸ rfl)
      by_cases hlt : k < s.threads.length
      · simp only [List.getElem?_append_left hlt] at ht
        exact h.others k t ht (by rw [hnone]; simp)
      · simp only at ht
        rw [List.getElem?_eq_none (by simp; omega)] at ht
        cases ht
    · simp [hstop]
    · intro c hc
      have hold := (h.members c hc).1
      rw [hdestroyed] at hold
      cases hold

/-- A `start` that finds the handle of a thread not yet joined ends the program. -/
theorem start_terminates (h : Inv s) (hc : (s.pc c).stopping = true) :
    s.start.terminated = true := by
  obtain ⟨hrunning, hsome⟩ := h.stopping.mp ⟨c, hc⟩
  simp [WorkerOwner.start, hrunning, hsome]

/-- Only the thread of the handle takes steps. -/
theorem setThread (h : Inv s) {k : Nat} {t : WorkerThread} (hk : s.threads[k]? = some t)
    (ht : t ≠ .finished) (t' : WorkerThread) : Inv { s with threads := s.threads.set k t' } := by
  have hhandle : s.workerThread = some k := by
    by_contra hne
    exact ht (h.others k t hk hne)
  refine { h with handle := fun j hj => ?_, others := fun j u hu hj => ?_ }
  · rw [List.length_set]
    exact h.handle j hj
  · have hne : k ≠ j := fun hkj => hj (hkj ▸ hhandle)
    rw [List.getElem?_set_ne hne] at hu
    exact h.others j u hu hj

theorem worker (h : Inv s) {k : Nat} (hs : s.worker k = some s') :
    Inv s' ∧ s'.terminated = s.terminated := by
  unfold WorkerOwner.worker at hs
  split at hs
  · next hk =>
    obtain rfl := Option.some.inj hs
    exact ⟨h.setThread hk (by simp) _, rfl⟩
  · next hk =>
    obtain rfl := Option.some.inj hs
    exact ⟨h.setThread hk (by simp) _, rfl⟩
  · cases hs

end Inv

variable [DecidableEq ι]

def setPc (s : WorkerOwner ι) (c : ι) (pc : Pc) : WorkerOwner ι :=
  { s with pc := Function.update s.pc c pc }

/-- The section under the mutex; the rest of `stop` follows in steps of its own. -/
def stop (s : WorkerOwner ι) (c : ι) (destroying : Bool) : WorkerOwner ι :=
  if s.isRunning then { s.setPc c (.joinable destroying) with isRunning := false }
  else s.setPc c (Pc.afterStop destroying)

def next (s : WorkerOwner ι) (c : ι) : Option (WorkerOwner ι) :=
  match s.pc c with
  | .idle => none
  | .joinable destroying =>
    if s.workerThread.isSome then some (s.setPc c (.join destroying))
    else some (s.setPc c (Pc.afterStop destroying))
  | .join destroying =>
    match s.workerThread with
    | none => some { s with terminated := true }
    | some k =>
      if s.threads[k]? = some .finished then
        some { s.setPc c (Pc.afterStop destroying) with workerThread := none }
      else none
  | .members =>
    if s.workerThread.isSome then some { s with terminated := true } else some (s.setPc c .idle)

namespace Inv

variable {s s' : WorkerOwner ι} {c : ι}

theorem pc_update {pc : Pc} (P : Pc → Prop) (hnew : P pc) (hold : ∀ c', c' ≠ c → P (s.pc c')) :
    ∀ c', P (Function.update s.pc c pc c') :=
  (Function.forall_update_iff s.pc fun _ pc => P pc).mpr ⟨hnew, hold⟩

/-- A caller takes the running flag and becomes the one that stops the thread. -/
theorem beginStop (h : Inv s) (hrunning : s.isRunning = true) {destroying destroyed : Bool}
    (hmono : s.destroyed = true → destroyed = true)
    (halone : destroying = true → destroyed = true) :
    Inv { s.setPc c (.joinable destroying) with isRunning := false, destroyed := destroyed } := by
  have hnone (c' : ι) : (s.pc c').stopping = false := by
    by_contra hc
    have hold := (h.stopping.mp ⟨c', by simpa using hc⟩).1
    rw [hrunning] at hold
    cases hold
  have honly (c' : ι) (hc : (Function.update s.pc c (.joinable destroying) c').stopping = true) :
      c' = c := by
    by_contra hne
    rw [Function.update_of_ne hne, hnone c'] at hc
    cases hc
  refine ⟨h.handle, h.others, nofun, ?_, ?_, ?_, ?_⟩
  · refine ⟨fun _ => ⟨rfl, h.running hrunning⟩, fun _ => ⟨c, ?_⟩⟩
    simp [setPc, Pc.stopping]
  · intro c₁ c₂ h₁ h₂
    exact (honly c₁ h₁).trans (honly c₂ h₂).symm
  · refine pc_update (fun pc => pc = .joinable true ∨ pc = .join true → destroyed = true) ?_ ?_
    · rintro (hpc | hpc)
      · exact halone (Pc.joinable.inj hpc)
      · cases hpc
    · intro c' _ hc'
      exact hmono (h.destroying c' hc')
  · refine pc_update (fun pc => pc = .members → destroyed = true ∧ false = false ∧
      s.workerThread = none) (by simp) fun c' _ hc' => ?_
    have hold := (h.members c' hc').2.1
    rw [hrunning] at hold
    cases hold

/-- A caller that goes on, inside of `stop` or outside of it. -/
theorem setPc (h : Inv s) {pc : Pc} (hsame : pc.stopping = (s.pc c).stopping) {destroyed : Bool}
    (hmono : s.destroyed = true → destroyed = true)
    (hdestroying : pc = .joinable true ∨ pc = .join true → destroyed = true)
    (hmembers : pc = .members →
      destroyed = true ∧ s.isRunning = false ∧ s.workerThread = none) :
    Inv { s.setPc c pc with destroyed := destroyed } := by
  have hall (c' : ι) : (Function.update s.pc c pc c').stopping = (s.pc c').stopping := by
    by_cases hc : c' = c
    · subst hc
      rw [Function.update_self, hsame]
    · rw [Function.update_of_ne hc]
  refine ⟨h.handle, h.others, h.running, ?_, ?_, ?_, ?_⟩
  · simp only [WorkerOwner.setPc, hall]
    exact h.stopping
  · simp only [WorkerOwner.setPc, hall]
    exact h.unique
  · exact pc_update (fun pc => pc = .joinable true ∨ pc = .join true → destroyed = true)
      hdestroying fun c' _ hc' => hmono (h.destroying c' hc')
  · refine pc_update (fun pc => pc = .members → destroyed = true ∧ s.isRunning = false ∧
      s.workerThread = none) hmembers fun c' _ hc' => ?_
    obtain ⟨hd, hrest⟩ := h.members c' hc'
    exact ⟨hmono hd, hrest⟩

/-- The locked section of `stop`, called directly or by the destructor. -/
theorem stop (h : Inv s) (hidle : s.pc c = .idle) {destroying destroyed : Bool}
    (hmono : s.destroyed = true → destroyed = true)
    (halone : destroying = true → destroyed = true ∧ ∀ c', s.pc c' = .idle) :
    Inv { s.stop c destroying with destroyed := destroyed } := by
  by_cases hrunning : s.isRunning = true
  · rw [WorkerOwner.stop, if_pos hrunning]
    exact h.beginStop hrunning hmono fun hd => (halone hd).1
  · rw [WorkerOwner.stop, if_neg hrunning]
    cases destroying with
    | false => exact h.setPc (by rw [hidle]; rfl) hmono nofun nofun
    | true =>
      obtain ⟨hd, hall⟩ := halone rfl
      have hrun : s.isRunning = false := by simpa using hrunning
      have hnone := h.workerThread_eq_none (fun c' => by rw [hall c']; rfl) hrun
      exact h.setPc (by rw [hidle]; rfl) hmono nofun fun _ => ⟨hd, hrun, hnone⟩

/-- The end of the join: no thread is left, and nobody stops one. -/
theorem endStop (h : Inv s) {destroying : Bool} {k : Nat} (hc : s.pc c = .join destroying)
    (hk : s.workerThread = some k) (hfinished : s.threads[k]? = some .finished) :
    Inv { s.setPc c (Pc.afterStop destroying) with workerThread := none } := by
  have hstopping : (s.pc c).stopping = true := by rw [hc]; rfl
  obtain ⟨hrunning, -⟩ := h.stopping.mp ⟨c, hstopping⟩
  have hnone : ∀ c', (Function.update s.pc c (Pc.afterStop destroying) c').stopping = false := by
    refine pc_update (fun pc => pc.stopping = false) (by cases destroying <;> rfl) fun c' hne => ?_
    by_contra hstop
    exact hne (h.unique c' c (by simpa using hstop) hstopping)
  refine ⟨nofun, ?_, ?_, ?_, ?_, ?_, ?_⟩
  · intro j t ht _
    by_cases hj : s.workerThread = some j
    · obtain rfl := Option.some.inj (hk.symm.trans hj)
      exact (Option.some.inj (hfinished.symm.trans ht)).symm
    · exact h.others j t ht hj
  · intro hr
    have hfalse : s.isRunning = true := hr
    rw [hrunning] at hfalse
    cases hfalse
  · simp [WorkerOwner.setPc, hnone]
  · intro c₁ _ h₁
    have hfalse := (hnone c₁).symm.trans h₁
    cases hfalse
  · refine pc_update (fun pc => pc = .joinable true ∨ pc = .join true → s.destroyed = true) ?_
      fun c' _ hc' => h.destroying c' hc'
    cases destroying <;> nofun
  · refine pc_update (fun pc => pc = .members → s.destroyed = true ∧ s.isRunning = false ∧
      none = none) (fun hpc => ?_) fun c' _ hc' => ?_
    · cases destroying with
      | false => cases hpc
      | true => exact ⟨h.destroying c (.inr hc), hrunning, rfl⟩
    · obtain ⟨hd, hr, -⟩ := h.members c' hc'
      exact ⟨hd, hr, rfl⟩

theorem next (h : Inv s) (hs : s.next c = some s') : Inv s' ∧ s'.terminated = s.terminated := by
  unfold WorkerOwner.next at hs
  cases hc : s.pc c with
  | idle =>
    rw [hc] at hs
    cases hs
  | joinable destroying =>
    have hstopping : (s.pc c).stopping = true := by rw [hc]; rfl
    obtain ⟨-, hsome⟩ := h.stopping.mp ⟨c, hstopping⟩
    simp only [hc, hsome, if_true] at hs
    obtain rfl := Option.some.inj hs
    have hsame : (Pc.join destroying).stopping = (s.pc c).stopping := hstopping.symm
    refine ⟨h.setPc hsame (fun hd => hd) (fun hpc => ?_) nofun, rfl⟩
    cases destroying with
    | true => exact h.destroying c (.inl hc)
    | false => rcases hpc with hpc | hpc <;> cases hpc
  | join destroying =>
    have hstopping : (s.pc c).stopping = true := by rw [hc]; rfl
    obtain ⟨-, hsome⟩ := h.stopping.mp ⟨c, hstopping⟩
    obtain ⟨k, hk⟩ := Option.isSome_iff_exists.mp hsome
    simp only [hc, hk] at hs
    split_ifs at hs with hfinished
    obtain rfl := Option.some.inj hs
    exact ⟨h.endStop hc hk hfinished, rfl⟩
  | members =>
    obtain ⟨-, -, hnone⟩ := h.members c hc
    simp only [hc, hnone] at hs
    obtain rfl := Option.some.inj hs
    exact ⟨h.setPc (by rw [hc]; rfl) (fun hd => hd) nofun nofun, rfl⟩

end Inv

theorem terminated_stop (s : WorkerOwner ι) (c : ι) (destroying : Bool) :
    (s.stop c destroying).terminated = s.terminated := by
  unfold stop
  split_ifs <;> rfl

variable [Fintype ι]

/-- Calls are made by threads that are in no other call, on an object that is not being
destroyed, and an object is destroyed when no call is under way. -/
def step (s : WorkerOwner ι) : Action ι → Option (WorkerOwner ι)
  | .start c =>
    if s.pc c = .idle ∧ s.destroyed = false ∧ s.terminated = false then some s.start else none
  | .stop c =>
    if s.pc c = .idle ∧ s.destroyed = false ∧ s.terminated = false then some (s.stop c false)
    else none
  | .destroy c =>
    if (∀ c', s.pc c' = .idle) ∧ s.destroyed = false ∧ s.terminated = false then
      some { s.stop c true with destroyed := true }
    else none
  | .next c => if s.terminated = false then s.next c else none
  | .worker k => if s.terminated = false then s.worker k else none

/-- No call of `start` is made while a thread is being stopped. -/
def NotWhileStopping (s : WorkerOwner ι) : Action ι → Prop
  | .start _ => ∀ c, (s.pc c).stopping = false
  | _ => True

variable {s s' : WorkerOwner ι} {a : Action ι}

theorem step_spec (h : Inv s) (hgood : s.terminated = false) (hs : s.step a = some s') :
    (s'.terminated = false ↔ s.NotWhileStopping a) ∧ (s'.terminated = false → Inv s') := by
  cases a with
  | start c =>
    obtain ⟨⟨-, hdestroyed, -⟩, hs⟩ := Option.ite_none_right_eq_some.mp hs
    obtain rfl := Option.some.inj hs
    by_cases hstop : ∀ c, (s.pc c).stopping = false
    · obtain ⟨hinv, hterminated⟩ := h.start hstop hdestroyed
      rw [hterminated, hgood]
      exact ⟨iff_of_true rfl hstop, fun _ => hinv⟩
    · obtain ⟨c', hc'⟩ := not_forall.mp hstop
      rw [h.start_terminates (c := c') (by simpa using hc')]
      exact ⟨iff_of_false (by simp) hstop, nofun⟩
  | stop c =>
    obtain ⟨⟨hidle, -, -⟩, hs⟩ := Option.ite_none_right_eq_some.mp hs
    obtain rfl := Option.some.inj hs
    have hinv : Inv { s.stop c false with destroyed := s.destroyed } :=
      h.stop hidle (fun hd => hd) nofun
    have hsame : { s.stop c false with destroyed := s.destroyed } = s.stop c false := by
      unfold WorkerOwner.stop
      split_ifs <;> rfl
    exact ⟨iff_of_true ((terminated_stop s c false).trans hgood) trivial, fun _ => hsame ▸ hinv⟩
  | destroy c =>
    obtain ⟨⟨hidle, -, -⟩, hs⟩ := Option.ite_none_right_eq_some.mp hs
    obtain rfl := Option.some.inj hs
    exact ⟨iff_of_true ((terminated_stop s c true).trans hgood) trivial,
      fun _ => h.stop (hidle c) (fun _ => rfl) fun _ => ⟨rfl, hidle⟩⟩
  | next c =>
    obtain ⟨-, hs⟩ := Option.ite_none_right_eq_some.mp hs
    obtain ⟨hinv, hterminated⟩ := h.next hs
    exact ⟨iff_of_true (hterminated.trans hgood) trivial, fun _ => hinv⟩
  | worker k =>
    obtain ⟨-, hs⟩ := Option.ite_none_right_eq_some.mp hs
    obtain ⟨hinv, hterminated⟩ := h.worker hs
    exact ⟨iff_of_true (hterminated.trans hgood) trivial, fun _ => hinv⟩

theorem not_terminated_of_step (hs : s.step a = some s') : s.terminated = false := by
  cases a with
  | start c | stop c | destroy c => exact (Option.ite_none_right_eq_some.mp hs).1.2.2
  | next c | worker k => exact (Option.ite_none_right_eq_some.mp hs).1

theorem inv_step (h : s.terminated = false → Inv s) (hs : s.step a = some s') :
    s'.terminated = false → Inv s' := by
  have hgood := not_terminated_of_step hs
  exact (step_spec (h hgood) hgood hs).2

/-- Once the flag is down, the thread ends after two of its steps at most, and the
join returns. -/
theorem Inv.join_returns (h : Inv s) (hgood : s.terminated = false) {c : ι} {destroying : Bool}
    (hc : s.pc c = .join destroying) :
    ∃ n ≤ 2, ∃ k t, Runs.run step s (List.replicate n (.worker k) ++ [.next c]) = some t ∧
      t.pc c = Pc.afterStop destroying ∧ t.workerThread = none := by
  have hstopping : (s.pc c).stopping = true := by rw [hc]; rfl
  obtain ⟨hrunning, hsome⟩ := h.stopping.mp ⟨c, hstopping⟩
  obtain ⟨k, hk⟩ := Option.isSome_iff_exists.mp hsome
  have hlt := h.handle k hk
  have hjoin (u : WorkerOwner ι) (hu : u.terminated = false) (hpc : u.pc = s.pc)
      (hthread : u.workerThread = some k) (hfinished : u.threads[k]? = some .finished) :
      ∃ t, Runs.run step u [.next c] = some t ∧ t.pc c = Pc.afterStop destroying ∧
        t.workerThread = none := by
    refine ⟨{ u.setPc c (Pc.afterStop destroying) with workerThread := none }, ?_, ?_, rfl⟩
    · simp [Runs.run, step, hu, WorkerOwner.next, hpc, hc, hthread, hfinished]
    · simp [WorkerOwner.setPc]
  have htest (u : WorkerOwner ι) (hu : u.terminated = false) (hpc : u.pc = s.pc)
      (hthread : u.workerThread = some k) (hflag : u.isRunning = false)
      (htesting : u.threads[k]? = some .testing) :
      ∃ t, Runs.run step u [.worker k, .next c] = some t ∧ t.pc c = Pc.afterStop destroying ∧
        t.workerThread = none := by
    have hlen : k < u.threads.length := (List.getElem?_eq_some_iff.mp htesting).1
    have hpass : u.step (.worker k) = some { u with threads := u.threads.set k .finished } := by
      simp [step, hu, WorkerOwner.worker, htesting, hflag]
    rw [Runs.run_cons hpass]
    exact hjoin _ hu hpc hthread (by simp [hlen])
  obtain ⟨t, ht⟩ : ∃ t, s.threads[k]? = some t := ⟨_, List.getElem?_eq_getElem hlt⟩
  cases t with
  | finished => exact ⟨0, by omega, k, hjoin s hgood rfl hk ht⟩
  | testing => exact ⟨1, by omega, k, htest s hgood rfl hk hrunning ht⟩
  | passing =>
    have hpass : s.step (.worker k) = some { s with threads := s.threads.set k .testing } := by
      simp [step, hgood, WorkerOwner.worker, ht]
    refine ⟨2, Nat.le_refl 2, k, ?_⟩
    show ∃ t, Runs.run step s [.worker k, .worker k, .next c] = some t ∧ _
    rw [Runs.run_cons hpass]
    exact htest _ hgood rfl hk hrunning (by simp [hlt])

/-- The program is never terminated exactly if no `start` is called while a thread is
being stopped. As long as it is not, at most one worker is left, none once the engine is
stopped and every call has returned, and a call that joins the worker returns after two
steps of the worker at most. -/
theorem worker_lifecycle {as : List (Action ι)} (hrun : Runs.run step {} as = some s) :
    (Runs.Throughout step (fun s => s.terminated = false) ({} : WorkerOwner ι) as ↔
      Runs.Along step NotWhileStopping {} as) ∧
    (s.terminated = false →
      (∀ (j k : Nat) t u, s.threads[j]? = some t → s.threads[k]? = some u → t ≠ .finished →
        u ≠ .finished → j = k) ∧
      (s.isRunning = false → (∀ c, s.pc c = .idle) → ∀ t ∈ s.threads, t = .finished) ∧
      ∀ c destroying, s.pc c = .join destroying →
        ∃ n ≤ 2, ∃ k t, Runs.run step s (List.replicate n (.worker k) ++ [.next c]) = some t ∧
          t.pc c = Pc.afterStop destroying ∧ t.workerThread = none) := by
  refine ⟨?_, fun hgood => ?_⟩
  · exact Runs.throughout_iff_along
      (fun u a u' h hg hu => (step_spec (h hg) hg hu).1) (fun u a u' h hu => inv_step h hu)
      (fun _ => inv_initial) rfl hrun
  · have h : Inv s := Runs.invariant (fun u a u' h hu => inv_step h hu)
      (fun _ => inv_initial) hrun hgood
    have hhandle {k : Nat} {t : WorkerThread} (ht : s.threads[k]? = some t)
        (hne : t ≠ .finished) : s.workerThread = some k := by
      by_contra hother
      exact hne (h.others k t ht hother)
    refine ⟨fun j k t u ht hu hne hne' => ?_, fun hrunning hidle t ht => ?_, fun c d hc => ?_⟩
    · exact Option.some.inj ((hhandle ht hne).symm.trans (hhandle hu hne'))
    · obtain ⟨k, hk⟩ := List.mem_iff_getElem?.mp ht
      refine h.others k t hk ?_
      rw [h.workerThread_eq_none (fun c => by rw [hidle c]; rfl) hrunning]
      exact nofun
    · exact h.join_returns hgood hc

/-- One caller has lowered the flag and not joined the thread when another one starts
the engine again. -/
def restarting : List (Action Bool) :=
  [.start false, .worker 0, .stop true, .next true, .start false]

theorem worker_lifecycle_restarting : ∃ s : WorkerOwner Bool,
    Runs.run step {} restarting = some s ∧ s.terminated = true ∧
      ¬ Runs.Along step NotWhileStopping ({} : WorkerOwner Bool) restarting := by
  have hlog : (Runs.run step ({} : WorkerOwner Bool) restarting).map (·.terminated) =
      some true := by decide +kernel
  obtain ⟨s, hs, hterminated⟩ := Option.map_eq_some_iff.mp hlog
  refine ⟨s, hs, hterminated, fun halong => ?_⟩
  have hgood : s.terminated = false :=
    (worker_lifecycle hs).1.mpr halong restarting List.prefix_rfl s hs
  rw [hterminated] at hgood
  cases hgood

end WorkerOwner

end Ume
