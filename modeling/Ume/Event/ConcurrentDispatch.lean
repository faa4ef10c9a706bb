import Mathlib.Data.Fintype.Basic
import Ume.Event.DispatchTrace
import Ume.Lib.Runs

/-! The dispatcher under its shared mutex. A dispatch holds the lock for reading and
calls the handlers one by one, a handler may dispatch again, and the other calls hold the
lock alone, but for those that are refused before they take it. What the handlers do to their
own state is left out. -/

namespace Ume

namespace EventDispatcher

/-- A dispatch that has begun: its position in the loop over the subscribers. Its place
among all calls and the handlers it has called are kept for the proofs. -/
structure Frame where
  event : Event
  index : Nat := 0
  place : Nat
  called : List SubscriptionToken := []

/-- Threads that use one dispatcher. A thread has several frames when a handler has
dispatched again; the innermost comes first. The last three fields are kept for the proofs:
the calls in the order in which they took effect, the dispatches that have returned, and the
handlers called. -/
structure Threads (P : Type*) (σ : Type*) where
  dispatcher : EventDispatcher σ := {}
  frames : P → List Frame := fun _ => []
  writer : Option (P × Call σ) := none
  history : List (Call σ) := []
  returned : List Frame := []
  log : List (SubscriptionToken × Event) := []

namespace Threads

variable {P σ : Type*}

/-- What a thread does next: `refuse` is a call that returns before the lock, `acquire` and
`release` are the ends of a call that takes it alone, the others are the parts of a
dispatch. -/
inductive Action (P σ : Type*) where
  | refuse (p : P) (c : Call σ)
  | acquire (p : P) (c : Call σ)
  | release (p : P)
  | begin (p : P) (event : Event)
  | next (p : P)
  | finish (p : P)

def Action.thread : Action P σ → P
  | refuse p _ | acquire p _ | release p | begin p _ | next p | finish p => p

/-- The effect of a call on the dispatcher. -/
def apply (d : EventDispatcher σ) : Call σ → EventDispatcher σ
  | .subscribeListener listener filter => (d.subscribeListener listener filter).2
  | .subscribeCallback callback filter => (d.subscribeCallback callback filter).2
  | .unsubscribe token => (d.unsubscribe token).2
  | .clear => d.clear
  | .dispatch _ => d

/-- One pass of the loop of `dispatch`. -/
def visit (sub : Subscriber σ) (f : Frame) : List SubscriptionToken :=
  if sub.filter.matches f.event && sub.handler.isSome then [sub.token] else []

/-- A null listener, an empty callback or an invalid token: the call returns before it takes
the lock. -/
def refused : Call σ → Bool
  | .subscribeListener listener _ => listener.isNone
  | .subscribeCallback callback _ => callback.isNone
  | .unsubscribe token => token = SubscriptionToken.kInvalid
  | .clear | .dispatch _ => false

theorem apply_of_refused {c : Call σ} (hc : refused c = true) (d : EventDispatcher σ) :
    apply d c = d := by
  cases c with
  | subscribeListener listener filter =>
    obtain rfl := Option.isNone_iff_eq_none.mp hc
    rfl
  | subscribeCallback callback filter =>
    obtain rfl := Option.isNone_iff_eq_none.mp hc
    rfl
  | unsubscribe token =>
    rw [apply, unsubscribe, if_pos (of_decide_eq_true hc)]
  | clear => cases hc
  | dispatch event => cases hc

variable [DecidableEq P] [Fintype P]

def step (s : Threads P σ) : Action P σ → Option (Threads P σ)
  | .refuse p c =>
    if refused c ∧ s.writer.map Prod.fst ≠ some p then some { s with history := s.history ++ [c] }
    else none
  | .acquire p c =>
    if s.writer.isNone ∧ c.event.isNone ∧ ¬ refused c ∧ ∀ q, (s.frames q).isEmpty then
      some { s with writer := some (p, c) }
    else none
  | .release p =>
    match s.writer with
    | some (q, c) =>
      if q = p then
        some { s with
          dispatcher := apply s.dispatcher c
          writer := none
          history := s.history ++ [c] }
      else none
    | none => none
  | .begin p event =>
    if s.writer.isNone then
      some { s with
        frames := Function.update s.frames p
          ({ event, place := s.history.length } :: s.frames p)
        history := s.history ++ [.dispatch event] }
    else none
  | .next p =>
    match s.frames p with
    | f :: rest =>
      match s.dispatcher.subscribers[f.index]? with
      | some sub =>
        some { s with
          frames := Function.update s.frames p
            ({ f with index := f.index + 1, called := f.called ++ visit sub f } :: rest)
          log := s.log ++ (visit sub f).map fun t => (t, f.event) }
      | none => none
    | [] => none
  | .finish p =>
    match s.frames p with
    | f :: rest =>
      if f.index = s.dispatcher.subscribers.length then
        some { s with
          frames := Function.update s.frames p rest
          returned := s.returned ++ [f] }
      else none
    | [] => none

section Inversion

variable {s s' : Threads P σ} {p : P}

theorem step_refuse {c : Call σ} (h : s.step (.refuse p c) = some s') :
    refused c = true ∧ s' = { s with history := s.history ++ [c] } := by
  obtain ⟨⟨hc, -⟩, hs⟩ := Option.ite_none_right_eq_some.mp h
  exact ⟨hc, (Option.some.inj hs).symm⟩

theorem step_acquire {c : Call σ} (h : s.step (.acquire p c) = some s') :
    s.writer = none ∧ c.event = none ∧ (∀ q, s.frames q = []) ∧
      s' = { s with writer := some (p, c) } := by
  obtain ⟨⟨hw, hc, -, hf⟩, hs⟩ := Option.ite_none_right_eq_some.mp h
  simp only [List.isEmpty_iff] at hf
  exact ⟨Option.isNone_iff_eq_none.mp hw, Option.isNone_iff_eq_none.mp hc, hf,
    (Option.some.inj hs).symm⟩

theorem step_release (h : s.step (.release p) = some s') :
    ∃ c, s.writer = some (p, c) ∧ s' = { s with
      dispatcher := apply s.dispatcher c
      writer := none
      history := s.history ++ [c] } := by
  simp only [step] at h
  split at h
  case h_1 q c hw =>
    obtain ⟨rfl, hs⟩ := Option.ite_none_right_eq_some.mp h
    exact ⟨c, hw, (Option.some.inj hs).symm⟩
  case h_2 => cases h

theorem step_begin {event : Event} (h : s.step (.begin p event) = some s') :
    s.writer = none ∧ s' = { s with
      frames := Function.update s.frames p
        ({ event, place := s.history.length } :: s.frames p)
      history := s.history ++ [.dispatch event] } := by
  obtain ⟨hw, h⟩ := Option.ite_none_right_eq_some.mp h
  exact ⟨Option.isNone_iff_eq_none.mp hw, (Option.some.inj h).symm⟩

theorem step_next (h : s.step (.next p) = some s') :
    ∃ f rest sub, s.frames p = f :: rest ∧ s.dispatcher.subscribers[f.index]? = some sub ∧
      s' = { s with
        frames := Function.update s.frames p
          ({ f with index := f.index + 1, called := f.called ++ visit sub f } :: rest)
        log := s.log ++ (visit sub f).map fun t => (t, f.event) } := by
  simp only [step] at h
  split at h
  case h_1 f rest hf =>
    split at h
    case h_1 sub hsub => exact ⟨f, rest, sub, hf, hsub, (Option.some.inj h).symm⟩
    case h_2 => cases h
  case h_2 => cases h

theorem step_finish (h : s.step (.finish p) = some s') :
    ∃ f rest, s.frames p = f :: rest ∧ f.index = s.dispatcher.subscribers.length ∧
      s' = { s with
        frames := Function.update s.frames p rest
        returned := s.returned ++ [f] } := by
  simp only [step] at h
  split at h
  case h_1 f rest hf =>
    obtain ⟨hi, h⟩ := Option.ite_none_right_eq_some.mp h
    exact ⟨f, rest, hf, hi, (Option.some.inj h).symm⟩
  case h_2 => cases h

end Inversion

/-- While a call has the lock alone, no dispatch is running. -/
structure Locked (s : Threads P σ) : Prop where
  exclusive : s.writer ≠ none → ∀ q, s.frames q = []
  mutates : ∀ p c, s.writer = some (p, c) → c.event = none

theorem Locked.step {s s' : Threads P σ} (hi : s.Locked) {a : Action P σ}
    (hs : s.step a = some s') : s'.Locked := by
  cases a with
  | refuse p c =>
    obtain ⟨-, rfl⟩ := step_refuse hs
    exact ⟨hi.exclusive, hi.mutates⟩
  | acquire p c =>
    obtain ⟨-, hc, hf, rfl⟩ := step_acquire hs
    refine ⟨fun _ => hf, fun p' c' hw => ?_⟩
    obtain ⟨-, rfl⟩ := Prod.mk.inj (Option.some.inj hw)
    exact hc
  | release p =>
    obtain ⟨c, -, rfl⟩ := step_release hs
    exact ⟨nofun, nofun⟩
  | begin p event =>
    obtain ⟨hw, rfl⟩ := step_begin hs
    exact ⟨fun hne => absurd hw hne, hi.mutates⟩
  | next p =>
    obtain ⟨f, rest, sub, hf, -, rfl⟩ := step_next hs
    refine ⟨fun hne => ?_, hi.mutates⟩
    simp [hi.exclusive hne p] at hf
  | finish p =>
    obtain ⟨f, rest, hf, -, rfl⟩ := step_finish hs
    refine ⟨fun hne => ?_, hi.mutates⟩
    simp [hi.exclusive hne p] at hf

theorem locked_of_run {s : Threads P σ} {as : List (Action P σ)}
    (h : Runs.run step ({} : Threads P σ) as = some s) : s.Locked := by
  have hnew : ({} : Threads P σ).Locked := ⟨nofun, nofun⟩
  exact Runs.invariant (fun _ _ _ hi hs => Locked.step hi hs) hnew h

end Threads

section Linear

variable {P σ : Type*} {x : σ} {h : List (Call σ)} {f : Frame}

theorem dispatcher_concat (x : σ) (h : List (Call σ)) (c : Call σ) :
    (run x (h ++ [c])).dispatcher = Threads.apply (run x h).dispatcher c := by
  rw [run_concat]
  cases c <;> rfl

namespace Frame

/-- The dispatcher when the dispatch of the frame took its place among the calls. -/
def atStart (f : Frame) (x : σ) (h : List (Call σ)) : EventDispatcher σ :=
  (run x (h.take f.place)).dispatcher

def Placed (f : Frame) (h : List (Call σ)) : Prop := h[f.place]? = some (.dispatch f.event)

theorem Placed.append (hp : f.Placed h) (c : Call σ) : f.Placed (h ++ [c]) := by
  have hlt : f.place < h.length := (List.getElem?_eq_some_iff.mp hp).1
  rw [Placed, List.getElem?_append_left hlt]
  exact hp

theorem Placed.atStart_append (hp : f.Placed h) (c : Call σ) :
    f.atStart x (h ++ [c]) = f.atStart x h := by
  have hlt : f.place < h.length := (List.getElem?_eq_some_iff.mp hp).1
  rw [atStart, List.take_append_of_le_length hlt.le, atStart]

/-- The dispatch has called what a dispatch at its place would call. -/
structure Returned (f : Frame) (x : σ) (h : List (Call σ)) : Prop where
  placed : f.Placed h
  called : f.called = ((f.atStart x h).called f.event).map Subscriber.token

/-- The dispatch is somewhere in its loop over subscribers that are those of its place. -/
structure Running (f : Frame) (x : σ) (h : List (Call σ)) (d : EventDispatcher σ) : Prop where
  placed : f.Placed h
  same : f.atStart x h = d
  called : f.called =
    ((d.subscribers.take f.index).filter fun sub =>
      sub.filter.matches f.event && sub.handler.isSome).map Subscriber.token

theorem Returned.append (hr : f.Returned x h) (c : Call σ) : f.Returned x (h ++ [c]) :=
  ⟨hr.placed.append c, by rw [hr.placed.atStart_append c, hr.called]⟩

end Frame

/-- Every call has had, or is about to have, the effect of its place in the history. -/
structure Threads.Linear (x : σ) (s : Threads P σ) : Prop where
  dispatcher : s.dispatcher = (run x s.history).dispatcher
  running : ∀ q, ∀ f ∈ s.frames q, f.Running x s.history s.dispatcher
  returned : ∀ f ∈ s.returned, f.Returned x s.history

theorem Frame.Running.append {d : EventDispatcher σ} (hr : f.Running x h d) (c : Call σ) :
    f.Running x (h ++ [c]) d :=
  ⟨hr.placed.append c, by rw [hr.placed.atStart_append c, hr.same], hr.called⟩

theorem Frame.running_begin {d : EventDispatcher σ} (event : Event)
    (hd : d = (run x h).dispatcher) :
    Frame.Running { event, place := h.length } x (h ++ [.dispatch event]) d where
  placed := List.getElem?_concat_length
  same := by rw [atStart, List.take_left, hd]
  called := rfl

theorem Frame.Running.next {d : EventDispatcher σ} (hr : f.Running x h d) {sub : Subscriber σ}
    (hsub : d.subscribers[f.index]? = some sub) :
    Frame.Running { f with index := f.index + 1, called := f.called ++ Threads.visit sub f }
      x h d where
  placed := hr.placed
  same := hr.same
  called := by
    rw [List.take_add_one, hsub, Option.toList_some, List.filter_append, List.map_append,
      ← hr.called, Threads.visit]
    by_cases hm : (sub.filter.matches f.event && sub.handler.isSome) = true
    · simp [hm]
    · simp [hm]

theorem Frame.Running.returned {d : EventDispatcher σ} (hr : f.Running x h d)
    (hend : f.index = d.subscribers.length) : f.Returned x h where
  placed := hr.placed
  called := by
    rw [hr.called, hend, List.take_length, hr.same]
    rfl

namespace Threads

theorem linear_new (x : σ) : Linear x ({} : Threads P σ) :=
  ⟨rfl, by simp, by simp⟩

variable [DecidableEq P] [Fintype P] {s s' : Threads P σ}

theorem Linear.step (hi : s.Linear x) (hl : s.Locked) {a : Action P σ}
    (hs : s.step a = some s') : s'.Linear x := by
  cases a with
  | refuse p c =>
    obtain ⟨hc, rfl⟩ := step_refuse hs
    refine ⟨?_, fun q f hm => (hi.running q f hm).append c, fun f hm => (hi.returned f hm).append c⟩
    rw [dispatcher_concat, apply_of_refused hc, ← hi.dispatcher]
  | acquire p c =>
    obtain ⟨-, -, -, rfl⟩ := step_acquire hs
    exact ⟨hi.dispatcher, hi.running, hi.returned⟩
  | release p =>
    obtain ⟨c, hw, rfl⟩ := step_release hs
    have hf := hl.exclusive (by simp [hw])
    refine ⟨?_, ?_, fun f hm => (hi.returned f hm).append c⟩
    · rw [dispatcher_concat, ← hi.dispatcher]
    · intro q f hm
      simp [hf q] at hm
  | begin p event =>
    obtain ⟨hw, rfl⟩ := step_begin hs
    have hold : ∀ q, ∀ f ∈ s.frames q, f.Running x (s.history ++ [.dispatch event]) s.dispatcher :=
      fun q f hm => (hi.running q f hm).append _
    refine ⟨?_, (Function.forall_update_iff s.frames fun _ fs => ∀ f ∈ fs, f.Running x
      (s.history ++ [.dispatch event]) s.dispatcher).mpr ⟨?_, fun q _ => hold q⟩,
      fun f hm => (hi.returned f hm).append _⟩
    · rw [dispatcher_concat, ← hi.dispatcher]
      rfl
    · rw [List.forall_mem_cons]
      exact ⟨Frame.running_begin event hi.dispatcher, hold p⟩
  | next p =>
    obtain ⟨f, rest, sub, hf, hsub, rfl⟩ := step_next hs
    have hp := hi.running p
    rw [hf, List.forall_mem_cons] at hp
    refine ⟨hi.dispatcher, (Function.forall_update_iff s.frames fun _ fs => ∀ f ∈ fs, f.Running x
      s.history s.dispatcher).mpr ⟨?_, fun q _ => hi.running q⟩, hi.returned⟩
    rw [List.forall_mem_cons]
    exact ⟨hp.1.next hsub, hp.2⟩
  | finish p =>
    obtain ⟨f, rest, hf, hend, rfl⟩ := step_finish hs
    have hp := hi.running p
    rw [hf, List.forall_mem_cons] at hp
    refine ⟨hi.dispatcher, (Function.forall_update_iff s.frames fun _ fs => ∀ f ∈ fs, f.Running x
      s.history s.dispatcher).mpr ⟨hp.2, fun q _ => hi.running q⟩, ?_⟩
    rw [List.forall_mem_append, List.forall_mem_singleton]
    exact ⟨hi.returned, hp.1.returned hend⟩

theorem linear_of_run {as : List (Action P σ)} (x : σ)
    (h : Runs.run step ({} : Threads P σ) as = some s) : s.Linear x := by
  have hstep (u : Threads P σ) (a : Action P σ) (u' : Threads P σ)
      (hu : u.Linear x ∧ u.Locked) (hs : u.step a = some u') : u'.Linear x ∧ u'.Locked :=
    ⟨hu.1.step hu.2 hs, hu.2.step hs⟩
  exact (Runs.invariant hstep ⟨linear_new x, nofun, nofun⟩ h).1

/-- Two threads dispatch one event to one callback at the same time. -/
def bothDispatch : List (Action Bool Unit) :=
  [.acquire false (.subscribeCallback (some fun u _ => u) {}), .release false, .begin false {},
    .begin true {}, .next true, .next false, .finish true, .finish false]

end Threads

end Linear

namespace Threads

variable {P σ : Type*}

theorem mem_apply {d : EventDispatcher σ} {c : Call σ} {sub : Subscriber σ}
    (h : sub ∈ (apply d c).subscribers) :
    sub ∈ d.subscribers ∨ c.accepted = true ∧ sub.token = d.tokenCounter + 1 := by
  cases c with
  | subscribeListener listener filter =>
    cases listener with
    | none => exact .inl h
    | some listener =>
      refine (List.mem_append.mp h).imp_right fun hm => ⟨rfl, ?_⟩
      rw [List.mem_singleton.mp hm]
  | subscribeCallback callback filter =>
    cases callback with
    | none => exact .inl h
    | some callback =>
      refine (List.mem_append.mp h).imp_right fun hm => ⟨rfl, ?_⟩
      rw [List.mem_singleton.mp hm]
  | unsubscribe token =>
    refine .inl ?_
    simp only [apply, unsubscribe] at h
    split_ifs at h
    · exact h
    · exact h
    · exact (List.mem_filter.mp h).1
  | clear => cases h
  | dispatch event => exact .inl h

theorem token_ne_of_removes {d : EventDispatcher σ} {c : Call σ} {t : SubscriptionToken}
    (hr : c.removes t = true) (ht : t ≠ SubscriptionToken.kInvalid) :
    ∀ sub ∈ (apply d c).subscribers, sub.token ≠ t := by
  cases c with
  | unsubscribe token =>
    obtain rfl : token = t := of_decide_eq_true hr
    intro sub hsub
    simp only [apply, unsubscribe, if_neg ht] at hsub
    split_ifs at hsub with hlen
    · rw [← List.filter_sublist.eq_of_length hlen] at hsub
      exact of_decide_eq_true (List.mem_filter.mp hsub).2
    · exact of_decide_eq_true (List.mem_filter.mp hsub).2
  | clear => simp [apply, clear]
  | subscribeListener listener filter => cases hr
  | subscribeCallback callback filter => cases hr
  | dispatch event => cases hr

theorem tokenCounter_apply (d : EventDispatcher σ) (c : Call σ) :
    (apply d c).tokenCounter = if c.accepted then d.tokenCounter + 1 else d.tokenCounter := by
  cases c with
  | subscribeListener listener filter => cases listener <;> rfl
  | subscribeCallback callback filter => cases callback <;> rfl
  | unsubscribe token =>
    rw [if_neg (show ¬(Call.unsubscribe token : Call σ).accepted = true from Bool.false_ne_true)]
    simp only [apply, unsubscribe]
    split_ifs <;> rfl
  | clear => rfl
  | dispatch event => rfl

/-- No subscription has the token any more, and nothing has been called for it since the
log was `before`. -/
structure Gone (t : SubscriptionToken) (before : List (SubscriptionToken × Event))
    (s : Threads P σ) : Prop where
  subscribers : ∀ sub ∈ s.dispatcher.subscribers, sub.token ≠ t
  issued : t.toNat ≤ s.dispatcher.tokenCounter.toNat
  log : ∃ more, s.log = before ++ more ∧ ∀ r ∈ more, r.1 ≠ t

variable [DecidableEq P] [Fintype P] {s s' : Threads P σ} {t : SubscriptionToken}
  {before : List (SubscriptionToken × Event)}

theorem Gone.step (hg : s.Gone t before) {a : Action P σ}
    (hok : s.dispatcher.tokenCounter.toNat + 1 < 2 ^ 64) (hs : s.step a = some s') :
    s'.Gone t before := by
  cases a with
  | refuse p c =>
    obtain ⟨-, rfl⟩ := step_refuse hs
    exact ⟨hg.subscribers, hg.issued, hg.log⟩
  | acquire p c =>
    obtain ⟨-, -, -, rfl⟩ := step_acquire hs
    exact ⟨hg.subscribers, hg.issued, hg.log⟩
  | release p =>
    obtain ⟨c, -, rfl⟩ := step_release hs
    have hone := toNat_add_one hok
    refine ⟨?_, ?_, hg.log⟩
    · intro sub hsub heq
      rcases mem_apply hsub with hold | ⟨-, hnew⟩
      · exact hg.subscribers sub hold heq
      · have hissued := hg.issued
        rw [← heq, hnew, hone] at hissued
        exact absurd hissued (Nat.not_succ_le_self _)
    · have hissued := hg.issued
      simp only [tokenCounter_apply]
      split_ifs
      · rw [hone]
        exact Nat.le_succ_of_le hissued
      · exact hissued
  | begin p event =>
    obtain ⟨-, rfl⟩ := step_begin hs
    exact ⟨hg.subscribers, hg.issued, hg.log⟩
  | next p =>
    obtain ⟨f, rest, sub, hf, hsub, rfl⟩ := step_next hs
    refine ⟨hg.subscribers, hg.issued, ?_⟩
    obtain ⟨more, hlog, hmore⟩ := hg.log
    refine ⟨more ++ (visit sub f).map fun t => (t, f.event), ?_, ?_⟩
    · rw [hlog, List.append_assoc]
    · rw [List.forall_mem_append]
      refine ⟨hmore, ?_⟩
      have hne := hg.subscribers sub (List.mem_of_getElem? hsub)
      intro r hr
      obtain ⟨t', ht', rfl⟩ := List.mem_map.mp hr
      rw [visit] at ht'
      split_ifs at ht'
      · rw [List.mem_singleton.mp ht']
        exact hne
      · cases ht'
  | finish p =>
    obtain ⟨f, rest, -, -, rfl⟩ := step_finish hs
    exact ⟨hg.subscribers, hg.issued, hg.log⟩

/-- The steps of other threads leave the frames of a thread as they are. -/
theorem frames_step {p : P} {a : Action P σ} (ha : a.thread ≠ p) (hs : s.step a = some s') :
    s'.frames p = s.frames p := by
  cases a with
  | refuse q c =>
    obtain ⟨-, rfl⟩ := step_refuse hs
    rfl
  | acquire q c =>
    obtain ⟨-, -, -, rfl⟩ := step_acquire hs
    rfl
  | release q =>
    obtain ⟨c, -, rfl⟩ := step_release hs
    rfl
  | begin q event =>
    obtain ⟨-, rfl⟩ := step_begin hs
    exact Function.update_of_ne (Ne.symm ha) _ _
  | next q =>
    obtain ⟨f, rest, sub, -, -, rfl⟩ := step_next hs
    exact Function.update_of_ne (Ne.symm ha) _ _
  | finish q =>
    obtain ⟨f, rest, -, -, rfl⟩ := step_finish hs
    exact Function.update_of_ne (Ne.symm ha) _ _

theorem frames_run {p : P} {as : List (Action P σ)} (ha : ∀ a ∈ as, a.thread ≠ p)
    (h : Runs.run step s as = some s') : s'.frames p = s.frames p := by
  induction as generalizing s with
  | nil => rw [Option.some.inj h]
  | cons a as ih =>
    rw [List.forall_mem_cons] at ha
    obtain ⟨s₁, hs, hrest⟩ := Runs.run_cons_eq_some.mp h
    rw [ih ha.2 hrest, frames_step ha.1 hs]

/-- One thread has taken the lock to remove what another has subscribed. -/
def removing : List (Action Bool Unit) :=
  [.acquire false (.subscribeCallback (some fun u _ => u) {}), .release false,
    .acquire true (.unsubscribe 1)]

end Threads

end EventDispatcher

end Ume
