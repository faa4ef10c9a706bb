import Mathlib.Data.List.Induction
import Mathlib.Data.List.Nodup
import Ume.Event.EventDispatcher

/-! Whole runs of a dispatcher with the trace of what it delivers. -/

namespace Ume

variable {σ : Type*}

def Subscriber.handler (sub : Subscriber σ) : Option (σ → Event → σ) :=
  match sub.listener with
  | some listener => some listener
  | none => sub.callback

namespace EventDispatcher

/-- The subscribers whose handler a dispatch calls, in the order of the calls. -/
def called (d : EventDispatcher σ) (event : Event) : List (Subscriber σ) :=
  d.subscribers.filter fun sub => sub.filter.matches event && sub.handler.isSome

theorem dispatch_eq_called (d : EventDispatcher σ) (s : σ) (event : Event) :
    d.dispatch s event = (d.called event).foldl
      (fun s sub => (sub.handler.map fun handler => handler s event).getD s) s := by
  unfold dispatch called
  generalize d.subscribers = subs
  induction subs generalizing s with
  | nil => rfl
  | cons sub subs ih =>
    have hnotify : notify sub s event =
        if sub.filter.matches event && sub.handler.isSome then
          (sub.handler.map fun handler => handler s event).getD s
        else s := by
      unfold notify Subscriber.handler
      cases sub.filter.matches event <;> cases sub.listener <;> cases sub.callback <;> rfl
    rw [List.foldl_cons, ih, hnotify, List.filter_cons]
    split_ifs <;> rfl

inductive Call (σ : Type*) where
  | subscribeListener (listener : Option (σ → Event → σ)) (filter : EventFilter)
  | subscribeCallback (callback : Option (σ → Event → σ)) (filter : EventFilter)
  | unsubscribe (token : SubscriptionToken)
  | clear
  | dispatch (event : Event)

/-- A dispatcher, the state its handlers own, and the deliveries so far. -/
structure Run (σ : Type*) where
  dispatcher : EventDispatcher σ := {}
  state : σ
  delivered : List (SubscriptionToken × Event) := []

def Run.step (r : Run σ) : Call σ → Run σ
  | .subscribeListener listener filter =>
    { r with dispatcher := (r.dispatcher.subscribeListener listener filter).2 }
  | .subscribeCallback callback filter =>
    { r with dispatcher := (r.dispatcher.subscribeCallback callback filter).2 }
  | .unsubscribe token => { r with dispatcher := (r.dispatcher.unsubscribe token).2 }
  | .clear => { r with dispatcher := r.dispatcher.clear }
  | .dispatch event =>
    { r with
      state := r.dispatcher.dispatch r.state event
      delivered := r.delivered ++ (r.dispatcher.called event).map fun sub => (sub.token, event) }

namespace Call

def pushed (token : SubscriptionToken) : Call σ → List (Subscriber σ)
  | subscribeListener (some listener) filter => [{ token, listener := some listener, filter }]
  | subscribeCallback (some callback) filter => [{ token, callback := some callback, filter }]
  | _ => []

def accepted : Call σ → Bool
  | subscribeListener listener _ => listener.isSome
  | subscribeCallback callback _ => callback.isSome
  | _ => false

def token (d : EventDispatcher σ) : Call σ → SubscriptionToken
  | subscribeListener listener filter => (d.subscribeListener listener filter).1
  | subscribeCallback callback filter => (d.subscribeCallback callback filter).1
  | _ => SubscriptionToken.kInvalid

def filter : Call σ → EventFilter
  | subscribeListener _ filter | subscribeCallback _ filter => filter
  | _ => {}

def removes (token : SubscriptionToken) : Call σ → Bool
  | unsubscribe token' => token' = token
  | clear => true
  | _ => false

def event : Call σ → Option Event
  | dispatch event => some event
  | _ => none

end Call

/-- Tokens are positive, in the order of the subscriptions, and every subscriber
has a handler. -/
structure WellFormed (d : EventDispatcher σ) : Prop where
  handler : ∀ sub ∈ d.subscribers, sub.handler.isSome
  pos : ∀ sub ∈ d.subscribers, sub.token ≠ SubscriptionToken.kInvalid
  le : ∀ sub ∈ d.subscribers, sub.token.toNat ≤ d.tokenCounter.toNat
  sorted : d.subscribers.Pairwise fun sub sub' => sub.token.toNat < sub'.token.toNat

section Step

variable {r : Run σ} {c : Call σ}

theorem subscribers_unsubscribe (d : EventDispatcher σ)
    (hpos : ∀ sub ∈ d.subscribers, sub.token ≠ SubscriptionToken.kInvalid)
    (token : SubscriptionToken) : (d.unsubscribe token).2 =
      { d with subscribers := d.subscribers.filter fun sub => sub.token ≠ token } := by
  by_cases hinvalid : token = SubscriptionToken.kInvalid
  · have hall : d.subscribers.filter (fun sub => sub.token ≠ token) = d.subscribers := by
      rw [List.filter_eq_self]
      intro sub hsub
      rw [hinvalid]
      exact decide_eq_true (hpos sub hsub)
    rw [unsubscribe, if_pos hinvalid, hall]
  · rw [unsubscribe, if_neg hinvalid]
    by_cases hsame : (d.subscribers.filter fun sub => sub.token ≠ token).length =
        d.subscribers.length
    · rw [if_pos hsame, List.filter_sublist.eq_of_length hsame]
    · rw [if_neg hsame]

theorem subscribers_step (h : WellFormed r.dispatcher) (c : Call σ) :
    (r.step c).dispatcher.subscribers =
      (r.dispatcher.subscribers.filter fun sub => !c.removes sub.token) ++
        c.pushed (r.dispatcher.tokenCounter + 1) := by
  cases c with
  | subscribeListener listener filter =>
    cases listener with
    | none => simp [Run.step, subscribeListener, Call.removes, Call.pushed]
    | some listener => simp [Run.step, subscribeListener, Call.removes, Call.pushed]
  | subscribeCallback callback filter =>
    cases callback with
    | none => simp [Run.step, subscribeCallback, Call.removes, Call.pushed]
    | some callback => simp [Run.step, subscribeCallback, Call.removes, Call.pushed]
  | unsubscribe token =>
    simp only [Run.step, subscribers_unsubscribe _ h.pos, Call.removes, Call.pushed,
      List.append_nil]
    apply List.filter_congr
    intro sub _
    simp [eq_comm]
  | clear => simp [Run.step, clear, Call.removes, Call.pushed]
  | dispatch event => simp [Run.step, Call.removes, Call.pushed]

theorem tokenCounter_step (r : Run σ) (c : Call σ) :
    (r.step c).dispatcher.tokenCounter =
      if c.accepted then r.dispatcher.tokenCounter + 1 else r.dispatcher.tokenCounter := by
  cases c with
  | subscribeListener listener filter => cases listener <;> rfl
  | subscribeCallback callback filter => cases callback <;> rfl
  | unsubscribe token =>
    rw [if_neg (show ¬(Call.unsubscribe token : Call σ).accepted = true from Bool.false_ne_true)]
    simp only [Run.step, unsubscribe]
    split_ifs <;> rfl
  | clear | dispatch event => rfl

theorem token_of_accepted (h : c.accepted = true) (d : EventDispatcher σ) :
    c.token d = d.tokenCounter + 1 := by
  cases c with
  | subscribeListener listener filter =>
    cases listener with
    | none => cases h
    | some listener => rfl
  | subscribeCallback callback filter =>
    cases callback with
    | none => cases h
    | some callback => rfl
  | unsubscribe token => cases h
  | clear => cases h
  | dispatch event => cases h

theorem pushed_of_accepted (h : c.accepted = true) (t : SubscriptionToken) :
    ∃ sub, c.pushed t = [sub] ∧ sub.token = t ∧ sub.filter = c.filter ∧
      sub.handler.isSome := by
  cases c with
  | subscribeListener listener filter =>
    cases listener with
    | none => cases h
    | some listener => exact ⟨_, rfl, rfl, rfl, rfl⟩
  | subscribeCallback callback filter =>
    cases callback with
    | none => cases h
    | some callback => exact ⟨_, rfl, rfl, rfl, rfl⟩
  | unsubscribe token => cases h
  | clear => cases h
  | dispatch event => cases h

theorem pushed_of_not_accepted (h : c.accepted = false) (t : SubscriptionToken) :
    c.pushed t = [] := by
  cases c with
  | subscribeListener listener filter =>
    cases listener with
    | none => rfl
    | some listener => cases h
  | subscribeCallback callback filter =>
    cases callback with
    | none => rfl
    | some callback => cases h
  | unsubscribe token => rfl
  | clear => rfl
  | dispatch event => rfl

theorem wellFormed_empty : WellFormed ({} : EventDispatcher σ) :=
  ⟨by simp, by simp, by simp, List.Pairwise.nil⟩

theorem WellFormed.step (h : WellFormed r.dispatcher)
    (hlt : c.accepted = true → r.dispatcher.tokenCounter.toNat + 1 < 2 ^ 64) :
    WellFormed (r.step c).dispatcher := by
  cases ha : c.accepted with
  | false =>
    have hsubs : (r.step c).dispatcher.subscribers.Sublist r.dispatcher.subscribers := by
      rw [subscribers_step h, pushed_of_not_accepted ha, List.append_nil]
      exact List.filter_sublist
    have hcounter : (r.step c).dispatcher.tokenCounter = r.dispatcher.tokenCounter := by
      rw [tokenCounter_step, ha]
      rfl
    refine ⟨fun sub hsub => h.handler sub (hsubs.subset hsub),
      fun sub hsub => h.pos sub (hsubs.subset hsub), fun sub hsub => ?_, h.sorted.sublist hsubs⟩
    rw [hcounter]
    exact h.le sub (hsubs.subset hsub)
  | true =>
    obtain ⟨new, hpushed, htoken, -, hhandler⟩ :=
      pushed_of_accepted ha (r.dispatcher.tokenCounter + 1)
    have hcounter : (r.step c).dispatcher.tokenCounter.toNat =
        r.dispatcher.tokenCounter.toNat + 1 := by
      rw [tokenCounter_step, if_pos ha, toNat_add_one (hlt ha)]
    have hnew : new.token.toNat = r.dispatcher.tokenCounter.toNat + 1 := by
      rw [htoken, toNat_add_one (hlt ha)]
    have hsubs := subscribers_step h c
    rw [hpushed] at hsubs
    have hold : ∀ sub ∈ r.dispatcher.subscribers.filter fun sub => !c.removes sub.token,
        sub ∈ r.dispatcher.subscribers := fun sub hsub => (List.mem_filter.mp hsub).1
    constructor
    · rw [hsubs, List.forall_mem_append, List.forall_mem_singleton]
      exact ⟨fun sub hsub => h.handler sub (hold sub hsub), hhandler⟩
    · rw [hsubs, List.forall_mem_append, List.forall_mem_singleton]
      refine ⟨fun sub hsub => h.pos sub (hold sub hsub), fun hzero => ?_⟩
      rw [hzero] at hnew
      exact absurd hnew (Nat.succ_ne_zero _).symm
    · rw [hsubs, List.forall_mem_append, List.forall_mem_singleton, hcounter]
      exact ⟨fun sub hsub => (h.le sub (hold sub hsub)).trans (Nat.le_succ _), hnew.le⟩
    · rw [hsubs, List.pairwise_append]
      refine ⟨h.sorted.sublist List.filter_sublist, List.pairwise_singleton _ _, ?_⟩
      intro sub hsub sub' hsub'
      rw [List.mem_singleton.mp hsub', hnew]
      exact Nat.lt_succ_of_le (h.le sub (hold sub hsub))

/-- The subscription that holds a token, if it is there. -/
def mine (d : EventDispatcher σ) (t : SubscriptionToken) : List (Subscriber σ) :=
  d.subscribers.filter fun sub => sub.token = t

def Run.deliveredTo (r : Run σ) (t : SubscriptionToken) : List Event :=
  r.delivered.filterMap fun p => if p.1 = t then some p.2 else none

/-- Of a token that has been issued, a call can only take the subscription away. -/
theorem mine_step (h : WellFormed r.dispatcher) {t : SubscriptionToken}
    (ht : t.toNat ≤ r.dispatcher.tokenCounter.toNat)
    (hlt : c.accepted = true → r.dispatcher.tokenCounter.toNat + 1 < 2 ^ 64) :
    (r.step c).dispatcher.mine t = if c.removes t then [] else r.dispatcher.mine t := by
  have hpushed : (c.pushed (r.dispatcher.tokenCounter + 1)).filter
      (fun sub => sub.token = t) = [] := by
    cases ha : c.accepted with
    | false => rw [pushed_of_not_accepted ha, List.filter_nil]
    | true =>
      obtain ⟨new, hnew, htoken, -⟩ := pushed_of_accepted ha (r.dispatcher.tokenCounter + 1)
      have hne : new.token ≠ t := by
        intro heq
        rw [← heq, htoken, toNat_add_one (hlt ha)] at ht
        exact absurd ht (Nat.not_succ_le_self _)
      rw [hnew]
      simp [hne]
  rw [mine, subscribers_step h, List.filter_append, hpushed, List.append_nil, List.filter_filter]
  split_ifs with hr
  · rw [List.filter_eq_nil_iff]
    intro sub _
    by_cases hsub : sub.token = t
    · simp [hsub, hr]
    · simp [hsub]
  · apply List.filter_congr
    intro sub _
    by_cases hsub : sub.token = t
    · simp [hsub, hr]
    · simp [hsub]

theorem called_eq (h : WellFormed r.dispatcher) (e : Event) :
    r.dispatcher.called e = r.dispatcher.subscribers.filter fun sub => sub.filter.matches e := by
  apply List.filter_congr
  intro sub hsub
  rw [h.handler sub hsub, Bool.and_true]

theorem delivered_step (r : Run σ) (c : Call σ) :
    (r.step c).delivered = r.delivered ++ c.event.toList.flatMap fun e =>
      (r.dispatcher.called e).map fun sub => (sub.token, e) := by
  cases c <;> simp [Run.step, Call.event]

/-- A call delivers to a token what it dispatches to the subscription that holds it. -/
theorem deliveredTo_step (h : WellFormed r.dispatcher) (c : Call σ) (t : SubscriptionToken) :
    (r.step c).deliveredTo t = r.deliveredTo t ++ c.event.toList.flatMap fun e =>
      ((r.dispatcher.mine t).filter fun sub => sub.filter.matches e).map fun _ => e := by
  rw [Run.deliveredTo, delivered_step, List.filterMap_append, List.filterMap_flatMap]
  congr 2
  funext e
  rw [called_eq h, mine, List.filter_comm]
  generalize r.dispatcher.subscribers.filter _ = subs
  induction subs with
  | nil => rfl
  | cons sub subs ih => by_cases hsub : sub.token = t <;> simp [hsub, ih]

theorem subscriptions_bound {calls : List (Call σ)} {n : Nat}
    (hlt : n + (c :: calls).countP Call.accepted < 2 ^ 64) (ha : c.accepted = true) :
    n + 1 < 2 ^ 64 := by
  rw [List.countP_cons_of_pos ha] at hlt
  omega

theorem tokenCounter_bound {calls : List (Call σ)}
    (hlt : r.dispatcher.tokenCounter.toNat + (c :: calls).countP Call.accepted < 2 ^ 64) :
    (r.step c).dispatcher.tokenCounter.toNat + calls.countP Call.accepted =
      r.dispatcher.tokenCounter.toNat + (c :: calls).countP Call.accepted := by
  cases ha : c.accepted with
  | false => rw [tokenCounter_step, List.countP_cons_of_neg (by simp [ha]), ha]; rfl
  | true =>
    rw [tokenCounter_step, if_pos ha, toNat_add_one (subscriptions_bound hlt ha),
      List.countP_cons_of_pos ha]
    omega

theorem tokenCounter_mono
    (hlt : c.accepted = true → r.dispatcher.tokenCounter.toNat + 1 < 2 ^ 64) :
    r.dispatcher.tokenCounter.toNat ≤ (r.step c).dispatcher.tokenCounter.toNat := by
  rw [tokenCounter_step]
  split_ifs with ha
  · rw [toNat_add_one (hlt ha)]
    exact Nat.le_succ _
  · exact le_rfl

/-- What is delivered to an issued token from some point on: the events dispatched
before its removal that its subscription matches. -/
theorem deliveredTo_foldl {t : SubscriptionToken} {calls : List (Call σ)}
    (h : WellFormed r.dispatcher) (ht : t.toNat ≤ r.dispatcher.tokenCounter.toNat)
    (hlt : r.dispatcher.tokenCounter.toNat + calls.countP Call.accepted < 2 ^ 64) :
    (calls.foldl Run.step r).deliveredTo t = r.deliveredTo t ++
      ((calls.takeWhile fun c => !c.removes t).filterMap Call.event).flatMap fun e =>
        ((r.dispatcher.mine t).filter fun sub => sub.filter.matches e).map fun _ => e := by
  induction calls generalizing r with
  | nil => simp
  | cons c calls ih =>
    have hacc := subscriptions_bound hlt (c := c)
    rw [List.foldl_cons, ih (h.step hacc) (ht.trans (tokenCounter_mono hacc))
      ((tokenCounter_bound hlt).trans_lt hlt), deliveredTo_step h, mine_step h ht hacc]
    cases hr : c.removes t with
    | true =>
      have hevent : c.event = none := by
        cases c with
        | dispatch e => cases hr
        | _ => rfl
      simp [hr, hevent]
    | false =>
      rw [List.takeWhile_cons_of_pos (by simp [hr]), List.filterMap_cons]
      cases c.event with
      | none => simp
      | some e => simp

end Step

def run (s : σ) (calls : List (Call σ)) : Run σ := calls.foldl Run.step { state := s }

/-- The tokens of the accepted subscriptions, in the order they were made. -/
def issued (r : Run σ) : List (Call σ) → List SubscriptionToken
  | [] => []
  | c :: calls =>
    (if c.accepted then [c.token r.dispatcher] else []) ++ issued (r.step c) calls

/-- A token is subscribed when a subscription returned it and nothing has removed
it since. -/
def Subscribed (s : σ) (calls : List (Call σ)) (t : SubscriptionToken) : Prop :=
  ∃ before c after, calls = before ++ c :: after ∧ c.accepted = true ∧
    c.token (run s before).dispatcher = t ∧ ∀ c' ∈ after, c'.removes t = false

section Runs

variable {s : σ} {calls : List (Call σ)} {c : Call σ} {t : SubscriptionToken}

theorem run_append (s : σ) (before after : List (Call σ)) :
    run s (before ++ after) = after.foldl Run.step (run s before) := List.foldl_append

theorem run_concat (s : σ) (calls : List (Call σ)) (c : Call σ) :
    run s (calls ++ [c]) = (run s calls).step c := run_append s calls [c]

theorem issued_append (r : Run σ) (before after : List (Call σ)) :
    issued r (before ++ after) = issued r before ++ issued (before.foldl Run.step r) after := by
  induction before generalizing r with
  | nil => rfl
  | cons c before ih =>
    rw [List.cons_append, issued, issued, ih, List.foldl_cons, List.append_assoc]

/-- What holds after every run with fewer than `2 ^ 64` subscriptions. -/
structure Reached (s : σ) (calls : List (Call σ)) : Prop where
  wellFormed : WellFormed (run s calls).dispatcher
  counter : (run s calls).dispatcher.tokenCounter.toNat = calls.countP Call.accepted
  issued_toNat : (issued { state := s } calls).map UInt64.toNat =
    List.range' 1 (calls.countP Call.accepted)
  tokens : ((run s calls).dispatcher.subscribers.map Subscriber.token).Sublist
    (issued { state := s } calls)
  delivered : ∀ p ∈ (run s calls).delivered, p.1 ∈ issued { state := s } calls
  pushed : ∀ sub ∈ (run s calls).dispatcher.subscribers, ∃ before c after,
    calls = before ++ c :: after ∧ c.pushed (c.token (run s before).dispatcher) = [sub]

theorem issued_concat (s : σ) (calls : List (Call σ)) (c : Call σ) :
    issued { state := s } (calls ++ [c]) = issued { state := s } calls ++
      if c.accepted then [(run s calls).dispatcher.tokenCounter + 1] else [] := by
  rw [issued_append]
  congr 1
  rw [issued, issued, List.append_nil]
  split_ifs with ha
  · rw [token_of_accepted ha]
    rfl
  · rfl

theorem pushed_map_token (c : Call σ) (t : SubscriptionToken) :
    (c.pushed t).map Subscriber.token = if c.accepted then [t] else [] := by
  cases ha : c.accepted with
  | false => rw [pushed_of_not_accepted ha]; rfl
  | true =>
    obtain ⟨sub, hpushed, htoken, -⟩ := pushed_of_accepted ha t
    rw [hpushed, List.map_singleton, htoken, if_pos rfl]

theorem Reached.snoc (h : Reached s calls)
    (hlt : (calls ++ [c]).countP Call.accepted < 2 ^ 64) : Reached s (calls ++ [c]) := by
  have hcount : (calls ++ [c]).countP Call.accepted =
      calls.countP Call.accepted + if c.accepted then 1 else 0 := by
    rw [List.countP_append, List.countP_singleton]
  have hacc : c.accepted = true →
      (run s calls).dispatcher.tokenCounter.toNat + 1 < 2 ^ 64 := by
    intro ha
    rw [hcount, if_pos ha] at hlt
    rwa [h.counter]
  constructor
  · rw [run_concat]
    exact h.wellFormed.step hacc
  · rw [run_concat, tokenCounter_step, hcount]
    split_ifs with ha
    · rw [toNat_add_one (hacc ha), h.counter]
    · exact h.counter
  · rw [issued_concat, List.map_append, h.issued_toNat, hcount]
    split_ifs with ha
    · rw [List.map_singleton, toNat_add_one (hacc ha), h.counter, List.range'_concat]
      simp [Nat.add_comm]
    · simp
  · rw [run_concat, subscribers_step h.wellFormed, List.map_append, issued_concat,
      pushed_map_token]
    exact ((List.filter_sublist.map _).trans h.tokens).append_right _
  · rw [run_concat, issued_concat, delivered_step]
    intro p hp
    rw [List.mem_append]
    left
    rw [List.mem_append, List.mem_flatMap] at hp
    obtain hp | ⟨e, -, hp⟩ := hp
    · exact h.delivered p hp
    · obtain ⟨sub, hsub, rfl⟩ := List.mem_map.mp hp
      exact h.tokens.subset (List.mem_map_of_mem (List.mem_filter.mp hsub).1)
  · rw [run_concat, subscribers_step h.wellFormed]
    intro sub hsub
    obtain hsub | hsub := List.mem_append.mp hsub
    · obtain ⟨before, c', after, rfl, hpushed⟩ := h.pushed sub (List.mem_filter.mp hsub).1
      exact ⟨before, c', after ++ [c], by simp, hpushed⟩
    · refine ⟨calls, c, [], rfl, ?_⟩
      cases ha : c.accepted with
      | false =>
        rw [pushed_of_not_accepted ha] at hsub
        cases hsub
      | true =>
        obtain ⟨new, hnew, -⟩ := pushed_of_accepted ha ((run s calls).dispatcher.tokenCounter + 1)
        rw [hnew, List.mem_singleton] at hsub
        rw [token_of_accepted ha, hnew, hsub]

theorem reached (s : σ) (hlt : calls.countP Call.accepted < 2 ^ 64) : Reached s calls := by
  induction calls using List.reverseRecOn with
  | nil =>
    exact ⟨wellFormed_empty, rfl, rfl, List.Sublist.slnil, fun p hp => (by cases hp),
      fun sub hsub => (by cases hsub)⟩
  | append_singleton calls c ih =>
    refine (ih ?_).snoc hlt
    rw [List.countP_append] at hlt
    omega

theorem Reached.issued_nodup (h : Reached s calls) : (issued { state := s } calls).Nodup := by
  apply List.Nodup.of_map UInt64.toNat
  rw [h.issued_toNat]
  exact List.nodup_range'

theorem Reached.mem_issued (h : Reached s calls) (ht : t ∈ issued { state := s } calls) :
    0 < t.toNat ∧ t.toNat ≤ (run s calls).dispatcher.tokenCounter.toNat := by
  have hmem := List.mem_map_of_mem (f := UInt64.toNat) ht
  rw [h.issued_toNat, List.mem_range'_1] at hmem
  rw [h.counter]
  omega

theorem Reached.token_fresh (h : Reached s calls)
    (hlt : (calls ++ [c]).countP Call.accepted < 2 ^ 64) (ha : c.accepted = true) :
    c.token (run s calls).dispatcher ∉ issued { state := s } calls := by
  have hnodup := (h.snoc hlt).issued_nodup
  rw [issued_concat, if_pos ha, ← token_of_accepted ha] at hnodup
  intro hmem
  exact (List.nodup_append.mp hnodup).2.2 _ hmem _ (List.mem_singleton_self _) rfl

theorem countP_before {before after : List (Call σ)}
    (hlt : (before ++ c :: after).countP Call.accepted < 2 ^ 64) :
    (before ++ [c]).countP Call.accepted < 2 ^ 64 ∧ before.countP Call.accepted < 2 ^ 64 := by
  rw [List.append_cons, List.countP_append] at hlt
  rw [List.countP_append] at hlt ⊢
  omega

theorem Reached.mine_subscribed (h : Reached s calls)
    (hlt : (calls ++ [c]).countP Call.accepted < 2 ^ 64) (ha : c.accepted = true)
    (ht : c.token (run s calls).dispatcher = t) :
    (run s (calls ++ [c])).dispatcher.mine t = c.pushed t := by
  have hfresh := h.token_fresh hlt ha
  rw [ht] at hfresh
  have hold : ((run s calls).dispatcher.subscribers.filter fun sub => !c.removes sub.token).filter
      (fun sub => sub.token = t) = [] := by
    rw [List.filter_eq_nil_iff]
    intro sub hsub
    have hissued := h.tokens.subset (List.mem_map_of_mem (List.mem_filter.mp hsub).1)
    have hne : sub.token ≠ t := fun heq => hfresh (heq ▸ hissued)
    simp [hne]
  rw [mine, run_concat, subscribers_step h.wellFormed, List.filter_append, hold, List.nil_append,
    ← token_of_accepted ha, ht]
  obtain ⟨new, hnew, htoken, -⟩ := pushed_of_accepted ha t
  rw [hnew]
  simp [htoken]

theorem Reached.deliveredTo_subscribed (h : Reached s calls)
    (hlt : (calls ++ [c]).countP Call.accepted < 2 ^ 64) (ha : c.accepted = true)
    (ht : c.token (run s calls).dispatcher = t) :
    (run s (calls ++ [c])).deliveredTo t = [] := by
  have hevent : c.event = none := by
    cases c with
    | dispatch e => cases ha
    | _ => rfl
  rw [Run.deliveredTo, run_concat, delivered_step, hevent, List.filterMap_eq_nil_iff]
  intro p hp
  rw [if_neg]
  intro heq
  have hmem := h.delivered p (by simpa using hp)
  rw [heq, ← ht] at hmem
  exact h.token_fresh hlt ha hmem

theorem flatMap_matches (sub : Subscriber σ) (events : List Event) :
    (events.flatMap fun e => ([sub].filter fun sub => sub.filter.matches e).map fun _ => e) =
      events.filter sub.filter.matches := by
  induction events with
  | nil => rfl
  | cons e events ih =>
    rw [List.flatMap_cons, ih]
    by_cases hm : sub.filter.matches e = true <;> simp [hm]

theorem subscribed_concat : Subscribed s (calls ++ [c]) t ↔
    Subscribed s calls t ∧ c.removes t = false ∨
      c.accepted = true ∧ c.token (run s calls).dispatcher = t := by
  constructor
  · rintro ⟨before, c', after, heq, ha, ht, hkept⟩
    obtain rfl | ⟨after, last, rfl⟩ := List.eq_nil_or_concat after
    · obtain ⟨rfl, hc⟩ := List.append_inj' heq rfl
      obtain rfl := List.singleton_inj.mp hc
      exact .inr ⟨ha, ht⟩
    · rw [List.concat_eq_append] at heq hkept
      rw [← List.cons_append, ← List.append_assoc] at heq
      obtain ⟨rfl, hc⟩ := List.append_inj' heq rfl
      obtain rfl := List.singleton_inj.mp hc
      refine .inl ⟨⟨before, c', after, rfl, ha, ht, fun x hx => hkept x ?_⟩, hkept c ?_⟩
      · exact List.mem_append_left _ hx
      · exact List.mem_append_right _ (List.mem_singleton_self _)
  · rintro (⟨⟨before, c', after, rfl, ha, ht, hkept⟩, hr⟩ | ⟨ha, ht⟩)
    · refine ⟨before, c', after ++ [c], by simp, ha, ht, ?_⟩
      rw [List.forall_mem_append, List.forall_mem_singleton]
      exact ⟨hkept, hr⟩
    · exact ⟨calls, c, [], rfl, ha, ht, by simp⟩

theorem mem_tokens_iff (hlt : calls.countP Call.accepted < 2 ^ 64) :
    t ∈ (run s calls).dispatcher.subscribers.map Subscriber.token ↔ Subscribed s calls t := by
  induction calls using List.reverseRecOn with
  | nil =>
    refine ⟨fun h => (by cases h), ?_⟩
    rintro ⟨before, c, after, heq, -⟩
    exact absurd heq (by simp)
  | append_singleton calls c ih =>
    have hlt' := (countP_before hlt).2
    rw [run_concat, subscribers_step (reached s hlt').wellFormed, List.map_append,
      pushed_map_token, List.mem_append, subscribed_concat, ← ih hlt']
    apply or_congr
    · constructor
      · intro h
        obtain ⟨sub, hsub, rfl⟩ := List.mem_map.mp h
        obtain ⟨hsub, hr⟩ := List.mem_filter.mp hsub
        exact ⟨List.mem_map_of_mem hsub, by simpa using hr⟩
      · rintro ⟨h, hr⟩
        obtain ⟨sub, hsub, rfl⟩ := List.mem_map.mp h
        exact List.mem_map_of_mem (List.mem_filter.mpr ⟨hsub, by simp [hr]⟩)
    · split_ifs with ha
      · rw [token_of_accepted ha, List.mem_singleton]
        exact ⟨fun h => ⟨ha, h.symm⟩, fun h => h.2.symm⟩
      · exact ⟨fun h => (by cases h), fun h => absurd h.1 ha⟩

theorem unsubscribe_eq_kOk_iff (d : EventDispatcher σ)
    (hpos : ∀ sub ∈ d.subscribers, sub.token ≠ SubscriptionToken.kInvalid)
    (t : SubscriptionToken) :
    (d.unsubscribe t).1 = .kOk ↔ t ∈ d.subscribers.map Subscriber.token := by
  unfold unsubscribe
  split_ifs with hinvalid
  · refine ⟨fun h => (by cases h), fun h => ?_⟩
    obtain ⟨sub, hsub, htoken⟩ := List.mem_map.mp h
    exact absurd (htoken.trans hinvalid) (hpos sub hsub)
  · have hlen : (d.subscribers.filter fun sub => sub.token ≠ t).length = d.subscribers.length ↔
        t ∉ d.subscribers.map Subscriber.token := by
      rw [List.length_filter_eq_length_iff]
      simp only [decide_eq_true_eq, List.mem_map, not_exists, not_and]
    dsimp only
    split_ifs with hsame
    · exact ⟨fun h => (by cases h), fun h => absurd h (hlen.mp hsame)⟩
    · exact ⟨fun _ => not_not.mp (mt hlen.mpr hsame), fun _ => rfl⟩

/-- What the callers of a dispatcher may rely on over a run. -/
structure Delivers (s : σ) (calls : List (Call σ)) : Prop where
  /-- No token is given out twice, and none is the invalid one. -/
  tokens : (issued { state := s } calls).Nodup ∧
    SubscriptionToken.kInvalid ∉ issued { state := s } calls
  /-- A token gets the events dispatched between its subscription and its removal
  that its filter matches. -/
  delivered : ∀ before c after, calls = before ++ c :: after → c.accepted = true →
    (run s calls).deliveredTo (c.token (run s before).dispatcher) =
      ((after.takeWhile fun c' => !c'.removes (c.token (run s before).dispatcher)).filterMap
        Call.event).filter c.filter.matches
  /-- A dispatch runs the handlers it delivers to in the order of their subscriptions,
  each being the one that was subscribed. -/
  ordered : ∀ before e after, calls = before ++ Call.dispatch e :: after →
    ∃ subs : List (Subscriber σ),
      (subs.map Subscriber.token).Sublist (issued { state := s } before) ∧
      (∀ sub ∈ subs, ∃ b c a, before = b ++ c :: a ∧
        c.pushed (c.token (run s b).dispatcher) = [sub]) ∧
      (run s (before ++ [Call.dispatch e])).delivered =
        (run s before).delivered ++ subs.map (fun sub => (sub.token, e)) ∧
      (run s (before ++ [Call.dispatch e])).state = subs.foldl
        (fun s sub => (sub.handler.map fun handler => handler s e).getD s) (run s before).state
  /-- Unsubscribing succeeds for the tokens subscribed and removes nothing else. -/
  unsubscribed : ∀ before t after, calls = before ++ Call.unsubscribe t :: after →
    (((run s before).dispatcher.unsubscribe t).1 = .kOk ↔ Subscribed s before t) ∧
    ((run s before).dispatcher.unsubscribe t).2.subscribers =
      (run s before).dispatcher.subscribers.filter fun sub => sub.token ≠ t

/-- Over every run with fewer than `2 ^ 64` subscriptions, the dispatcher delivers to
each token what it matches while it is subscribed. -/
theorem dispatcher_delivers (s : σ) (calls : List (Call σ))
    (hlt : calls.countP Call.accepted < 2 ^ 64) : Delivers s calls := by
  constructor
  · have h := reached s hlt
    exact ⟨h.issued_nodup, fun hmem => absurd (h.mem_issued hmem).1 (lt_irrefl 0)⟩
  · rintro before c after rfl ha
    obtain ⟨hnext, hbefore⟩ := countP_before hlt
    have h := reached s hbefore
    have h' := reached s hnext
    generalize ht : c.token (run s before).dispatcher = t
    have hissued : t ∈ issued { state := s } (before ++ [c]) := by
      rw [issued_concat, if_pos ha, ← token_of_accepted ha, ht]
      exact List.mem_append_right _ (List.mem_singleton_self _)
    have hcount : (run s (before ++ [c])).dispatcher.tokenCounter.toNat +
        after.countP Call.accepted < 2 ^ 64 := by
      rw [h'.counter, ← List.countP_append, ← List.append_cons]
      exact hlt
    obtain ⟨sub, hpushed, -, hfilter, -⟩ := pushed_of_accepted ha t
    rw [List.append_cons, run_append, deliveredTo_foldl h'.wellFormed (h'.mem_issued hissued).2
      hcount, h.deliveredTo_subscribed hnext ha ht, h.mine_subscribed hnext ha ht, hpushed,
      List.nil_append, ← hfilter]
    exact flatMap_matches sub _
  · rintro before e after rfl
    have h := reached s (countP_before hlt).2
    have hsubs : ((run s before).dispatcher.called e).Sublist
        (run s before).dispatcher.subscribers := List.filter_sublist
    refine ⟨(run s before).dispatcher.called e, (hsubs.map _).trans h.tokens,
      fun sub hsub => h.pushed sub (hsubs.subset hsub), ?_, ?_⟩
    · rw [run_concat]
      rfl
    · rw [run_concat]
      exact dispatch_eq_called _ _ _
  · rintro before t after rfl
    have h := reached s (countP_before hlt).2
    refine ⟨?_, ?_⟩
    · rw [unsubscribe_eq_kOk_iff _ h.wellFormed.pos, mem_tokens_iff (countP_before hlt).2]
    · rw [subscribers_unsubscribe _ h.wellFormed.pos]

/-- A callback that counts, a listener, a removal in between, and a rejected
subscription. -/
theorem dispatcher_delivers_counting :
    Delivers 0 [.subscribeCallback (some fun n _ => n + 1) {}, .dispatch {},
      .subscribeListener none {}, .subscribeListener (some fun n _ => 2 * n) {}, .dispatch {},
      .unsubscribe 1, .dispatch {}, .clear] :=
  dispatcher_delivers _ _ (by decide)

end Runs

end EventDispatcher

end Ume
