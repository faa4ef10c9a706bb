import Ume.Event.Event

/-! The in-memory dispatcher. Listeners and callbacks act on one state, which
stands for everything they own. -/

namespace Ume

structure EventFilter where
  category : EventCategory := EventCategory.kUnknown
  type : EventType := EventType.kUnknown
  minPriority : EventPriority := EventPriority.kLow
  deriving DecidableEq

def EventFilter.matches (filter : EventFilter) (event : Event) : Bool :=
  if filter.category ≠ EventCategory.kUnknown ∧ event.header.category ≠ filter.category then false
  else if filter.type ≠ EventType.kUnknown ∧ event.header.type ≠ filter.type then false
  else if event.header.priority < filter.minPriority then false
  else true

abbrev SubscriptionToken := UInt64

def SubscriptionToken.kInvalid : SubscriptionToken := 0

structure Subscriber (σ : Type*) where
  token : SubscriptionToken := SubscriptionToken.kInvalid
  listener : Option (σ → Event → σ) := none
  callback : Option (σ → Event → σ) := none
  filter : EventFilter := {}

structure EventDispatcher (σ : Type*) where
  subscribers : List (Subscriber σ) := []
  tokenCounter : UInt64 := 0

namespace EventDispatcher

variable {σ : Type*}

def subscribeListener (d : EventDispatcher σ) (listener : Option (σ → Event → σ))
    (filter : EventFilter) : SubscriptionToken × EventDispatcher σ :=
  if listener.isNone then (SubscriptionToken.kInvalid, d)
  else
    let token := d.tokenCounter + 1
    (token,
      { subscribers := d.subscribers ++ [{ token := token, listener := listener, filter := filter }]
        tokenCounter := token })

def subscribeCallback (d : EventDispatcher σ) (callback : Option (σ → Event → σ))
    (filter : EventFilter) : SubscriptionToken × EventDispatcher σ :=
  if callback.isNone then (SubscriptionToken.kInvalid, d)
  else
    let token := d.tokenCounter + 1
    (token,
      { subscribers := d.subscribers ++ [{ token := token, callback := callback, filter := filter }]
        tokenCounter := token })

def unsubscribe (d : EventDispatcher σ) (token : SubscriptionToken) :
    Status × EventDispatcher σ :=
  if token = SubscriptionToken.kInvalid then (.kInvalidArgument, d)
  else
    let rest := d.subscribers.filter fun sub => sub.token ≠ token
    if rest.length = d.subscribers.length then (.kNotFound, d)
    else (.kOk, { d with subscribers := rest })

def notify (sub : Subscriber σ) (s : σ) (event : Event) : σ :=
  if sub.filter.matches event then
    match sub.listener, sub.callback with
    | some listener, _ => listener s event
    | none, some callback => callback s event
    | none, none => s
  else s

def dispatch (d : EventDispatcher σ) (s : σ) (event : Event) : σ :=
  d.subscribers.foldl (fun s sub => notify sub s event) s

def subscriberCount (d : EventDispatcher σ) : Nat := d.subscribers.length

def clear (d : EventDispatcher σ) : EventDispatcher σ := { d with subscribers := [] }

end EventDispatcher

theorem EventFilter.matches_replayed (filter : EventFilter) (e : Event) :
    filter.matches e.replayed = filter.matches e := rfl

/-- A function of events that does not look at the replay flag. -/
def IgnoresReplay {σ : Type*} (f : σ → Event → σ) : Prop := ∀ s e, f s e.replayed = f s e

theorem IgnoresReplay.foldl {σ : Type*} {f : σ → Event → σ} (h : IgnoresReplay f)
    (events : List Event) (s : σ) :
    (events.map Event.replayed).foldl f s = events.foldl f s := by
  induction events generalizing s with
  | nil => rfl
  | cons e events ih => rw [List.map_cons, List.foldl_cons, List.foldl_cons, h, ih]

namespace EventDispatcher

variable {σ : Type*}

theorem notify_replayed {sub : Subscriber σ} (hl : ∀ f ∈ sub.listener, IgnoresReplay f)
    (hc : ∀ f ∈ sub.callback, IgnoresReplay f) : IgnoresReplay (notify sub) := by
  intro s e
  unfold notify
  rw [EventFilter.matches_replayed]
  by_cases hm : sub.filter.matches e = true
  · rw [if_pos hm, if_pos hm]
    cases hlis : sub.listener with
    | some listener => exact hl listener hlis s e
    | none =>
      cases hcal : sub.callback with
      | some callback => exact hc callback hcal s e
      | none => rfl
  · rw [if_neg hm, if_neg hm]

/-- Whether a replay or the program dispatches an event makes no difference to
subscribers that do not look at the flag: filters do not look at it either. -/
theorem dispatch_replayed {d : EventDispatcher σ}
    (h : ∀ sub ∈ d.subscribers, (∀ f ∈ sub.listener, IgnoresReplay f) ∧
      ∀ f ∈ sub.callback, IgnoresReplay f) : IgnoresReplay d.dispatch := by
  intro s e
  unfold dispatch
  generalize d.subscribers = subs at h
  induction subs generalizing s with
  | nil => rfl
  | cons sub subs ih =>
    have hs := h sub List.mem_cons_self
    rw [List.foldl_cons, List.foldl_cons, notify_replayed hs.1 hs.2]
    exact ih _ (fun x hx => h x (List.mem_cons_of_mem _ hx))

end EventDispatcher

end Ume
