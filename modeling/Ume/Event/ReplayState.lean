import Ume.Event.EventAnalyzer
import Ume.Event.RoundTrip

/-! Replaying a journal against dispatching its events as they happen. -/

namespace Ume

open JournalWriter

/-- Subscribers that do not look at the replay flag end in the same state
whether the events reach them through the journal or directly. -/
theorem replay_eq_foldl_dispatch {σ : Type*} {dispatch : σ → Event → σ}
    (hd : IgnoresReplay dispatch) {env : SessionEnv} {size : Nat} {events : List Event}
    (hopen : OpensAll env size) (hmin : 1024 * 1024 ≤ size)
    (ha : ∀ e ∈ events, EventSerializer.accepts e = true)
    (hlen : events.length ≤ 1000000 * segmentCapacity size) (s : σ) :
    ∃ answers w dir, session env {} ∅ size events = some (.kOk, answers, w, dir) ∧
      ∃ fuel, ∀ more ≥ fuel, ∃ stats, ReplayEngine.replayDirectory dispatch dir more s =
        some (.ok stats, events.foldl dispatch s) := by
  obtain ⟨w, dir, hs, -, hr⟩ := session_laid hopen hmin (w := {}) rfl represents_empty events
  obtain ⟨fuel, hf⟩ := replayDirectory_fresh dispatch hr hmin (accepts_of_mem_numbered ha)
    (by rwa [length_numbered]) s
  refine ⟨_, w, dir, hs, fuel, fun more hm => ?_⟩
  obtain ⟨stats, hreplay, -⟩ := hf more hm
  rw [map_snd_numbered, hd.foldl] at hreplay
  exact ⟨stats, hreplay⟩

/-- A replay into a fresh analyzer and collector gives every figure that the
live run gives, whatever the filter. -/
theorem replay_figures_eq_live (filter : EventFilter) {env : SessionEnv} {size : Nat}
    {events : List Event} (hopen : OpensAll env size) (hmin : 1024 * 1024 ≤ size)
    (ha : ∀ e ∈ events, EventSerializer.validate (some e.toBytes) = .kOk)
    (hlen : events.length ≤ 1000000 * segmentCapacity size) :
    ∃ answers w dir, session env {} ∅ size events = some (.kOk, answers, w, dir) ∧
      ∃ fuel, ∀ more ≥ fuel, ∃ stats replayed,
        ReplayEngine.replayDirectory (EventDispatcher.analyzing filter).dispatch dir more
          EventAnalyzer.fresh = some (.ok stats, replayed) ∧
        replayed.figures =
          (events.foldl (EventDispatcher.analyzing filter).dispatch
            EventAnalyzer.fresh).figures := by
  obtain ⟨answers, w, dir, hs, fuel, hf⟩ := replay_eq_foldl_dispatch
    (EventDispatcher.analyzing_replayed filter) hopen hmin
    (fun e he => decide_eq_true (ha e he)) hlen EventAnalyzer.fresh
  refine ⟨answers, w, dir, hs, fuel, fun more hm => ?_⟩
  obtain ⟨stats, hreplay⟩ := hf more hm
  exact ⟨stats, _, hreplay, rfl⟩

/-- An object that is created and then destroyed, seen only through a filter
for creations, stays open. -/
theorem replay_figures_created_only :
    let created : Event := { header := { type := EventType.kObjectCreated, objectId := 7 } }
    let destroyed : Event := { header := { type := EventType.kObjectDestroyed, objectId := 7 } }
    ∃ answers w dir,
      session ⟨fun _ => 0, fun _ => none⟩ {} ∅ (1024 * 1024) [created, destroyed] =
        some (.kOk, answers, w, dir) ∧
      ∃ fuel, ∀ more ≥ fuel, ∃ stats replayed,
        ReplayEngine.replayDirectory
          (EventDispatcher.analyzing { type := EventType.kObjectCreated }).dispatch dir more
          EventAnalyzer.fresh = some (.ok stats, replayed) ∧
        replayed.context.activeAllocationsCount = 1 := by
  intro created destroyed
  have hopen : OpensAll ⟨fun _ => 0, fun _ => none⟩ (1024 * 1024) :=
    opensAll_mebibyte _
  have ha : ∀ e ∈ [created, destroyed], EventSerializer.validate (some e.toBytes) = .kOk := by
    intro e he
    refine of_decide_eq_true ((EventSerializer.accepts_iff e).mpr ?_)
    rcases List.mem_pair.mp he with rfl | rfl <;> decide
  obtain ⟨answers, w, dir, hs, fuel, hf⟩ := replay_figures_eq_live
    { type := EventType.kObjectCreated } hopen (Nat.le_refl _) ha (by decide)
  refine ⟨answers, w, dir, hs, fuel, fun more hm => ?_⟩
  obtain ⟨stats, replayed, hreplay, hfig⟩ := hf more hm
  refine ⟨stats, replayed, hreplay, ?_⟩
  exact congrArg (fun f => f.context.activeAllocationsCount) hfig

end Ume
