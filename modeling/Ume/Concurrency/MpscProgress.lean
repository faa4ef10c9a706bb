import Ume.Concurrency.MpscLinear

/-! How long a call of `enqueue` takes. A pass of its loop fails only if another
producer has taken a position since the call last loaded the cursor, or if the
compare-exchange fails for no reason. -/

namespace Ume

open RingBuffer BoundedFifo

namespace LockFreeMpscQueue

variable {ι T : Type*} {capacity : Size}

/-- The steps that a call of `enqueue` has left while no position is taken by
another producer, and two more for each one that has been. -/
def Producer.remaining (taken : Nat) : Producer T → Nat
  | .idle _ => 0
  | .check _ pos => 4 + 2 * (taken - pos.toNat)
  | .exchange _ pos => 3 + 2 * (taken - pos.toNat)
  | .reload _ => 5
  | .write _ _ => 2
  | .publish _ _ => 1

def System.remaining (p : ι) (s : System ι T capacity) : Nat :=
  (s.producers p).remaining s.taken.length

theorem Producer.remaining_le (pc : Producer T) {taken taken' : Nat} (h : taken ≤ taken') :
    pc.remaining taken' ≤ pc.remaining taken + 2 * (taken' - taken) := by
  cases pc <;> simp only [remaining] <;> omega

namespace Inv

variable {s : System ι T capacity} {q : List T} {r : Nat}

/-- The sequence number of a cell runs ahead of a position only if the position has
been taken. -/
theorem lt_of_diff_pos (h : Inv s q r) (hb : r + capacity.toNat < 2 ^ 63) {n : Nat}
    (hn : n ≤ s.taken.length)
    (hdiff : 0 < diff (s.cell (UInt64.ofNat n)).sequence (UInt64.ofNat n)) :
    n < s.taken.length := by
  by_contra hge
  have hlen := h.length_taken
  have hle := h.length_taken_le
  have hpos := capacity.toNat_pos
  obtain ⟨m, hm, hm', hslot⟩ := capacity.exists_slot_eq n r
  have hcell : (s.cell (UInt64.ofNat n)).sequence = UInt64.ofNat (s.sequenceAt m) := by
    rw [← h.sequence m hm hm']
    unfold System.cell
    rw [hslot]
  have hseq := le_sequenceAt s m
  rw [hcell, diff_ofNat (by omega) (by omega)] at hdiff
  by_cases hlap : n < r + capacity.toNat
  · have hmn : m = n := by
      by_contra hne
      exact capacity.slot_ne_of_ne hm hm' (by omega) hlap hne hslot
    have hfresh : UInt64.ofNat m ∉ s.published := h.not_published (by omega) (by omega)
    simp only [System.sequenceAt, if_neg hfresh] at hdiff
    omega
  · have hmr : m = r := by
      have hnr : n = r + capacity.toNat := by omega
      rw [hnr, capacity.slot_add_toNat] at hslot
      by_contra hne
      exact capacity.slot_ne_of_ne hm hm' (Nat.le_refl r) (by omega) hne hslot
    omega

theorem toNat_ofNat_le (h : Inv s q r) (hb : r + capacity.toNat < 2 ^ 63) {n : Nat}
    (hn : n ≤ s.taken.length) : (UInt64.ofNat n).toNat = n := by
  have hle := h.length_taken_le
  rw [UInt64.toNat_ofNat', Nat.mod_eq_of_lt (by omega)]

theorem remaining_cursor (h : Inv s q r) (hb : r + capacity.toNat < 2 ^ 63) (data : T) :
    (Producer.check data s.enqueueCursor).remaining s.taken.length = 4 := by
  rw [h.enqueueCursor]
  simp only [Producer.remaining]
  rw [h.toNat_ofNat_le hb (Nat.le_refl _)]
  omega

end Inv

variable [DecidableEq ι]

theorem remaining_of_update {s s' : System ι T capacity} {p : ι} {pc : Producer T}
    (h : s'.producers = Function.update s.producers p pc) :
    s'.remaining p = pc.remaining s'.taken.length := by
  rw [System.remaining, h, Function.update_self]

/-- A producer's own step uses up one step of its call; a compare-exchange that fails
for no reason costs one more pass. -/
theorem remaining_produce {s s' : System ι T capacity} {q : List T} {r : Nat} {p : ι}
    {spurious : Bool} (hb : r + capacity.toNat < 2 ^ 63) (h : Inv s q r)
    (hs : produce s p spurious = some s') :
    1 + s'.remaining p ≤ s.remaining p + if spurious then 2 else 0 := by
  have hat := h.producers p
  have hrem : s.remaining p = (s.producers p).remaining s.taken.length := rfl
  have hcheck (data : T) : (s.setProducer p (.check data s.enqueueCursor)).remaining p = 4 :=
    (remaining_of_update (s := s) rfl).trans (h.remaining_cursor hb data)
  cases hp : s.producers p with
  | idle answer => simp [produce, hp] at hs
  | check data pos =>
    rw [hp] at hat hrem
    obtain ⟨n, hn, rfl⟩ := hat
    have hnat := h.toNat_ofNat_le hb hn
    simp only [Producer.remaining, hnat] at hrem
    simp only [produce, hp] at hs
    split at hs
    · obtain rfl := Option.some.inj hs
      rw [remaining_of_update (s := s) rfl]
      simp only [Producer.remaining, hnat, System.setProducer]
      omega
    · next hzero =>
      split at hs
      · obtain rfl := Option.some.inj hs
        rw [remaining_of_update (s := s) rfl]
        simp only [Producer.remaining]
        omega
      · next hneg =>
        obtain rfl := Option.some.inj hs
        have hlt := h.lt_of_diff_pos hb hn (by omega)
        rw [remaining_of_update (s := s) rfl]
        simp only [Producer.remaining]
        omega
  | exchange data pos =>
    rw [hp] at hat hrem
    obtain ⟨n, hn, -, rfl⟩ := hat
    have hnat := h.toNat_ofNat_le hb hn
    simp only [Producer.remaining, hnat] at hrem
    simp only [produce, hp] at hs
    split at hs
    · obtain rfl := Option.some.inj hs
      rw [remaining_of_update (s := s) rfl]
      simp only [Producer.remaining]
      omega
    · next hcursor =>
      obtain rfl := Option.some.inj hs
      rw [hcheck data]
      cases spurious with
      | true =>
        simp only [if_true]
        omega
      | false =>
        have hne : n ≠ s.taken.length := by
          rintro rfl
          exact hcursor ⟨h.enqueueCursor, rfl⟩
        omega
  | reload data =>
    simp only [produce, hp] at hs
    obtain rfl := Option.some.inj hs
    simp only [hp, Producer.remaining] at hrem
    rw [hcheck data]
    omega
  | write data pos =>
    simp only [produce, hp] at hs
    obtain rfl := Option.some.inj hs
    simp only [hp, Producer.remaining] at hrem
    rw [remaining_of_update (s := s) rfl]
    simp only [Producer.remaining]
    omega
  | publish data pos =>
    simp only [produce, hp] at hs
    obtain rfl := Option.some.inj hs
    simp only [hp, Producer.remaining] at hrem
    rw [remaining_of_update (s := s) rfl]
    simp only [Producer.remaining]
    omega

theorem taken_grows {s s' : System ι T capacity} {a : Action ι T} (hs : step s a = some s') :
    s.taken.length ≤ s'.taken.length := by
  cases a with
  | enqueue p data =>
    simp only [step] at hs
    split at hs <;> cases hs
    exact Nat.le_refl _
  | produce p spurious =>
    simp only [step, produce] at hs
    repeat' split at hs
    all_goals cases hs
    all_goals simp [System.setProducer, System.setCell]
  | dequeue =>
    simp only [step] at hs
    split at hs <;> cases hs
    exact Nat.le_refl _
  | consume left =>
    simp only [step, consume] at hs
    repeat' split at hs
    all_goals cases hs
    all_goals exact Nat.le_refl _

/-- The steps of one producer inside its calls. -/
def ownSteps (p : ι) (_ : System ι T capacity) : Action ι T → Nat
  | .produce p' _ => if p' = p then 1 else 0
  | _ => 0

def spuriousFailures (p : ι) (_ : System ι T capacity) : Action ι T → Nat
  | .produce p' spurious => if p' = p ∧ spurious = true then 1 else 0
  | _ => 0

/-- The positions that other producers take. -/
def takenByOthers (p : ι) (s : System ι T capacity) (a : Action ι T) : Nat :=
  if ownSteps p s a = 1 then 0
  else (step s a).elim 0 fun s' => s'.taken.length - s.taken.length

/-- What a step costs a call, and what it adds to it. -/
theorem remaining_step {s s' : System ι T capacity} {q : List T} {r : Nat} {p : ι}
    {a : Action ι T} (hb : r + capacity.toNat < 2 ^ 63) (h : Inv s q r)
    (hcall : ∀ data, a ≠ .enqueue p data) (hs : step s a = some s') :
    ownSteps p s a + s'.remaining p ≤
      s.remaining p + (2 * takenByOthers p s a + 2 * spuriousFailures p s a) := by
  by_cases hown : ∃ spurious, a = .produce p spurious
  · obtain ⟨spurious, rfl⟩ := hown
    have hstep := remaining_produce hb h hs
    cases spurious <;> simpa [ownSteps, takenByOthers, spuriousFailures] using hstep
  · have hnot : ownSteps p s a = 0 := by
      cases a with
      | produce p' spurious =>
        have hne : p' ≠ p := by
          rintro rfl
          exact hown ⟨spurious, rfl⟩
        simp [ownSteps, hne]
      | _ => rfl
    have hsame := producers_eq_of_step hs hcall fun spurious ha => hown ⟨spurious, ha⟩
    have hle := (s.producers p).remaining_le (taken_grows hs)
    have hothers : takenByOthers p s a = s'.taken.length - s.taken.length := by
      simp [takenByOthers, hnot, hs]
    simp only [System.remaining, hsame, hnot, hothers]
    omega

/-- From its load of the cursor on, a call of `enqueue` returns after at most four
steps of its own, two more for each position that another producer takes meanwhile
and two more for each compare-exchange that fails for no reason. -/
theorem enqueue_lock_free (hmin : 2 ≤ capacity.toNat) (hmax : capacity.toNat ≤ 2 ^ 62)
    {data : Fin capacity.toNat → T} {as bs : List (Action ι T)} {s₀ s t : System ι T capacity}
    {p : ι} {x : T} (hrun : Runs.run step (init data) as = some s₀)
    (hcall : step s₀ (.enqueue p x) = some s) (hrest : Runs.run step s bs = some t)
    (hone : ∀ y, Action.enqueue p y ∉ bs) (hcount : t.published.length < 2 ^ 62) :
    let bound := 4 + 2 * Runs.total step (takenByOthers p) s bs +
      2 * Runs.total step (spuriousFailures p) s bs
    Runs.total step (ownSteps p) s bs ≤ bound ∧
      (Runs.total step (ownSteps p) s bs = bound → ∃ answer, t.producers p = .idle answer) := by
  have hgrows (u : System ι T capacity) (a : Action ι T) (u' : System ι T capacity)
      (hu : step u a = some u') : u.published.length ≤ u'.published.length :=
    (published_grows hu).length_le
  have hgood₀ := good_of_run hmin hmax hrun
  have hgood : Good s := good_step hmin hmax s₀ _ s hgood₀ hcall
  have hb {u : System ι T capacity} {q : List T} {r : Nat} (h : Inv u q r)
      (hu : u.published.length ≤ t.published.length) : r + capacity.toNat < 2 ^ 63 := by
    have hr := h.released_le
    omega
  have hle := Runs.le_of_run hgrows hrest
  have hok : Runs.Along step (fun u a => u.published.length ≤ t.published.length ∧
      ∀ y, a ≠ .enqueue p y) s bs := by
    refine Runs.along_and.mpr ⟨Runs.along_le_of_run hgrows hrest, Runs.along_of_forall ?_ s⟩
    rintro a ha y rfl
    exact hone y ha
  have hcost : Runs.total step (ownSteps p) s bs + t.remaining p ≤ s.remaining p +
      Runs.total step (fun u a => 2 * takenByOthers p u a + 2 * spuriousFailures p u a) s bs := by
    refine Runs.total_cost_le (fun u a u' hg _ hu => good_step hmin hmax u a u' hg hu)
      (fun u a u' hg hok hu => ?_) hgood hok hrest
    obtain ⟨q, r, h⟩ := hg (by omega)
    exact remaining_step (hb h hok.1) h hok.2 hu
  rw [Runs.total_add, Runs.total_mul, Runs.total_mul] at hcost
  have hstart : s.remaining p = 4 := by
    obtain ⟨q, r, h⟩ := hgood₀ (by have := hgrows s₀ _ s hcall; omega)
    have hr := hb h (by have := hgrows s₀ _ s hcall; omega)
    simp only [step] at hcall
    split at hcall <;> cases hcall
    exact (remaining_of_update (s := s₀) rfl).trans (h.remaining_cursor hr x)
  intro bound
  refine ⟨by omega, fun heq => ?_⟩
  have hzero : t.remaining p = 0 := by omega
  unfold System.remaining at hzero
  cases hp : t.producers p with
  | idle answer => exact ⟨answer, rfl⟩
  | _ => simp [hp, Producer.remaining] at hzero

/-- The steps after the load of the cursor of producer `false`, while producer `true`
takes the position it has read. -/
def overtaken : List (Action Bool Nat) :=
  [.enqueue true 20, .produce true false, .produce true false, .produce true false,
    .produce true false] ++ List.replicate 6 (.produce false false)

theorem enqueue_lock_free_overtaken :
    ∃ s t : System Bool Nat twoSlots, step (init fun _ => 0) (.enqueue false 10) = some s ∧
      Runs.run step s overtaken = some t ∧ Runs.total step (takenByOthers false) s overtaken = 1 ∧
      Runs.total step (ownSteps false) s overtaken = 6 ∧
      ∃ answer, t.producers false = .idle answer := by
  let s : System Bool Nat twoSlots := (init fun _ => 0).setProducer false (.check 10 0)
  have hlog : (Runs.run step s overtaken).map (·.published) = some [0, 1] := by decide +kernel
  obtain ⟨t, ht, hpublished⟩ := Option.map_eq_some_iff.mp hlog
  have hcount : t.published.length < 2 ^ 62 := by rw [hpublished]; decide
  have hothers : Runs.total step (takenByOthers false) s overtaken = 1 := by decide +kernel
  have hspurious : Runs.total step (spuriousFailures false) s overtaken = 0 := by decide +kernel
  have hown : Runs.total step (ownSteps false) s overtaken = 6 := by decide +kernel
  have hstart : Runs.run step (init fun _ : Fin twoSlots.toNat => 0) ([] : List (Action Bool Nat)) =
      some (init fun _ => 0) := rfl
  have hreturns := (enqueue_lock_free (by decide) (by decide) hstart
    (show step (init fun _ => 0) (.enqueue false 10) = some s from rfl) ht
    (by simp [overtaken]) hcount).2
  rw [hothers, hspurious, hown] at hreturns
  exact ⟨s, t, rfl, ht, hothers, hown, hreturns rfl⟩

end LockFreeMpscQueue

end Ume
