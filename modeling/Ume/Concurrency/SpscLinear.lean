import Ume.Concurrency.SpscQueue

/-! The queue is a bounded FIFO. Each index is the count of the operations that
moved it, each cached index an older such count, and a slot keeps its value from
the store of the head index to the move out of it. -/

namespace Ume

open RingBuffer BoundedFifo

namespace LockFreeSpscQueue

variable {T : Type*} {capacity : Size}

/-- How many of the values held have left their slot already. -/
def System.movedOut (s : System T capacity) : Nat :=
  match s.consumer with
  | .store _ _ => 1
  | _ => 0

def ProducerAt (s : System T capacity) (q : List T) (t ct : Nat) : Prop :=
  match s.producer with
  | .idle _ => True
  | .refresh _ head => head = s.head
  | .write _ head => head = s.head ∧ t + q.length < ct + capacity.toNat
  | .store item head =>
    head = s.head ∧ t + q.length < ct + capacity.toNat ∧ s.buffer (capacity.slot head) = item

def ConsumerAt (s : System T capacity) (q : List T) (t ch : Nat) : Prop :=
  match s.consumer with
  | .idle (some (.front (some pointer))) => pointer = capacity.slot s.tail ∧ q ≠ []
  | .idle _ => True
  | .refresh tail => tail = s.tail
  | .read tail => tail = s.tail ∧ t < ch
  | .store outItem tail => tail = s.tail ∧ t < ch ∧ q.head? = some outItem
  | .peek tail => tail = s.tail

/-- What holds between any two steps, where `q` is what the queue holds, `t` the
number of values popped, and `ct` and `ch` the counts that the cached indices
stand for. -/
structure Inv (s : System T capacity) (q : List T) (t ct ch : Nat) : Prop where
  fifo : History capacity.toNat s.history q
  count : (popped s.history).length = t
  head : s.head = UInt64.ofNat (t + q.length)
  tail : s.tail = UInt64.ofNat t
  cachedTail : s.cachedTail = UInt64.ofNat ct
  cachedHead : s.cachedHead = UInt64.ofNat ch
  ct_le : ct ≤ t
  le_ct : t + q.length ≤ ct + capacity.toNat
  le_ch : t ≤ ch
  ch_le : ch ≤ t + q.length
  held : ∀ i x, s.movedOut ≤ i → q[i]? = some x →
    s.buffer (capacity.slot (UInt64.ofNat (t + i))) = x
  producer : ProducerAt s q t ct
  consumer : ConsumerAt s q t ch

def Good (s : System T capacity) : Prop := ∃ q t ct ch, Inv s q t ct ch

theorem good_init (buffer : Fin capacity.toNat → T) : Good (init buffer) := by
  refine ⟨[], 0, 0, 0, ?_⟩
  constructor
  case fifo => exact .nil
  case held =>
    intro i x _ hx
    cases hx
  all_goals first | rfl | trivial | exact Nat.zero_le _

namespace Inv

variable {s : System T capacity} {q : List T} {t ct ch : Nat}

theorem full_iff (h : Inv s q t ct ch) :
    s.head - s.tail ≥ capacity.val ↔ q.length = capacity.toNat := by
  have hq := h.fifo.length_le
  rw [h.head, h.tail, capacity.sub_ge_iff (by omega) (by omega)]
  omega

theorem cached_full_iff (h : Inv s q t ct ch) :
    s.head - s.cachedTail ≥ capacity.val ↔ t + q.length = ct + capacity.toNat := by
  have hct := h.ct_le
  rw [h.head, h.cachedTail, capacity.sub_ge_iff (by omega) h.le_ct]

theorem empty_iff (h : Inv s q t ct ch) : s.head = s.tail ↔ q = [] := by
  have hq := h.fifo.length_le
  have hlt := capacity.toNat_lt
  rw [h.head, h.tail, ofNat_eq_iff (by omega) (by omega), Nat.add_eq_left,
    List.length_eq_zero_iff]

theorem cached_empty_iff (h : Inv s q t ct ch) : s.cachedHead = s.tail ↔ ch = t := by
  have hq := h.fifo.length_le
  have hlt := capacity.toNat_lt
  have hch := h.ch_le
  rw [h.cachedHead, h.tail, ofNat_eq_iff h.le_ch (by omega)]

theorem slot_head_ne (h : Inv s q t ct ch) (hroom : t + q.length < ct + capacity.toNat) {i : Nat}
    (hi : i < q.length) :
    capacity.slot (UInt64.ofNat (t + i)) ≠ capacity.slot s.head := by
  have hct := h.ct_le
  rw [h.head]
  exact capacity.slot_ne (by omega) (by omega)

end Inv

theorem good_push {s s' : System T capacity} {item : T} (hg : Good s)
    (hs : step s (.push item) = some s') : Good s' := by
  obtain ⟨q, t, ct, ch, h⟩ := hg
  cases hp : s.producer with
  | idle answer =>
    simp only [step, hp] at hs
    split at hs
    · obtain rfl := Option.some.inj hs
      exact ⟨q, t, ct, ch, { h with producer := rfl }⟩
    · next hroom =>
      obtain rfl := Option.some.inj hs
      rw [h.cached_full_iff] at hroom
      have hle := h.le_ct
      exact ⟨q, t, ct, ch, { h with producer := ⟨rfl, by omega⟩ }⟩
  | _ => simp [step, hp] at hs

theorem good_refreshTail {s s' : System T capacity} (hg : Good s)
    (hs : step s .refreshTail = some s') : Good s' := by
  obtain ⟨q, t, ct, ch, h⟩ := hg
  cases hp : s.producer with
  | refresh item head =>
    have hq := h.fifo.length_le
    obtain rfl : head = s.head := by simpa only [ProducerAt, hp] using h.producer
    simp only [step, hp] at hs
    split at hs
    · next hge =>
      obtain rfl := Option.some.inj hs
      rw [h.full_iff] at hge
      exact ⟨q, t, t, ch,
        { h with
          fifo := h.fifo.snoc (.full hge)
          count := by simp [Op.popped?, h.count]
          cachedTail := h.tail
          ct_le := Nat.le_refl t
          le_ct := by omega
          producer := trivial }⟩
    · next hroom =>
      obtain rfl := Option.some.inj hs
      rw [h.full_iff] at hroom
      exact ⟨q, t, t, ch,
        { h with
          cachedTail := h.tail
          ct_le := Nat.le_refl t
          le_ct := by omega
          producer := ⟨rfl, by omega⟩ }⟩
  | _ => simp [step, hp] at hs

theorem good_writeSlot {s s' : System T capacity} (hg : Good s)
    (hs : step s .writeSlot = some s') : Good s' := by
  obtain ⟨q, t, ct, ch, h⟩ := hg
  cases hp : s.producer with
  | write item head =>
    obtain ⟨rfl, hroom⟩ : head = s.head ∧ t + q.length < ct + capacity.toNat := by
      simpa only [ProducerAt, hp] using h.producer
    simp only [step, hp] at hs
    obtain rfl := Option.some.inj hs
    have hkeep : ∀ i x, s.movedOut ≤ i → q[i]? = some x →
        Function.update s.buffer (capacity.slot s.head) item
          (capacity.slot (UInt64.ofNat (t + i))) = x := by
      intro i x hi hx
      have hlt := (List.getElem?_eq_some_iff.mp hx).1
      rw [Function.update_of_ne (h.slot_head_ne hroom hlt)]
      exact h.held i x hi hx
    exact ⟨q, t, ct, ch,
      { h with
        held := hkeep
        producer := ⟨rfl, hroom, Function.update_self ..⟩ }⟩
  | _ => simp [step, hp] at hs

theorem good_storeHead {s s' : System T capacity} (hg : Good s)
    (hs : step s .storeHead = some s') : Good s' := by
  obtain ⟨q, t, ct, ch, h⟩ := hg
  cases hp : s.producer with
  | store item head =>
    obtain ⟨rfl, hroom, hitem⟩ : head = s.head ∧ t + q.length < ct + capacity.toNat ∧
        s.buffer (capacity.slot head) = item := by
      simpa only [ProducerAt, hp] using h.producer
    simp only [step, hp] at hs
    obtain rfl := Option.some.inj hs
    have hct := h.ct_le
    have hch := h.ch_le
    have hlen : (q ++ [item]).length = q.length + 1 := List.length_append
    have hheld : ∀ i x, s.movedOut ≤ i → (q ++ [item])[i]? = some x →
        s.buffer (capacity.slot (UInt64.ofNat (t + i))) = x := by
      intro i x hi hx
      rcases Nat.lt_or_ge i q.length with hlt | hge
      · rw [List.getElem?_append_left hlt] at hx
        exact h.held i x hi hx
      · have hlt := (List.getElem?_eq_some_iff.mp hx).1
        obtain rfl : i = q.length := by omega
        rw [List.getElem?_concat_length] at hx
        rw [← h.head, hitem]
        exact Option.some.inj hx
    have hconsumer : ConsumerAt s (q ++ [item]) t ch := by
      have hc := h.consumer
      unfold ConsumerAt at hc ⊢
      split <;> simp_all
    exact ⟨q ++ [item], t, ct, ch,
      { h with
        fifo := h.fifo.snoc (.push item (by omega))
        count := by simp [Op.popped?, h.count]
        head := by rw [h.head, hlen, ← Nat.add_assoc, ofNat_succ]
        le_ct := by omega
        ch_le := by omega
        held := hheld
        producer := trivial
        consumer := hconsumer }⟩
  | _ => simp [step, hp] at hs

theorem good_pop {s s' : System T capacity} (hg : Good s) (hs : step s .pop = some s') :
    Good s' := by
  obtain ⟨q, t, ct, ch, h⟩ := hg
  cases hp : s.consumer with
  | idle answer =>
    have hheld := h.held
    simp only [System.movedOut, hp] at hheld
    simp only [step, hp] at hs
    split at hs
    · obtain rfl := Option.some.inj hs
      exact ⟨q, t, ct, ch, { h with held := hheld, consumer := rfl }⟩
    · next hne =>
      obtain rfl := Option.some.inj hs
      rw [h.cached_empty_iff] at hne
      have hle := h.le_ch
      exact ⟨q, t, ct, ch, { h with held := hheld, consumer := ⟨rfl, by omega⟩ }⟩
  | _ => simp [step, hp] at hs

theorem good_refreshHead {s s' : System T capacity} (hg : Good s)
    (hs : step s .refreshHead = some s') : Good s' := by
  obtain ⟨q, t, ct, ch, h⟩ := hg
  cases hp : s.consumer with
  | refresh tail =>
    obtain rfl : tail = s.tail := by simpa only [ConsumerAt, hp] using h.consumer
    have hheld := h.held
    simp only [System.movedOut, hp] at hheld
    simp only [step, hp] at hs
    split at hs
    · next hempty =>
      obtain rfl := Option.some.inj hs
      obtain rfl := h.empty_iff.mp hempty
      exact ⟨[], t, ct, t,
        { h with
          fifo := h.fifo.snoc .empty
          count := by simp [Op.popped?, h.count]
          cachedHead := h.head
          le_ch := Nat.le_refl t
          ch_le := Nat.le_refl t
          held := hheld
          consumer := trivial }⟩
    · next hne =>
      obtain rfl := Option.some.inj hs
      have hpos := List.length_pos_iff.mpr (mt h.empty_iff.mpr hne)
      exact ⟨q, t, ct, t + q.length,
        { h with
          cachedHead := h.head
          le_ch := Nat.le_add_right ..
          ch_le := Nat.le_refl _
          held := hheld
          consumer := ⟨rfl, by omega⟩ }⟩
  | _ => simp [step, hp] at hs

theorem good_readSlot {s s' : System T capacity} {left : T} (hg : Good s)
    (hs : step s (.readSlot left) = some s') : Good s' := by
  obtain ⟨q, t, ct, ch, h⟩ := hg
  cases hp : s.consumer with
  | read tail =>
    obtain ⟨rfl, hlt⟩ : tail = s.tail ∧ t < ch := by
      simpa only [ConsumerAt, hp] using h.consumer
    simp only [step, hp] at hs
    obtain rfl := Option.some.inj hs
    have hct := h.ct_le
    have hle := h.le_ct
    have hch := h.ch_le
    have hheld := h.held
    simp only [System.movedOut, hp] at hheld
    cases q with
    | nil => simp only [List.length_nil] at hch; omega
    | cons x q =>
      have hx : s.buffer (capacity.slot s.tail) = x := by
        rw [h.tail]
        exact hheld 0 x (Nat.le_refl 0) rfl
      have hkeep : ∀ i y, 1 ≤ i → (x :: q)[i]? = some y →
          Function.update s.buffer (capacity.slot s.tail) left
            (capacity.slot (UInt64.ofNat (t + i))) = y := by
        intro i y hi hy
        have hlen := (List.getElem?_eq_some_iff.mp hy).1
        have hne := capacity.slot_ne (show t < t + i by omega) (by omega)
        rw [h.tail, Function.update_of_ne hne.symm]
        exact hheld i y (Nat.zero_le i) hy
      have hproducer : ProducerAt { s with
          buffer := Function.update s.buffer (capacity.slot s.tail) left
          consumer := .store (s.buffer (capacity.slot s.tail)) s.tail } (x :: q) t ct := by
        have hpr := h.producer
        unfold ProducerAt at hpr ⊢
        cases hprod : s.producer with
        | store item head =>
          simp only [hprod] at hpr ⊢
          obtain ⟨rfl, hroom, hitem⟩ := hpr
          have hne := h.slot_head_ne hroom (show 0 < (x :: q).length by simp)
          rw [Nat.add_zero, ← h.tail] at hne
          rw [Function.update_of_ne hne.symm]
          exact ⟨rfl, hroom, hitem⟩
        | _ =>
          rw [hprod] at hpr
          exact hpr
      exact ⟨x :: q, t, ct, ch,
        { h with
          held := hkeep
          producer := hproducer
          consumer := ⟨rfl, hlt, by rw [hx]; rfl⟩ }⟩
  | _ => simp [step, hp] at hs

theorem good_storeTail {s s' : System T capacity} (hg : Good s)
    (hs : step s .storeTail = some s') : Good s' := by
  obtain ⟨q, t, ct, ch, h⟩ := hg
  cases hp : s.consumer with
  | store outItem tail =>
    obtain ⟨rfl, hlt, hhead⟩ : tail = s.tail ∧ t < ch ∧ q.head? = some outItem := by
      simpa only [ConsumerAt, hp] using h.consumer
    simp only [step, hp] at hs
    obtain rfl := Option.some.inj hs
    have hct := h.ct_le
    have hle := h.le_ct
    have hch := h.ch_le
    have hheld := h.held
    simp only [System.movedOut, hp] at hheld
    cases q with
    | nil => cases hhead
    | cons x q =>
      obtain rfl : x = outItem := Option.some.inj hhead
      have hsum : t + (x :: q).length = t + 1 + q.length := by
        rw [List.length_cons]
        omega
      have hproducer : ProducerAt s q (t + 1) ct := by
        have hpr := h.producer
        unfold ProducerAt at hpr ⊢
        rwa [hsum] at hpr
      have hkeep : ∀ i y, 0 ≤ i → q[i]? = some y →
          s.buffer (capacity.slot (UInt64.ofNat (t + 1 + i))) = y := by
        intro i y _ hy
        rw [Nat.add_assoc, Nat.add_comm 1 i]
        exact hheld (i + 1) y (Nat.le_add_left 1 i) hy
      exact ⟨q, t + 1, ct, ch,
        { h with
          fifo := h.fifo.snoc (.pop x)
          count := by simp [Op.popped?, h.count]
          head := by rw [h.head, hsum]
          tail := by rw [h.tail, ofNat_succ]
          ct_le := by omega
          le_ct := by omega
          le_ch := hlt
          ch_le := by omega
          held := hkeep
          producer := hproducer
          consumer := trivial }⟩
  | _ => simp [step, hp] at hs

theorem good_front {s s' : System T capacity} (hg : Good s) (hs : step s .front = some s') :
    Good s' := by
  obtain ⟨q, t, ct, ch, h⟩ := hg
  cases hp : s.consumer with
  | idle answer =>
    have hheld := h.held
    simp only [System.movedOut, hp] at hheld
    simp only [step, hp] at hs
    obtain rfl := Option.some.inj hs
    exact ⟨q, t, ct, ch, { h with held := hheld, consumer := rfl }⟩
  | _ => simp [step, hp] at hs

theorem good_peekHead {s s' : System T capacity} (hg : Good s)
    (hs : step s .peekHead = some s') : Good s' := by
  obtain ⟨q, t, ct, ch, h⟩ := hg
  cases hp : s.consumer with
  | peek tail =>
    obtain rfl : tail = s.tail := by simpa only [ConsumerAt, hp] using h.consumer
    have hheld := h.held
    simp only [System.movedOut, hp] at hheld
    simp only [step, hp] at hs
    split at hs
    · obtain rfl := Option.some.inj hs
      exact ⟨q, t, ct, ch, { h with held := hheld, consumer := trivial }⟩
    · next hne =>
      obtain rfl := Option.some.inj hs
      exact ⟨q, t, ct, ch,
        { h with
          held := hheld
          consumer := ⟨rfl, fun hq => hne (h.empty_iff.mpr hq).symm⟩ }⟩
  | _ => simp [step, hp] at hs

theorem good_step (s : System T capacity) (a : Action T) (s' : System T capacity) (hg : Good s)
    (hs : step s a = some s') : Good s' := by
  cases a with
  | push item => exact good_push hg hs
  | refreshTail => exact good_refreshTail hg hs
  | writeSlot => exact good_writeSlot hg hs
  | storeHead => exact good_storeHead hg hs
  | pop => exact good_pop hg hs
  | refreshHead => exact good_refreshHead hg hs
  | readSlot left => exact good_readSlot hg hs
  | storeTail => exact good_storeTail hg hs
  | front => exact good_front hg hs
  | peekHead => exact good_peekHead hg hs

theorem good_of_run {buffer : Fin capacity.toNat → T} {as : List (Action T)}
    {s : System T capacity} (h : Runs.run step (init buffer) as = some s) : Good s :=
  Runs.invariant good_step (good_init buffer) h

/-- The step from `s` to `s'` is the one at which a call of `push` returns. -/
def PushReturns (s s' : System T capacity) (ok : Bool) : Prop :=
  (∀ answer, s.producer ≠ .idle answer) ∧ s'.producer = .idle (some ok)

/-- The step from `s` to `s'` is the one at which a call of `pop` or `front`
returns. -/
def ConsumerReturns (s s' : System T capacity) (answer : Answer T capacity.toNat) : Prop :=
  (∀ answer, s.consumer ≠ .idle answer) ∧ s'.consumer = .idle (some answer)

def Action.ofProducer : Action T → Bool
  | .push _ | .refreshTail | .writeSlot | .storeHead => true
  | _ => false

theorem producer_eq_of_step {s s' : System T capacity} {a : Action T}
    (ha : a.ofProducer = false) (hs : step s a = some s') : s'.producer = s.producer := by
  cases a <;> try cases ha
  all_goals
    cases hp : s.consumer <;> simp only [step, hp, reduceCtorEq] at hs
    first
      | (obtain rfl := Option.some.inj hs; rfl)
      | (split at hs <;> (obtain rfl := Option.some.inj hs; rfl))

theorem consumer_eq_of_step {s s' : System T capacity} {a : Action T}
    (ha : a.ofProducer = true) (hs : step s a = some s') : s'.consumer = s.consumer := by
  cases a <;> try cases ha
  all_goals
    cases hp : s.producer <;> simp only [step, hp, reduceCtorEq] at hs
    first
      | (obtain rfl := Option.some.inj hs; rfl)
      | (split at hs <;> (obtain rfl := Option.some.inj hs; rfl))

theorem PushReturns.refreshTail {s s' : System T capacity} {a : Action T}
    (hr : PushReturns s s' false) (hs : step s a = some s') :
    a = .refreshTail ∧ ∃ item head, s.producer = .refresh item head ∧
      head - s.tail ≥ capacity.val := by
  obtain ⟨hbusy, hidle⟩ := hr
  cases a with
  | refreshTail =>
    cases hp : s.producer with
    | refresh item head =>
      simp only [step, hp] at hs
      split at hs
      · next hge => exact ⟨rfl, item, head, rfl, hge⟩
      · obtain rfl := Option.some.inj hs
        cases hidle
    | _ => simp [step, hp] at hs
  | push item =>
    cases hp : s.producer with
    | idle answer => exact absurd hp (hbusy answer)
    | _ => simp [step, hp] at hs
  | writeSlot =>
    cases hp : s.producer with
    | write item head =>
      simp only [step, hp] at hs
      obtain rfl := Option.some.inj hs
      cases hidle
    | _ => simp [step, hp] at hs
  | storeHead =>
    cases hp : s.producer with
    | store item head =>
      simp only [step, hp] at hs
      obtain rfl := Option.some.inj hs
      cases hidle
    | _ => simp [step, hp] at hs
  | _ => exact absurd ((producer_eq_of_step rfl hs).symm.trans hidle) (hbusy _)

theorem ConsumerReturns.cases {s s' : System T capacity} {a : Action T}
    {answer : Answer T capacity.toNat} (hr : ConsumerReturns s s' answer)
    (hs : step s a = some s') :
    (a = .refreshHead ∧ answer = .pop none ∧ s.consumer = .refresh s.head) ∨
      (a = .storeTail ∧ ∃ outItem, answer = .pop (some outItem)) ∨
      (a = .peekHead ∧ answer = .front none ∧ s.consumer = .peek s.head) ∨
      (a = .peekHead ∧ ∃ pointer, answer = .front (some pointer)) := by
  obtain ⟨hbusy, hidle⟩ := hr
  cases a with
  | refreshHead =>
    cases hp : s.consumer with
    | refresh tail =>
      simp only [step, hp] at hs
      split at hs
      · next heq =>
        obtain rfl := Option.some.inj hs
        cases hidle
        exact .inl ⟨rfl, rfl, by rw [heq]⟩
      · obtain rfl := Option.some.inj hs
        cases hidle
    | _ => simp [step, hp] at hs
  | storeTail =>
    cases hp : s.consumer with
    | store outItem tail =>
      simp only [step, hp] at hs
      obtain rfl := Option.some.inj hs
      cases hidle
      exact .inr (.inl ⟨rfl, outItem, rfl⟩)
    | _ => simp [step, hp] at hs
  | peekHead =>
    cases hp : s.consumer with
    | peek tail =>
      simp only [step, hp] at hs
      split at hs
      · next heq =>
        obtain rfl := Option.some.inj hs
        cases hidle
        exact .inr (.inr (.inl ⟨rfl, rfl, by rw [heq]⟩))
      · obtain rfl := Option.some.inj hs
        cases hidle
        exact .inr (.inr (.inr ⟨rfl, _, rfl⟩))
    | _ => simp [step, hp] at hs
  | pop =>
    cases hp : s.consumer with
    | idle answer => exact absurd hp (hbusy answer)
    | _ => simp [step, hp] at hs
  | front =>
    cases hp : s.consumer with
    | idle answer => exact absurd hp (hbusy answer)
    | _ => simp [step, hp] at hs
  | readSlot left =>
    cases hp : s.consumer with
    | read tail =>
      simp only [step, hp] at hs
      obtain rfl := Option.some.inj hs
      cases hidle
    | _ => simp [step, hp] at hs
  | _ => exact absurd ((consumer_eq_of_step rfl hs).symm.trans hidle) (hbusy _)

namespace Inv

variable {s : System T capacity} {q : List T} {t ct ch : Nat}

theorem toNat_head_sub_tail (h : Inv s q t ct ch) : (s.head - s.tail).toNat = q.length := by
  have hq := h.fifo.length_le
  have hlt := capacity.toNat_lt
  rw [h.head, h.tail, toNat_ofNat_sub (by omega) (by omega)]
  omega

theorem full_of_push_false (h : Inv s q t ct ch) {s' : System T capacity} {a : Action T}
    (hs : step s a = some s') (hr : PushReturns s s' false) :
    a = .refreshTail ∧ q.length = capacity.toNat := by
  obtain ⟨ha, item, head, hp, hge⟩ := hr.refreshTail hs
  obtain rfl : head = s.head := by simpa only [ProducerAt, hp] using h.producer
  exact ⟨ha, h.full_iff.mp hge⟩

theorem empty_of_pop_false (h : Inv s q t ct ch) {s' : System T capacity} {a : Action T}
    (hs : step s a = some s') (hr : ConsumerReturns s s' (.pop none)) :
    a = .refreshHead ∧ q = [] := by
  obtain ⟨ha, -, hc⟩ | ⟨-, _, hne⟩ | ⟨-, hne, -⟩ | ⟨-, _, hne⟩ := hr.cases hs
  · have htail : s.head = s.tail := by simpa only [ConsumerAt, hc] using h.consumer
    exact ⟨ha, h.empty_iff.mp htail⟩
  all_goals cases hne

theorem empty_of_front_null (h : Inv s q t ct ch) {s' : System T capacity} {a : Action T}
    (hs : step s a = some s') (hr : ConsumerReturns s s' (.front none)) :
    a = .peekHead ∧ q = [] := by
  obtain ⟨-, hne, -⟩ | ⟨-, _, hne⟩ | ⟨ha, -, hc⟩ | ⟨-, _, hne⟩ := hr.cases hs
  · cases hne
  · cases hne
  · have htail : s.head = s.tail := by simpa only [ConsumerAt, hc] using h.consumer
    exact ⟨ha, h.empty_iff.mp htail⟩
  · cases hne

theorem front_of_pointer (h : Inv s q t ct ch) {pointer : Fin capacity.toNat}
    (hc : s.consumer = .idle (some (.front (some pointer)))) :
    q.head? = some (s.buffer pointer) := by
  obtain ⟨rfl, hq⟩ : pointer = capacity.slot s.tail ∧ q ≠ [] := by
    simpa only [ConsumerAt, hc] using h.consumer
  have hheld := h.held
  simp only [System.movedOut, hc] at hheld
  obtain ⟨x, q, rfl⟩ := List.exists_cons_of_ne_nil hq
  have hx := hheld 0 x (Nat.le_refl 0) rfl
  rw [Nat.add_zero, ← h.tail] at hx
  rw [hx]
  rfl

end Inv

/-- In every run of one producer and one consumer the queue is a bounded FIFO:
every answer is right at the step that gives it, what is popped is what was
pushed, in order, and a slot is written only when its last value is popped. -/
theorem spsc_bounded_fifo {buffer : Fin capacity.toNat → T} {as : List (Action T)}
    {s : System T capacity} (hrun : Runs.run step (init buffer) as = some s) :
    ∃ q, History capacity.toNat s.history q ∧ pushed s.history = popped s.history ++ q ∧
      (s.head - s.tail).toNat = q.length ∧ s.head - s.tail ≤ capacity.val ∧
      (∀ i x, s.movedOut ≤ i → q[i]? = some x →
        s.buffer (capacity.slot (UInt64.ofNat ((popped s.history).length + i))) = x) ∧
      (∀ item head, s.producer = .write item head → ∀ i < q.length,
        capacity.slot (UInt64.ofNat ((popped s.history).length + i)) ≠ capacity.slot head) ∧
      (∀ pointer, s.consumer = .idle (some (.front (some pointer))) →
        q.head? = some (s.buffer pointer)) ∧
      ∀ a s', step s a = some s' →
        (PushReturns s s' false → a = .refreshTail ∧ q.length = capacity.toNat) ∧
        (ConsumerReturns s s' (.pop none) → a = .refreshHead ∧ q = []) ∧
        (ConsumerReturns s s' (.front none) → a = .peekHead ∧ q = []) := by
  obtain ⟨q, t, ct, ch, h⟩ := good_of_run hrun
  refine ⟨q, h.fifo, h.fifo.pushed_eq, h.toNat_head_sub_tail, ?_, ?_, ?_, ?_, ?_⟩
  · rw [UInt64.le_iff_toNat_le, h.toNat_head_sub_tail]
    exact h.fifo.length_le
  · intro i x hi hx
    rw [h.count]
    exact h.held i x hi hx
  · intro item head hp i hi
    obtain ⟨rfl, hroom⟩ : head = s.head ∧ t + q.length < ct + capacity.toNat := by
      simpa only [ProducerAt, hp] using h.producer
    rw [h.count]
    exact h.slot_head_ne hroom hi
  · exact fun pointer hc => h.front_of_pointer hc
  · intro a s' hs
    exact ⟨h.full_of_push_false hs, h.empty_of_pop_false hs, h.empty_of_front_null hs⟩

def oneSlot : Size := ⟨1, by decide, by decide⟩

/-- One slot: the second push is refused, the pop frees the slot, and the second
pop is refused. -/
theorem spsc_bounded_fifo_one_slot :
    ∃ s : System Nat oneSlot,
      Runs.run step (init fun _ => 0)
        [.push 5, .writeSlot, .storeHead, .push 6, .refreshTail, .pop, .refreshHead,
          .readSlot 0, .storeTail, .pop, .refreshHead] = some s ∧
      s.history = [.push 5, .full, .pop 5, .empty] ∧
      ∃ q, History 1 s.history q ∧ pushed s.history = popped s.history ++ q := by
  have hhistory : (Runs.run step (init fun _ : Fin oneSlot.toNat => 0)
      [.push 5, .writeSlot, .storeHead, .push 6, .refreshTail, .pop, .refreshHead,
        .readSlot 0, .storeTail, .pop, .refreshHead]).map (·.history) =
      some [.push 5, .full, .pop 5, .empty] := rfl
  obtain ⟨s, hs, hops⟩ := Option.map_eq_some_iff.mp hhistory
  obtain ⟨q, hfifo, hpushed, -⟩ := spsc_bounded_fifo hs
  exact ⟨s, hs, hops, q, hfifo, hpushed⟩

end LockFreeSpscQueue

end Ume
