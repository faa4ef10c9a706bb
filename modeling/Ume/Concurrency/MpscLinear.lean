import Mathlib.Data.List.Nodup
import Mathlib.Data.List.Perm.Subperm
import Ume.Concurrency.MpscQueue

/-! The multi-producer queue is a FIFO in the order of the compare-exchanges.
Position `n` uses the cell `n` modulo the capacity from the release of position
`n - capacity` to its own release: the sequence number of the cell is `n` until
the position is published and `n + 1` from then on. -/

namespace Ume

open RingBuffer BoundedFifo

namespace LockFreeMpscQueue

variable {ι T : Type*} {capacity : Size}

theorem diff_ofNat {a b : Nat} (ha : a < 2 ^ 63) (hb : b < 2 ^ 63) :
    diff (UInt64.ofNat a) (UInt64.ofNat b) = (a : Int) - b := by
  unfold diff
  rw [UInt64.toInt64_ofNat', UInt64.toInt64_ofNat', Int64.toInt_ofNat_of_lt ha,
    Int64.toInt_ofNat_of_lt hb]

theorem le_length_of_mem {l : List UInt64} {r : Nat} (hr : r ≤ 2 ^ 64)
    (h : ∀ n < r, UInt64.ofNat n ∈ l) : r ≤ l.length := by
  have hinj : ((List.range r).map UInt64.ofNat).Nodup := by
    refine List.Nodup.map_on (fun a ha b hb hab => ?_) List.nodup_range
    rw [List.mem_range] at ha hb
    exact ofNat_injective (by omega) (by omega) hab
  have hsub : (List.range r).map UInt64.ofNat ⊆ l := by
    intro pos hpos
    obtain ⟨n, hn, rfl⟩ := List.mem_map.mp hpos
    exact h n (List.mem_range.mp hn)
  have hle := (hinj.subperm hsub).length_le
  rwa [List.length_map, List.length_range] at hle

/-- The position whose cell a producer uses. -/
def Producer.position : Producer T → Option UInt64
  | .write _ pos | .publish _ pos => some pos
  | _ => none

def Consumer.position : Consumer T → Option UInt64
  | .take pos | .release _ pos => some pos
  | _ => none

/-- No two producers use one position. -/
def Exclusive (producers : ι → Producer T) : Prop :=
  ∀ p p', p ≠ p' → ∀ pos, (producers p).position = some pos → (producers p').position ≠ some pos

theorem Exclusive.update [DecidableEq ι] {producers : ι → Producer T} (h : Exclusive producers)
    {p : ι} {pc : Producer T}
    (hnew : ∀ p' ≠ p, ∀ pos, pc.position = some pos → (producers p').position ≠ some pos) :
    Exclusive (Function.update producers p pc) := by
  intro p₁ p₂ hne pos h₁ h₂
  by_cases hp₁ : p₁ = p
  · subst hp₁
    rw [Function.update_self] at h₁
    rw [Function.update_of_ne hne.symm] at h₂
    exact hnew p₂ hne.symm pos h₁ h₂
  · rw [Function.update_of_ne hp₁] at h₁
    by_cases hp₂ : p₂ = p
    · subst hp₂
      rw [Function.update_self] at h₂
      exact hnew p₁ hp₁ pos h₂ h₁
    · rw [Function.update_of_ne hp₂] at h₂
      exact h p₁ p₂ hne pos h₁ h₂

namespace System

/-- The value taken out of its cell whose `dequeue` has not returned. -/
def pending (s : System ι T capacity) : List T :=
  match s.consumer with
  | .advance outData _ => [outData]
  | _ => []

def movedOut (s : System ι T capacity) : Nat :=
  match s.consumer with
  | .release _ _ => 1
  | _ => 0

theorem cell_setCell_of_eq {s : System ι T capacity} {pos pos' : UInt64} {cell : Cell T}
    (h : capacity.slot pos' = capacity.slot pos) : (s.setCell pos cell).cell pos' = cell := by
  show Function.update s.buffer (capacity.slot pos) cell (capacity.slot pos') = cell
  rw [h, Function.update_self]

theorem cell_setCell_of_ne {s : System ι T capacity} {pos pos' : UInt64} {cell : Cell T}
    (h : capacity.slot pos' ≠ capacity.slot pos) :
    (s.setCell pos cell).cell pos' = s.cell pos' :=
  Function.update_of_ne h _ _

theorem sequence_setCell_data (s : System ι T capacity) (pos pos' : UInt64) (data : T) :
    ((s.setCell pos { s.cell pos with data := data }).cell pos').sequence =
      (s.cell pos').sequence := by
  by_cases h : capacity.slot pos' = capacity.slot pos
  · rw [cell_setCell_of_eq h]
    unfold System.cell
    rw [h]
  · rw [cell_setCell_of_ne h]

theorem data_setCell_sequence (s : System ι T capacity) (pos pos' sequence : UInt64) :
    ((s.setCell pos { s.cell pos with sequence := sequence }).cell pos').data =
      (s.cell pos').data := by
  by_cases h : capacity.slot pos' = capacity.slot pos
  · rw [cell_setCell_of_eq h]
    unfold System.cell
    rw [h]
  · rw [cell_setCell_of_ne h]

def sequenceAt (s : System ι T capacity) (n : Nat) : Nat :=
  if UInt64.ofNat n ∈ s.published then n + 1 else n

end System

def ProducerAt (s : System ι T capacity) (r : Nat) : Producer T → Prop
  | .idle _ | .reload _ => True
  | .check _ pos => ∃ n ≤ s.taken.length, pos = UInt64.ofNat n
  | .exchange _ pos => ∃ n ≤ s.taken.length, n < r + capacity.toNat ∧ pos = UInt64.ofNat n
  | .write data pos =>
    ∃ n, pos = UInt64.ofNat n ∧ r ≤ n ∧ s.taken[n]? = some (pos, data) ∧ pos ∉ s.published
  | .publish data pos =>
    ∃ n, pos = UInt64.ofNat n ∧ r ≤ n ∧ s.taken[n]? = some (pos, data) ∧ pos ∉ s.published ∧
      (s.cell pos).data = data

def ConsumerAt (s : System ι T capacity) (q : List T) (r : Nat) : Prop :=
  match s.consumer with
  | .idle _ => True
  | .check pos => pos = s.dequeueCursor
  | .take pos => pos = s.dequeueCursor ∧ UInt64.ofNat r ∈ s.published
  | .release outData pos =>
    pos = s.dequeueCursor ∧ UInt64.ofNat r ∈ s.published ∧ q.head? = some outData
  | .advance _ pos => pos = s.dequeueCursor

/-- What holds between any two steps, where `q` is what the positions reserved
and not released hold, and `r` is the number of positions released. -/
structure Inv (s : System ι T capacity) (q : List T) (r : Nat) : Prop where
  fifo : History capacity.toNat s.history q
  pushed_eq : pushed s.history = s.taken.map Prod.snd
  popped_eq : popped s.history = s.returned ++ s.pending
  count : (popped s.history).length = r
  position : ∀ n pos x, s.taken[n]? = some (pos, x) → pos = UInt64.ofNat n
  enqueueCursor : s.enqueueCursor = UInt64.ofNat s.taken.length
  dequeueCursor : s.dequeueCursor = UInt64.ofNat s.returned.length
  published_lt : ∀ pos ∈ s.published, pos.toNat < s.taken.length
  released : ∀ n < r, UInt64.ofNat n ∈ s.published
  released_le : r ≤ s.published.length
  sequence : ∀ n, r ≤ n → n < r + capacity.toNat →
    (s.cell (UInt64.ofNat n)).sequence = UInt64.ofNat (s.sequenceAt n)
  data : ∀ n pos x, r + s.movedOut ≤ n → s.taken[n]? = some (pos, x) →
    UInt64.ofNat n ∈ s.published → (s.cell (UInt64.ofNat n)).data = x
  producers : ∀ p, ProducerAt s r (s.producers p)
  exclusive : Exclusive s.producers
  consumer : ConsumerAt s q r

/-- A producer stays where it is when positions are taken and released and
other cells change. -/
theorem ProducerAt.mono {s s' : System ι T capacity} {r r' : Nat} {pc : Producer T}
    (h : ProducerAt s r pc) (htaken : s.taken <+: s'.taken) (hr : r ≤ r')
    (hkeep : ∀ n, pc.position = some (UInt64.ofNat n) → r ≤ n → n < s.taken.length →
      UInt64.ofNat n ∉ s.published → r' ≤ n ∧ UInt64.ofNat n ∉ s'.published ∧
        (s'.cell (UInt64.ofNat n)).data = (s.cell (UInt64.ofNat n)).data) :
    ProducerAt s' r' pc := by
  have hlen := htaken.length_le
  have hget : ∀ (n : Nat) x, s.taken[n]? = some x → s'.taken[n]? = some x := by
    intro n x hx
    obtain ⟨more, hmore⟩ := htaken
    rw [← hmore, List.getElem?_append_left (List.getElem?_eq_some_iff.mp hx).1]
    exact hx
  cases pc with
  | idle answer => trivial
  | reload data => trivial
  | check data pos =>
    obtain ⟨n, hn, hpos⟩ := h
    exact ⟨n, hn.trans hlen, hpos⟩
  | exchange data pos =>
    obtain ⟨n, hn, hroom, hpos⟩ := h
    exact ⟨n, hn.trans hlen, by omega, hpos⟩
  | write data pos =>
    obtain ⟨n, rfl, hn, hx, hpub⟩ := h
    obtain ⟨hn', hpub', -⟩ := hkeep n rfl hn (List.getElem?_eq_some_iff.mp hx).1 hpub
    exact ⟨n, rfl, hn', hget _ _ hx, hpub'⟩
  | publish data pos =>
    obtain ⟨n, rfl, hn, hx, hpub, hdata⟩ := h
    obtain ⟨hn', hpub', hcell⟩ := hkeep n rfl hn (List.getElem?_eq_some_iff.mp hx).1 hpub
    exact ⟨n, rfl, hn', hget _ _ hx, hpub', hcell.trans hdata⟩

theorem inv_init (data : Fin capacity.toNat → T) :
    Inv (init data : System ι T capacity) [] 0 where
  fifo := .nil
  pushed_eq := rfl
  popped_eq := rfl
  count := rfl
  position _ _ _ h := by cases h
  enqueueCursor := rfl
  dequeueCursor := rfl
  published_lt _ h := by cases h
  released _ h := by cases h
  released_le := Nat.le_refl 0
  sequence n _ hn := by
    show UInt64.ofNat (capacity.slot (UInt64.ofNat n)).val = _
    rw [capacity.val_slot_ofNat, Nat.mod_eq_of_lt (by omega)]
    rfl
  data _ _ _ _ h := by cases h
  producers _ := trivial
  exclusive _ _ _ _ h := by cases h
  consumer := trivial

namespace Inv

variable {s : System ι T capacity} {q : List T} {r : Nat}

theorem length_taken (h : Inv s q r) : s.taken.length = r + q.length := by
  have hlen := congrArg List.length h.fifo.pushed_eq
  rwa [h.pushed_eq, List.length_map, List.length_append, h.count] at hlen

theorem length_taken_le (h : Inv s q r) : s.taken.length ≤ r + capacity.toNat := by
  have hq := h.fifo.length_le
  rw [h.length_taken]
  omega

theorem getElem?_taken {n : Nat} (h : Inv s q r) (hn : r ≤ n) :
    (s.taken[n]?).map Prod.snd = q[n - r]? := by
  rw [← List.getElem?_map, ← h.pushed_eq, h.fifo.pushed_eq,
    List.getElem?_append_right (by rw [h.count]; exact hn), h.count]

theorem position_lt (h : Inv s q r) {p : ι} {pos : UInt64}
    (hp : (s.producers p).position = some pos) :
    ∃ n, pos = UInt64.ofNat n ∧ r ≤ n ∧ n < s.taken.length ∧ pos ∉ s.published := by
  have hat := h.producers p
  cases hpc : s.producers p with
  | write data pos' =>
    rw [hpc] at hp hat
    obtain rfl : pos' = pos := Option.some.inj hp
    obtain ⟨n, hn, hr, hx, hpub⟩ := hat
    exact ⟨n, hn, hr, (List.getElem?_eq_some_iff.mp hx).1, hpub⟩
  | publish data pos' =>
    rw [hpc] at hp hat
    obtain rfl : pos' = pos := Option.some.inj hp
    obtain ⟨n, hn, hr, hx, hpub, -⟩ := hat
    exact ⟨n, hn, hr, (List.getElem?_eq_some_iff.mp hx).1, hpub⟩
  | _ =>
    rw [hpc] at hp
    cases hp

theorem not_published (h : Inv s q r) {n : Nat} (hn : s.taken.length ≤ n) (hlt : n < 2 ^ 64) :
    UInt64.ofNat n ∉ s.published := by
  intro hmem
  have hpos := h.published_lt _ hmem
  rw [UInt64.toNat_ofNat', Nat.mod_eq_of_lt hlt] at hpos
  omega

theorem setProducer [DecidableEq ι] (h : Inv s q r) {p : ι} {pc : Producer T}
    (hpc : ProducerAt s r pc) (hnone : pc.position = none) : Inv (s.setProducer p pc) q r :=
  { h with
    producers := by
      intro p'
      refine ProducerAt.mono (s := s) ?_ (List.prefix_refl _) (Nat.le_refl r)
        (fun n _ hn _ hpub => ⟨hn, hpub, rfl⟩)
      exact (Function.forall_update_iff s.producers fun _ pc => ProducerAt s r pc).mpr
        ⟨hpc, fun p' _ => h.producers p'⟩ p'
    exclusive := h.exclusive.update fun _ _ _ hpos => by
      rw [hnone] at hpos
      cases hpos }

theorem le_sequenceAt (s : System ι T capacity) (n : Nat) :
    n ≤ s.sequenceAt n ∧ s.sequenceAt n ≤ n + 1 := by
  unfold System.sequenceAt
  split <;> omega

/-- What a producer learns from the sequence number of its cell: the position is
ahead of the released ones and less than a lap, or a lap ahead of them, or it
has been released. -/
theorem diff_sequence (h : Inv s q r) (hmin : 2 ≤ capacity.toNat)
    (hb : r + capacity.toNat < 2 ^ 63) {n : Nat} (hn : n ≤ s.taken.length) :
    (diff (s.cell (UInt64.ofNat n)).sequence (UInt64.ofNat n) = 0 → n < r + capacity.toNat) ∧
      (diff (s.cell (UInt64.ofNat n)).sequence (UInt64.ofNat n) < 0 →
        q.length = capacity.toNat) := by
  have hle := h.length_taken_le
  obtain ⟨m, hm, hm', hslot⟩ := capacity.exists_slot_eq n r
  have hcell : (s.cell (UInt64.ofNat n)).sequence = UInt64.ofNat (s.sequenceAt m) := by
    rw [← h.sequence m hm hm']
    unfold System.cell
    rw [hslot]
  obtain ⟨hlow, hhigh⟩ := le_sequenceAt s m
  rw [hcell, diff_ofNat (by omega) (by omega)]
  rcases Nat.lt_or_ge n (r + capacity.toNat) with hlt | hge
  · refine ⟨fun _ => hlt, fun hneg => ?_⟩
    by_cases hr : n < r
    · omega
    · by_cases hnm : n = m
      · omega
      · exact absurd hslot
          (capacity.slot_ne_of_ne hm hm' (by omega) hlt (fun hmn => hnm hmn.symm))
  · obtain rfl : n = r + capacity.toNat := by omega
    have hfull := h.length_taken
    have hmr : m = r := by
      by_contra hne
      rw [capacity.slot_add_toNat] at hslot
      exact capacity.slot_ne_of_ne hm hm' (Nat.le_refl r) (by omega) hne hslot
    refine ⟨fun hzero => ?_, fun _ => by omega⟩
    omega

theorem refuse [DecidableEq ι] (h : Inv s q r) (hfull : q.length = capacity.toNat) (p : ι) :
    Inv { s.setProducer p (.idle (some false)) with history := s.history ++ [.full] } q r := by
  have hs : Inv (s.setProducer p (.idle (some false))) q r := h.setProducer trivial rfl
  exact
    { hs with
      fifo := h.fifo.snoc (.full hfull)
      pushed_eq := by simp [Op.pushed?, h.pushed_eq, System.setProducer]
      popped_eq := by
        rw [popped_snoc]
        simp [Op.popped?, h.popped_eq, System.pending, System.setProducer]
      count := by simp [Op.popped?, h.count] }

theorem take [DecidableEq ι] (h : Inv s q r) (hb : r + capacity.toNat < 2 ^ 63) {p : ι} {data : T}
    {n : Nat} (hn : n ≤ s.taken.length) (hroom : n < r + capacity.toNat)
    (hcursor : s.enqueueCursor = UInt64.ofNat n) :
    Inv { s.setProducer p (.write data (UInt64.ofNat n)) with
      enqueueCursor := UInt64.ofNat n + 1
      taken := s.taken ++ [(UInt64.ofNat n, data)]
      history := s.history ++ [.push data] } (q ++ [data]) r := by
  have hle := h.length_taken_le
  obtain rfl : s.taken.length = n :=
    ofNat_injective (by omega) (by omega) (h.enqueueCursor.symm.trans hcursor)
  have hlen := h.length_taken
  have hfresh := h.not_published (Nat.le_refl _) (by omega)
  have hget : ∀ (k : Nat) x, (s.taken ++ [(UInt64.ofNat s.taken.length, data)])[k]? = some x →
      s.taken[k]? = some x ∨ k = s.taken.length ∧ x = (UInt64.ofNat s.taken.length, data) := by
    intro k x hx
    rcases Nat.lt_or_ge k s.taken.length with hlt | hge
    · rw [List.getElem?_append_left hlt] at hx
      exact .inl hx
    · have hlt := (List.getElem?_eq_some_iff.mp hx).1
      rw [List.length_append, List.length_singleton] at hlt
      obtain rfl : k = s.taken.length := by omega
      rw [List.getElem?_concat_length] at hx
      exact .inr ⟨rfl, (Option.some.inj hx).symm⟩
  exact
    { h with
      fifo := h.fifo.snoc (.push data (by omega))
      pushed_eq := by simp [Op.pushed?, h.pushed_eq]
      popped_eq := by
        rw [popped_snoc]
        simp [Op.popped?, h.popped_eq, System.pending, System.setProducer]
      count := by simp [Op.popped?, h.count]
      position := by
        intro k pos x hx
        rcases hget k _ hx with hold | ⟨rfl, hnew⟩
        · exact h.position k pos x hold
        · exact congrArg Prod.fst hnew
      enqueueCursor := by
        rw [List.length_append, List.length_singleton, ofNat_succ]
      published_lt := by
        intro pos hpos
        have hlt := h.published_lt pos hpos
        rw [List.length_append]
        omega
      data := by
        intro k pos x hk hx hpub
        rcases hget k _ hx with hold | ⟨rfl, -⟩
        · exact h.data k pos x hk hold hpub
        · exact absurd hpub hfresh
      producers := by
        refine (Function.forall_update_iff s.producers fun _ pc => ProducerAt _ r pc).mpr
          ⟨?_, fun p' _ => ?_⟩
        · exact ⟨s.taken.length, rfl, by omega, List.getElem?_concat_length, hfresh⟩
        · exact (h.producers p').mono (List.prefix_append _ _) (Nat.le_refl r)
            (fun k _ hk _ hpub => ⟨hk, hpub, rfl⟩)
      exclusive := h.exclusive.update fun p' _ pos hpos hpos' => by
        obtain ⟨k, rfl, -, hk, -⟩ := h.position_lt hpos'
        have heq := ofNat_injective (by omega) (by omega) (Option.some.inj hpos)
        omega
      consumer := by
        have hc := h.consumer
        unfold ConsumerAt at hc ⊢
        simp only [System.setProducer]
        split <;> simp_all }

theorem slot_ne_of_position (h : Inv s q r) {m n : Nat} (hm : r ≤ m) (hm' : m < s.taken.length)
    (hn : r ≤ n) (hn' : n < s.taken.length) (hne : UInt64.ofNat m ≠ UInt64.ofNat n) :
    capacity.slot (UInt64.ofNat m) ≠ capacity.slot (UInt64.ofNat n) := by
  have hle := h.length_taken_le
  refine capacity.slot_ne_of_ne hm (by omega) hn (by omega) ?_
  rintro rfl
  exact hne rfl

theorem write [DecidableEq ι] (h : Inv s q r) {p : ι} {data : T} {pos : UInt64}
    (hp : s.producers p = .write data pos) :
    Inv ((s.setCell pos { s.cell pos with data := data }).setProducer p (.publish data pos))
      q r := by
  have hat := h.producers p
  rw [hp] at hat
  obtain ⟨n, rfl, hn, hx, hpub⟩ := hat
  have hlt := (List.getElem?_eq_some_iff.mp hx).1
  have hpos : (s.producers p).position = some (UInt64.ofNat n) := by rw [hp]; rfl
  have hkeep : ∀ k, r ≤ k → k < s.taken.length → UInt64.ofNat k ≠ UInt64.ofNat n →
      (s.setCell (UInt64.ofNat n) { s.cell (UInt64.ofNat n) with data := data }).cell
        (UInt64.ofNat k) = s.cell (UInt64.ofNat k) := fun k hk hk' hne =>
    System.cell_setCell_of_ne (h.slot_ne_of_position hk hk' hn hlt hne)
  exact
    { h with
      sequence := by
        intro k hk hk'
        exact (System.sequence_setCell_data s _ _ data).trans (h.sequence k hk hk')
      data := by
        intro k pos' x hk hx' hpub'
        have hne : UInt64.ofNat k ≠ UInt64.ofNat n := fun heq => hpub (heq ▸ hpub')
        have hcell := hkeep k (by omega) (List.getElem?_eq_some_iff.mp hx').1 hne
        exact (congrArg Cell.data hcell).trans (h.data k pos' x hk hx' hpub')
      producers := by
        refine (Function.forall_update_iff s.producers fun _ pc => ProducerAt _ r pc).mpr
          ⟨?_, fun p' hpp => ?_⟩
        · exact ⟨n, rfl, hn, hx, hpub, congrArg Cell.data (System.cell_setCell_of_eq rfl)⟩
        · refine (h.producers p').mono (List.prefix_refl _) (Nat.le_refl r)
            (fun k hk hr hk' hpub' => ⟨hr, hpub', ?_⟩)
          have hne : UInt64.ofNat k ≠ UInt64.ofNat n := fun heq =>
            h.exclusive p' p hpp _ hk (heq ▸ hpos)
          exact congrArg Cell.data (hkeep k hr hk' hne)
      exclusive := h.exclusive.update fun p' hpp pos' hpos' => by
        obtain rfl := Option.some.inj hpos'
        exact h.exclusive p p' hpp.symm _ hpos }

theorem publish [DecidableEq ι] (h : Inv s q r) (hb : r + capacity.toNat < 2 ^ 63) {p : ι}
    {data : T} {pos : UInt64} (hp : s.producers p = .publish data pos) :
    Inv { (s.setCell pos { s.cell pos with sequence := pos + 1 }).setProducer p
      (.idle (some true)) with published := s.published ++ [pos] } q r := by
  have hat := h.producers p
  rw [hp] at hat
  obtain ⟨n, rfl, hn, hx, hpub, hdata⟩ := hat
  have hlt := (List.getElem?_eq_some_iff.mp hx).1
  have hle := h.length_taken_le
  have hpos : (s.producers p).position = some (UInt64.ofNat n) := by rw [hp]; rfl
  have hmem : ∀ {k : Nat}, UInt64.ofNat k ∈ s.published ++ [UInt64.ofNat n] ↔
      UInt64.ofNat k ∈ s.published ∨ UInt64.ofNat k = UInt64.ofNat n := by
    simp
  exact
    { h with
      published_lt := by
        intro pos' hpos'
        rcases List.mem_append.mp hpos' with hold | hnew
        · exact h.published_lt pos' hold
        · rw [List.mem_singleton.mp hnew, UInt64.toNat_ofNat', Nat.mod_eq_of_lt (by omega)]
          exact hlt
      released := fun k hk => List.mem_append_left _ (h.released k hk)
      released_le := by
        rw [List.length_append]
        exact Nat.le_add_right_of_le h.released_le
      sequence := by
        intro k hk hk'
        by_cases hkn : k = n
        · subst hkn
          refine (congrArg Cell.sequence (System.cell_setCell_of_eq rfl)).trans ?_
          simp only [System.sequenceAt, if_pos (hmem.mpr (.inr rfl)), ofNat_succ]
        · have hne := capacity.slot_ne_of_ne hk hk' hn (by omega) hkn
          refine (congrArg Cell.sequence (System.cell_setCell_of_ne hne)).trans ?_
          rw [h.sequence k hk hk']
          have hiff : UInt64.ofNat k ∈ s.published ++ [UInt64.ofNat n] ↔
              UInt64.ofNat k ∈ s.published := by
            rw [hmem, or_iff_left]
            exact fun heq => hkn (ofNat_injective (by omega) (by omega) heq)
          simp only [System.sequenceAt, hiff]
      data := by
        intro k pos' x hk hx' hpub'
        refine (System.data_setCell_sequence s _ _ _).trans ?_
        rcases hmem.mp hpub' with hold | hnew
        · exact h.data k pos' x hk hx' hold
        · have hk' : k < s.taken.length := (List.getElem?_eq_some_iff.mp hx').1
          obtain rfl : k = n := ofNat_injective (by omega) (by omega) hnew
          rw [hdata]
          exact congrArg Prod.snd (Option.some.inj (hx.symm.trans hx'))
      producers := by
        refine (Function.forall_update_iff s.producers fun _ pc => ProducerAt _ r pc).mpr
          ⟨trivial, fun p' hpp => ?_⟩
        refine (h.producers p').mono (List.prefix_refl _) (Nat.le_refl r)
          (fun k hk hr hk' hpub' => ⟨hr, fun hnew => ?_, System.data_setCell_sequence s _ _ _⟩)
        rcases hmem.mp hnew with hold | heq
        · exact hpub' hold
        · exact h.exclusive p' p hpp _ hk (heq ▸ hpos)
      exclusive := h.exclusive.update fun _ _ _ hnone => by cases hnone
      consumer := by
        have hc := h.consumer
        unfold ConsumerAt at hc ⊢
        simp only [System.setProducer, System.setCell]
        split <;> simp_all }

theorem setConsumer (h : Inv s q r) {pc : Consumer T}
    (hpending : ({ s with consumer := pc } : System ι T capacity).pending = s.pending)
    (hmoved : ({ s with consumer := pc } : System ι T capacity).movedOut = s.movedOut)
    (hat : ConsumerAt { s with consumer := pc } q r) : Inv { s with consumer := pc } q r :=
  { h with
    popped_eq := by rw [hpending, h.popped_eq]
    data := by rw [hmoved]; exact h.data
    consumer := hat }

theorem popped_eq_returned (h : Inv s q r) (hpending : s.pending = []) :
    popped s.history = s.returned := by
  rw [h.popped_eq, hpending, List.append_nil]

theorem dequeueCursor_eq (h : Inv s q r) (hpending : s.pending = []) :
    s.dequeueCursor = UInt64.ofNat r := by
  rw [h.dequeueCursor, ← h.count, h.popped_eq_returned hpending]

theorem published_of_check (h : Inv s q r) (hb : r + capacity.toNat < 2 ^ 63)
    (hzero : diff (s.cell (UInt64.ofNat r)).sequence (UInt64.ofNat r + 1) = 0) :
    UInt64.ofNat r ∈ s.published := by
  have hpos := capacity.toNat_pos
  rw [h.sequence r (Nat.le_refl r) (by omega), ← ofNat_succ] at hzero
  obtain ⟨hlow, hhigh⟩ := le_sequenceAt s r
  rw [diff_ofNat (by omega) (by omega)] at hzero
  by_contra hpub
  rw [System.sequenceAt, if_neg hpub] at hzero
  omega

theorem moveOut (h : Inv s q r) (hb : r + capacity.toNat < 2 ^ 63) {pos : UInt64} (left : T)
    (hc : s.consumer = .take pos) :
    Inv { s.setCell pos { s.cell pos with data := left } with
      consumer := .release (s.cell pos).data pos } q r := by
  have hpending : s.pending = [] := by rw [System.pending, hc]
  have hmoved : s.movedOut = 0 := by rw [System.movedOut, hc]
  have hle := h.length_taken_le
  obtain ⟨rfl, hpub⟩ : pos = s.dequeueCursor ∧ UInt64.ofNat r ∈ s.published := by
    simpa only [ConsumerAt, hc] using h.consumer
  have hcur := h.dequeueCursor_eq hpending
  have hlt : r < s.taken.length := by
    have hpos := h.published_lt _ hpub
    rwa [UInt64.toNat_ofNat', Nat.mod_eq_of_lt (by omega)] at hpos
  have hkeep : ∀ k, r ≤ k → k < s.taken.length → UInt64.ofNat k ≠ UInt64.ofNat r →
      (s.setCell s.dequeueCursor { s.cell s.dequeueCursor with data := left }).cell
        (UInt64.ofNat k) = s.cell (UInt64.ofNat k) := by
    intro k hk hk' hne
    refine System.cell_setCell_of_ne ?_
    rw [hcur]
    exact h.slot_ne_of_position hk hk' (Nat.le_refl r) hlt hne
  have hhead : q.head? = some (s.cell s.dequeueCursor).data := by
    obtain ⟨⟨pos, x⟩, hx⟩ : ∃ x, s.taken[r]? = some x :=
      ⟨_, List.getElem?_eq_getElem hlt⟩
    have hq := h.getElem?_taken (Nat.le_refl r)
    rw [hx, Nat.sub_self] at hq
    rw [List.head?_eq_getElem?, ← hq, hcur, h.data r pos x (by omega) hx hpub]
    rfl
  exact
    { h with
      popped_eq := (h.popped_eq_returned hpending).trans (List.append_nil _).symm
      sequence := by
        intro k hk hk'
        exact (System.sequence_setCell_data s _ _ left).trans (h.sequence k hk hk')
      data := by
        intro k pos x hk hx hpub'
        have hk : r + 1 ≤ k := hk
        have hk' : k < s.taken.length := (List.getElem?_eq_some_iff.mp hx).1
        have hne : UInt64.ofNat k ≠ UInt64.ofNat r := by
          intro heq
          have := ofNat_injective (by omega) (by omega) heq
          omega
        exact (congrArg Cell.data (hkeep k (by omega) hk' hne)).trans
          (h.data k pos x (by omega) hx hpub')
      producers := by
        intro p
        refine (h.producers p).mono (List.prefix_refl _) (Nat.le_refl r)
          (fun k _ hk hk' hpub' => ⟨hk, hpub', ?_⟩)
        have hne : UInt64.ofNat k ≠ UInt64.ofNat r := fun heq => hpub' (heq ▸ hpub)
        exact congrArg Cell.data (hkeep k hk hk' hne)
      consumer := ⟨rfl, hpub, hhead⟩ }

theorem release (h : Inv s q r) (hb : r + capacity.toNat < 2 ^ 63) {outData : T} {pos : UInt64}
    (hc : s.consumer = .release outData pos) :
    ∃ q', Inv { s.setCell pos { s.cell pos with sequence := pos + capacity.mask + 1 } with
      consumer := .advance outData pos
      history := s.history ++ [.pop outData] } q' (r + 1) := by
  have hpending : s.pending = [] := by rw [System.pending, hc]
  have hmoved : s.movedOut = 1 := by rw [System.movedOut, hc]
  have hle := h.length_taken_le
  obtain ⟨rfl, hpub, hhead⟩ : pos = s.dequeueCursor ∧ UInt64.ofNat r ∈ s.published ∧
      q.head? = some outData := by
    simpa only [ConsumerAt, hc] using h.consumer
  have hcur := h.dequeueCursor_eq hpending
  obtain ⟨q', rfl⟩ := List.head?_eq_some_iff.mp hhead
  have hreleased : ∀ n < r + 1, UInt64.ofNat n ∈ s.published := by
    intro n hn
    rcases Nat.lt_succ_iff_lt_or_eq.mp hn with hlt | rfl
    · exact h.released n hlt
    · exact hpub
  refine ⟨q',
    { h with
      fifo := h.fifo.snoc (.pop outData)
      pushed_eq := ?_
      popped_eq := ?_
      count := by simp [Op.popped?, h.count]
      released := hreleased
      released_le := le_length_of_mem (by omega) hreleased
      sequence := ?_
      data := ?_
      producers := ?_
      consumer := rfl }⟩
  · simp [Op.pushed?, h.pushed_eq, System.setCell]
  · exact (popped_snoc _ _).trans (congrArg (· ++ [outData]) (h.popped_eq_returned hpending))
  · intro k hk hk'
    by_cases hlap : k = r + capacity.toNat
    · subst hlap
      have hslot : capacity.slot (UInt64.ofNat (r + capacity.toNat)) =
          capacity.slot s.dequeueCursor := by
        rw [capacity.slot_add_toNat, hcur]
      refine (congrArg Cell.sequence (System.cell_setCell_of_eq hslot)).trans ?_
      have hfresh := h.not_published hle (by omega)
      show s.dequeueCursor + capacity.mask + 1 =
        UInt64.ofNat (s.sequenceAt (r + capacity.toNat))
      rw [System.sequenceAt, if_neg hfresh, hcur, capacity.add_mask_add_one]
    · have hne : capacity.slot (UInt64.ofNat k) ≠ capacity.slot s.dequeueCursor := by
        rw [hcur]
        exact (capacity.slot_ne (by omega) (by omega)).symm
      refine (congrArg Cell.sequence (System.cell_setCell_of_ne hne)).trans ?_
      exact h.sequence k (by omega) (by omega)
  · intro k pos x hk hx hpub'
    refine (System.data_setCell_sequence s _ _ _).trans (h.data k pos x ?_ hx hpub')
    rw [hmoved]
    exact hk
  · intro p
    refine (h.producers p).mono (List.prefix_refl _) (Nat.le_succ r)
      (fun k _ hk hk' hpub' => ⟨?_, hpub', System.data_setCell_sequence s _ _ _⟩)
    have hne : k ≠ r := by
      rintro rfl
      exact hpub' hpub
    omega

theorem advance (h : Inv s q r) {outData : T} {pos : UInt64}
    (hc : s.consumer = .advance outData pos) :
    Inv { s with
      dequeueCursor := pos + 1
      consumer := .idle (some (some outData))
      returned := s.returned ++ [outData] } q r := by
  obtain rfl : pos = s.dequeueCursor := by simpa only [ConsumerAt, hc] using h.consumer
  have hpending : s.pending = [outData] := by rw [System.pending, hc]
  have hmoved : s.movedOut = 0 := by rw [System.movedOut, hc]
  have hdata := h.data
  rw [hmoved] at hdata
  exact
    { h with
      popped_eq := by rw [h.popped_eq, hpending]; exact (List.append_nil _).symm
      dequeueCursor := by
        rw [h.dequeueCursor, List.length_append, List.length_singleton, ofNat_succ]
      data := hdata
      consumer := trivial }

theorem taken_of_returned (h : Inv s q r) {k : Nat} {x : T} (hx : s.returned[k]? = some x) :
    s.taken[k]? = some (UInt64.ofNat k, x) := by
  have hlt := (List.getElem?_eq_some_iff.mp hx).1
  have hpushed : (s.taken.map Prod.snd)[k]? = some x := by
    rw [← h.pushed_eq, h.fifo.pushed_eq, h.popped_eq, List.append_assoc,
      List.getElem?_append_left hlt]
    exact hx
  rw [List.getElem?_map, Option.map_eq_some_iff] at hpushed
  obtain ⟨⟨pos, y⟩, hy, rfl⟩ := hpushed
  rw [hy, h.position k pos y hy]

theorem slot_ne_of_producers (h : Inv s q r) {p p' : ι} {pos pos' : UInt64} (hne : p ≠ p')
    (hp : (s.producers p).position = some pos) (hp' : (s.producers p').position = some pos') :
    capacity.slot pos ≠ capacity.slot pos' := by
  have hpos : pos ≠ pos' := by
    rintro rfl
    exact h.exclusive p p' hne pos hp hp'
  obtain ⟨n, rfl, hn, hlt, -⟩ := h.position_lt hp
  obtain ⟨n', rfl, hn', hlt', -⟩ := h.position_lt hp'
  exact h.slot_ne_of_position hn hlt hn' hlt' hpos

theorem slot_ne_of_consumer (h : Inv s q r) {p : ι} {pos pos' : UInt64}
    (hp : (s.producers p).position = some pos)
    (hc : s.consumer.position = some pos') : capacity.slot pos ≠ capacity.slot pos' := by
  obtain ⟨rfl, hpub⟩ : pos' = UInt64.ofNat r ∧ UInt64.ofNat r ∈ s.published := by
    have hat := h.consumer
    cases hcon : s.consumer with
    | take pos =>
      rw [hcon] at hc
      simp only [ConsumerAt, hcon] at hat
      obtain rfl := Option.some.inj hc
      exact ⟨hat.1.trans (h.dequeueCursor_eq (by rw [System.pending, hcon])), hat.2⟩
    | release outData pos =>
      rw [hcon] at hc
      simp only [ConsumerAt, hcon] at hat
      obtain rfl := Option.some.inj hc
      exact ⟨hat.1.trans (h.dequeueCursor_eq (by rw [System.pending, hcon])), hat.2.1⟩
    | _ =>
      rw [hcon] at hc
      cases hc
  obtain ⟨n, rfl, hn, hlt, hpub'⟩ := h.position_lt hp
  have hle := h.length_taken_le
  have hne : UInt64.ofNat n ≠ UInt64.ofNat r := fun heq => hpub' (heq ▸ hpub)
  exact h.slot_ne_of_position hn hlt (Nat.le_refl r) (by omega) hne

end Inv

theorem inv_consume {s s' : System ι T capacity} {q : List T} {r : Nat} {left : T}
    (hb : r + capacity.toNat < 2 ^ 63) (h : Inv s q r) (hs : consume s left = some s') :
    ∃ q' r', Inv s' q' r' := by
  cases hc : s.consumer with
  | idle answer => simp [consume, hc] at hs
  | check pos =>
    have hpending : s.pending = [] := by rw [System.pending, hc]
    have hmoved : s.movedOut = 0 := by rw [System.movedOut, hc]
    obtain rfl : pos = s.dequeueCursor := by simpa only [ConsumerAt, hc] using h.consumer
    simp only [consume, hc] at hs
    split at hs
    · next hzero =>
      obtain rfl := Option.some.inj hs
      rw [h.dequeueCursor_eq hpending] at hzero
      exact ⟨q, r, h.setConsumer hpending.symm hmoved.symm ⟨rfl, h.published_of_check hb hzero⟩⟩
    · obtain rfl := Option.some.inj hs
      exact ⟨q, r, h.setConsumer hpending.symm hmoved.symm trivial⟩
  | take pos =>
    simp only [consume, hc] at hs
    obtain rfl := Option.some.inj hs
    exact ⟨q, r, h.moveOut hb left hc⟩
  | release outData pos =>
    simp only [consume, hc] at hs
    obtain rfl := Option.some.inj hs
    obtain ⟨q', h'⟩ := h.release hb hc
    exact ⟨q', r + 1, h'⟩
  | advance outData pos =>
    simp only [consume, hc] at hs
    obtain rfl := Option.some.inj hs
    exact ⟨q, r, h.advance hc⟩

variable [DecidableEq ι]

theorem inv_produce {s s' : System ι T capacity} {q : List T} {r : Nat} {p : ι} {spurious : Bool}
    (hmin : 2 ≤ capacity.toNat) (hb : r + capacity.toNat < 2 ^ 63) (h : Inv s q r)
    (hs : produce s p spurious = some s') : ∃ q', Inv s' q' r := by
  have hat := h.producers p
  cases hp : s.producers p with
  | idle answer => simp [produce, hp] at hs
  | check data pos =>
    rw [hp] at hat
    obtain ⟨n, hn, rfl⟩ := hat
    obtain ⟨hroom, hfull⟩ := h.diff_sequence hmin hb hn
    simp only [produce, hp] at hs
    split at hs
    · next hzero =>
      obtain rfl := Option.some.inj hs
      exact ⟨q, h.setProducer ⟨n, hn, hroom hzero, rfl⟩ rfl⟩
    · split at hs
      · next hneg =>
        obtain rfl := Option.some.inj hs
        exact ⟨q, h.refuse (hfull hneg) p⟩
      · obtain rfl := Option.some.inj hs
        exact ⟨q, h.setProducer trivial rfl⟩
  | exchange data pos =>
    rw [hp] at hat
    obtain ⟨n, hn, hroom, rfl⟩ := hat
    simp only [produce, hp] at hs
    split at hs
    · next hcursor =>
      obtain rfl := Option.some.inj hs
      exact ⟨q ++ [data], h.take hb hn hroom hcursor.1⟩
    · obtain rfl := Option.some.inj hs
      exact ⟨q, h.setProducer ⟨_, Nat.le_refl _, h.enqueueCursor⟩ rfl⟩
  | reload data =>
    simp only [produce, hp] at hs
    obtain rfl := Option.some.inj hs
    exact ⟨q, h.setProducer ⟨_, Nat.le_refl _, h.enqueueCursor⟩ rfl⟩
  | write data pos =>
    simp only [produce, hp] at hs
    obtain rfl := Option.some.inj hs
    exact ⟨q, h.write hp⟩
  | publish data pos =>
    simp only [produce, hp] at hs
    obtain rfl := Option.some.inj hs
    exact ⟨q, h.publish hb hp⟩

theorem inv_step {s s' : System ι T capacity} {q : List T} {r : Nat} {a : Action ι T}
    (hmin : 2 ≤ capacity.toNat) (hb : r + capacity.toNat < 2 ^ 63) (h : Inv s q r)
    (hs : step s a = some s') : ∃ q' r', Inv s' q' r' := by
  cases a with
  | enqueue p data =>
    cases hp : s.producers p with
    | idle answer =>
      simp only [step, hp] at hs
      obtain rfl := Option.some.inj hs
      exact ⟨q, r, h.setProducer ⟨_, Nat.le_refl _, h.enqueueCursor⟩ rfl⟩
    | _ => simp [step, hp] at hs
  | produce p spurious =>
    obtain ⟨q', h'⟩ := inv_produce hmin hb h hs
    exact ⟨q', r, h'⟩
  | dequeue =>
    cases hc : s.consumer with
    | idle answer =>
      have hpending : s.pending = [] := by rw [System.pending, hc]
      have hmoved : s.movedOut = 0 := by rw [System.movedOut, hc]
      simp only [step, hc] at hs
      obtain rfl := Option.some.inj hs
      exact ⟨q, r, h.setConsumer hpending.symm hmoved.symm rfl⟩
    | _ => simp [step, hc] at hs
  | consume left => exact inv_consume hb h hs

theorem published_grows {s s' : System ι T capacity} {a : Action ι T}
    (hs : step s a = some s') : s.published <+: s'.published := by
  cases a with
  | enqueue p data =>
    simp only [step] at hs
    split at hs <;> cases hs
    exact List.prefix_refl _
  | produce p spurious =>
    simp only [step, produce] at hs
    repeat' split at hs
    all_goals cases hs
    all_goals first | exact List.prefix_refl _ | exact List.prefix_append _ _
  | dequeue =>
    simp only [step] at hs
    split at hs <;> cases hs
    exact List.prefix_refl _
  | consume left =>
    simp only [step, consume] at hs
    repeat' split at hs
    all_goals cases hs
    all_goals exact List.prefix_refl _

/-- The invariant holds as long as the counters do not get near the sign bit. -/
def Good (s : System ι T capacity) : Prop := s.published.length < 2 ^ 62 → ∃ q r, Inv s q r

theorem good_step (hmin : 2 ≤ capacity.toNat) (hmax : capacity.toNat ≤ 2 ^ 62)
    (s : System ι T capacity) (a : Action ι T) (s' : System ι T capacity) (hg : Good s)
    (hs : step s a = some s') : Good s' := by
  intro hlt
  have hle := (published_grows hs).length_le
  obtain ⟨q, r, h⟩ := hg (by omega)
  have hr := h.released_le
  exact inv_step hmin (by omega) h hs

theorem good_of_run (hmin : 2 ≤ capacity.toNat) (hmax : capacity.toNat ≤ 2 ^ 62)
    {data : Fin capacity.toNat → T} {as : List (Action ι T)} {s : System ι T capacity}
    (hrun : Runs.run step (init data) as = some s) : Good s :=
  Runs.invariant (good_step hmin hmax) (fun _ => ⟨[], 0, inv_init data⟩) hrun

/-- The step from `s` to `s'` is the one at which a call of `enqueue` by `p`
returns. -/
def EnqueueReturns (p : ι) (s s' : System ι T capacity) (ok : Bool) : Prop :=
  (∀ answer, s.producers p ≠ .idle answer) ∧ s'.producers p = .idle (some ok)

theorem producers_eq_of_step {s s' : System ι T capacity} {a : Action ι T} {p : ι}
    (hs : step s a = some s') (henq : ∀ data, a ≠ .enqueue p data)
    (hprod : ∀ spurious, a ≠ .produce p spurious) : s'.producers p = s.producers p := by
  cases a with
  | enqueue p' data =>
    have hne : p ≠ p' := by
      rintro rfl
      exact henq data rfl
    simp only [step] at hs
    split at hs <;> cases hs
    exact Function.update_of_ne hne _ _
  | produce p' spurious =>
    have hne : p ≠ p' := by
      rintro rfl
      exact hprod spurious rfl
    simp only [step, produce] at hs
    repeat' split at hs
    all_goals cases hs
    all_goals exact Function.update_of_ne hne _ _
  | dequeue =>
    simp only [step] at hs
    split at hs <;> cases hs
    rfl
  | consume left =>
    simp only [step, consume] at hs
    repeat' split at hs
    all_goals cases hs
    all_goals rfl

theorem EnqueueReturns.check {s s' : System ι T capacity} {a : Action ι T} {p : ι}
    (hr : EnqueueReturns p s s' false) (hs : step s a = some s') :
    ∃ spurious data pos, a = .produce p spurious ∧ s.producers p = .check data pos ∧
      diff (s.cell pos).sequence pos < 0 := by
  obtain ⟨hbusy, hidle⟩ := hr
  by_cases henq : ∃ data, a = .enqueue p data
  · obtain ⟨data, rfl⟩ := henq
    cases hp : s.producers p with
    | idle answer => exact absurd hp (hbusy answer)
    | _ => simp [step, hp] at hs
  · by_cases hprod : ∃ spurious, a = .produce p spurious
    · obtain ⟨spurious, rfl⟩ := hprod
      simp only [step] at hs
      cases hp : s.producers p with
      | idle answer => exact absurd hp (hbusy answer)
      | check data pos =>
        refine ⟨spurious, data, pos, rfl, rfl, ?_⟩
        by_contra hneg
        simp only [produce, hp, if_neg hneg] at hs
        split at hs <;>
        · obtain rfl := Option.some.inj hs
          simp [System.setProducer] at hidle
      | exchange data pos =>
        simp only [produce, hp] at hs
        split at hs <;>
        · obtain rfl := Option.some.inj hs
          simp [System.setProducer] at hidle
      | _ =>
        simp only [produce, hp] at hs
        obtain rfl := Option.some.inj hs
        simp [System.setProducer] at hidle
    · have hsame := producers_eq_of_step hs (fun data h => henq ⟨data, h⟩)
        (fun spurious h => hprod ⟨spurious, h⟩)
      exact absurd (hsame.symm.trans hidle) (hbusy _)

namespace Inv

variable {s : System ι T capacity} {q : List T} {r : Nat}

theorem full_of_refused (h : Inv s q r) (hmin : 2 ≤ capacity.toNat)
    (hb : r + capacity.toNat < 2 ^ 63) {s' : System ι T capacity} {a : Action ι T} {p : ι}
    (hs : step s a = some s') (hr : EnqueueReturns p s s' false) :
    (∃ spurious data pos, a = .produce p spurious ∧ s.producers p = .check data pos) ∧
      q.length = capacity.toNat := by
  obtain ⟨spurious, data, pos, ha, hp, hneg⟩ := hr.check hs
  have hat := h.producers p
  rw [hp] at hat
  obtain ⟨n, hn, rfl⟩ := hat
  exact ⟨⟨spurious, data, _, ha, hp⟩, (h.diff_sequence hmin hb hn).2 hneg⟩

end Inv

/-- In every run with fewer than `2 ^ 62` successful enqueues, the `k`-th value
that `dequeue` returns is the one whose compare-exchange took position `k`, no
two threads use one cell, and `enqueue` is refused only when the positions
reserved and not released fill the queue at its load of the sequence number. -/
theorem mpsc_fifo (hmin : 2 ≤ capacity.toNat) (hmax : capacity.toNat ≤ 2 ^ 62)
    {data : Fin capacity.toNat → T} {as : List (Action ι T)} {s : System ι T capacity}
    (hrun : Runs.run step (init data) as = some s) (hcount : s.published.length < 2 ^ 62) :
    (∀ k x, s.returned[k]? = some x → s.taken[k]? = some (UInt64.ofNat k, x)) ∧
      (∀ k pos x, s.taken[k]? = some (pos, x) → pos = UInt64.ofNat k) ∧
      (∃ q, History capacity.toNat s.history q ∧ pushed s.history = s.taken.map Prod.snd ∧
        popped s.history = s.returned ++ s.pending) ∧
      (∀ p p' pos pos', p ≠ p' → (s.producers p).position = some pos →
        (s.producers p').position = some pos' → capacity.slot pos ≠ capacity.slot pos') ∧
      (∀ p pos pos', (s.producers p).position = some pos → s.consumer.position = some pos' →
        capacity.slot pos ≠ capacity.slot pos') ∧
      ∀ p a s', step s a = some s' → EnqueueReturns p s s' false →
        (∃ spurious data pos, a = .produce p spurious ∧ s.producers p = .check data pos) ∧
          s.taken.length = (popped s.history).length + capacity.toNat := by
  obtain ⟨q, r, h⟩ := good_of_run hmin hmax hrun hcount
  have hr := h.released_le
  have hb : r + capacity.toNat < 2 ^ 63 := by omega
  refine ⟨fun k x hx => h.taken_of_returned hx, h.position, ⟨q, h.fifo, h.pushed_eq, h.popped_eq⟩,
    fun p p' pos pos' => h.slot_ne_of_producers, fun p pos pos' => h.slot_ne_of_consumer, ?_⟩
  intro p a s' hs hret
  obtain ⟨hat, hfull⟩ := h.full_of_refused hmin hb hs hret
  refine ⟨hat, ?_⟩
  rw [h.length_taken, h.count, hfull]

def twoSlots : Size := ⟨2, by decide, by decide⟩

/-- Two producers race for position 0: the loser takes position 1 and publishes
first, a third enqueue is refused, and the winner's value comes out first. -/
theorem mpsc_fifo_race :
    ∃ s : System Bool Nat twoSlots,
      Runs.run step (init fun _ => 0)
        [.enqueue false 10, .enqueue true 20, .produce false false, .produce true false,
          .produce true false, .produce false false, .produce false false, .produce false false,
          .produce false false, .produce false false, .enqueue false 30, .produce false false,
          .produce true false, .produce true false, .dequeue, .consume 0, .consume 0, .consume 0,
          .consume 0] = some s ∧
      s.history = [.push 20, .push 10, .full, .pop 20] ∧ s.returned = [20] ∧
      ∀ k x, s.returned[k]? = some x → s.taken[k]? = some (UInt64.ofNat k, x) := by
  have hrun : (Runs.run step (init (fun _ => 0) : System Bool Nat twoSlots)
      [.enqueue false 10, .enqueue true 20, .produce false false, .produce true false,
        .produce true false, .produce false false, .produce false false, .produce false false,
        .produce false false, .produce false false, .enqueue false 30, .produce false false,
        .produce true false, .produce true false, .dequeue, .consume 0, .consume 0, .consume 0,
        .consume 0]).map (fun s => (s.history, s.returned, s.published)) =
      some ([.push 20, .push 10, .full, .pop 20], [20], [1, 0]) := by decide +kernel
  obtain ⟨s, hs, hlog⟩ := Option.map_eq_some_iff.mp hrun
  simp only [Prod.mk.injEq] at hlog
  obtain ⟨hhistory, hreturned, hpublished⟩ := hlog
  have hcount : s.published.length < 2 ^ 62 := by rw [hpublished]; decide
  exact ⟨s, hs, hhistory, hreturned, (mpsc_fifo (by decide) (by decide) hs hcount).1⟩

end LockFreeMpscQueue

end Ume
