import Mathlib.Data.List.Nodup
import Mathlib.Order.Nat
import Ume.Concurrency.EpochRcu

/-! Safety of the reclamation. A reclaimer's minimum is at most the epoch of every
pending deleter, or a reader that the deleter must wait for is in a slot that the
scan has still to visit. -/

namespace Ume

namespace EpochRcu

variable {ι : Type*}

/-- A deleter that is retired, or being retired, and not yet taken. -/
def Live (s : System ι) (d : Nat) (e : UInt64) : Prop :=
  (∃ p, s.pc p = .retirePush e d) ∨ ⟨e, d⟩ ∈ s.retiredList

/-- The deleter has to wait for the section this thread is in. -/
def Holds (s : System ι) (d : Nat) (r : ι) : Prop :=
  ∃ k, s.guards d r = some k ∧ s.inside r = some k

/-- What a scan that has come to slot `i` with this minimum knows. -/
def Seen (s : System ι) (m : UInt64) (n i : Nat) : Prop :=
  ∀ d e r j, Live s d e → Holds s d r → s.threadSlot r = some j →
    m.toNat ≤ e.toNat ∨ i ≤ j ∧ j < n

def PcAt (s : System ι) (p : ι) : Pc → Prop
  | .enterTime i e | .enterEpoch i e =>
    s.threadSlot p = some i ∧ s.inside p = none ∧ e.toNat ≤ s.globalEpoch.toNat
  | .enterActive i => s.threadSlot p = some i ∧ s.inside p = none
  | .minCount m => m.toNat ≤ s.globalEpoch.toNat
  | .minScan m n i | .minEpoch m n i => m.toNat ≤ s.globalEpoch.toNat ∧ Seen s m n i
  | .delete ds => ∀ d ∈ ds, d < s.retires ∧ ∀ r, ¬ Holds s d r
  | _ => True

structure Inv (s : System ι) : Prop where
  epoch : s.globalEpoch.toNat = s.advances + 1
  slot_lt : ∀ r i, s.threadSlot r = some i → i < s.allocatedSlots ∧ i < kMaxRcuThreads
  slot_inj : ∀ r r' i, s.threadSlot r = some i → s.threadSlot r' = some i → r = r'
  active : ∀ r k, s.inside r = some k →
    ∃ i, s.threadSlot r = some i ∧ (s.slots i).active = true
  epoch_le : ∀ i, (s.slots i).epoch.toNat ≤ s.globalEpoch.toNat
  live_lt : ∀ d e, Live s d e → d < s.retires
  live_le : ∀ d e r j, Live s d e → Holds s d r → s.threadSlot r = some j →
    (s.slots j).epoch.toNat ≤ e.toNat
  inside_lt : ∀ r k, s.inside r = some k → k < s.entered
  guards_lt : ∀ d r k, s.guards d r = some k → k < s.entered
  pcs : ∀ p, PcAt s p (s.pc p)

theorem inv_init : Inv ({} : System ι) where
  epoch := rfl
  slot_lt _ _ h := by cases h
  slot_inj _ _ _ h := by cases h
  active _ _ h := by cases h
  epoch_le _ := Nat.zero_le _
  live_lt _ _ h := by rcases h with ⟨_, h⟩ | h <;> cases h
  live_le _ _ _ _ _ _ h := by cases h
  inside_lt _ _ h := by cases h
  guards_lt _ _ _ h := by cases h
  pcs _ := trivial

/-- What a thread knows stays true while others act: the epoch does not go back,
no section is entered twice, and a new deleter has the current epoch. -/
theorem PcAt.mono {s s' : System ι} {p : ι} {pc : Pc} (h : PcAt s p pc)
    (hepoch : s.globalEpoch.toNat ≤ s'.globalEpoch.toNat) (hretires : s.retires ≤ s'.retires)
    (hslot : s.threadSlot p = s'.threadSlot p) (hinside : s.inside p = s'.inside p)
    (hlive : ∀ d e r j, Live s' d e → Holds s' d r → s'.threadSlot r = some j →
      Live s d e ∧ Holds s d r ∧ s.threadSlot r = some j ∨ s.globalEpoch.toNat ≤ e.toNat)
    (hholds : ∀ d < s.retires, ∀ r, Holds s' d r → Holds s d r) : PcAt s' p pc := by
  have hseen : ∀ {m : UInt64} {n i : Nat}, m.toNat ≤ s.globalEpoch.toNat ∧ Seen s m n i →
      m.toNat ≤ s'.globalEpoch.toNat ∧ Seen s' m n i := by
    rintro m n i ⟨hm, hs⟩
    refine ⟨hm.trans hepoch, fun d e r j hd hr hj => ?_⟩
    rcases hlive d e r j hd hr hj with ⟨hd', hr', hj'⟩ | hnew
    · exact hs d e r j hd' hr' hj'
    · exact .inl (hm.trans hnew)
  cases pc with
  | enterTime i e =>
    obtain ⟨hi, hin, he⟩ := h
    exact ⟨hslot ▸ hi, hinside ▸ hin, he.trans hepoch⟩
  | enterEpoch i e =>
    obtain ⟨hi, hin, he⟩ := h
    exact ⟨hslot ▸ hi, hinside ▸ hin, he.trans hepoch⟩
  | enterActive i =>
    obtain ⟨hi, hin⟩ := h
    exact ⟨hslot ▸ hi, hinside ▸ hin⟩
  | minCount m => exact Nat.le_trans h hepoch
  | minScan m n i => exact hseen h
  | minEpoch m n i => exact hseen h
  | delete ds =>
    intro d hd
    obtain ⟨hlt, hsafe⟩ := h d hd
    exact ⟨hlt.trans_le hretires, fun r hr => hsafe r (hholds d hlt r hr)⟩
  | _ => trivial

section Update

variable [DecidableEq ι]

theorem update_eq_some_iff {α : Type*} {f : ι → Option α} {p r : ι} {v : Option α} {k : α} :
    Function.update f p v r = some k ↔ r = p ∧ v = some k ∨ r ≠ p ∧ f r = some k := by
  rw [Function.update_apply]
  split_ifs with hr <;> simp [hr]

theorem exists_retirePush_update {s : System ι} {p : ι} {pc : Pc} {e : UInt64} {d : Nat}
    (h : ∃ p', Function.update s.pc p pc p' = .retirePush e d) :
    pc = .retirePush e d ∨ ∃ p', s.pc p' = .retirePush e d := by
  rcases (Function.exists_update_iff s.pc fun _ pc' => pc' = .retirePush e d).mp h with
    hnew | ⟨p', -, hold⟩
  · exact .inl hnew
  · exact .inr ⟨p', hold⟩

end Update

namespace Inv

variable {s : System ι}

theorem setSlot (h : Inv s) {i : Nat} {slot : ThreadEpochSlot}
    (hle : slot.epoch.toNat ≤ s.globalEpoch.toNat)
    (hfree : ∀ r k, s.inside r = some k → s.threadSlot r = some i →
      slot.active = true ∧ slot.epoch = (s.slots i).epoch) : Inv (s.setSlot i slot) := by
  have hold : ∀ j, (s.setSlot i slot).slots j = if j = i then slot else s.slots j := fun j =>
    Function.update_apply ..
  exact
    { h with
      active := by
        intro r k hk
        obtain ⟨j, hj, hact⟩ := h.active r k hk
        refine ⟨j, hj, ?_⟩
        rw [hold]
        split
        · next hji => exact (hfree r k hk (hji ▸ hj)).1
        · exact hact
      epoch_le := by
        intro j
        rw [hold]
        split
        · exact hle
        · exact h.epoch_le j
      live_le := by
        intro d e r j hd hr hj
        have hold_le := h.live_le d e r j hd hr hj
        obtain ⟨k, -, hk⟩ := hr
        rw [hold]
        split
        · next hji =>
          rw [(hfree r k hk (hji ▸ hj)).2]
          exact hji ▸ hold_le
        · exact hold_le
      pcs := fun p => (h.pcs p).mono (Nat.le_refl _) (Nat.le_refl _) rfl rfl
        (fun _ _ _ _ hd hr hj => .inl ⟨hd, hr, hj⟩) (fun _ _ _ hr => hr) }

theorem seen_all (h : Inv s) (m : UInt64) : Seen s m (numSlots s) 0 := by
  intro d e r j _ _ hj
  obtain ⟨hlt, hmax⟩ := h.slot_lt r j hj
  exact .inr ⟨Nat.zero_le j, Nat.lt_min.mpr ⟨hlt, hmax⟩⟩

theorem seen_inactive (h : Inv s) {m : UInt64} {n i : Nat} (hseen : Seen s m n i)
    (hidle : (s.slots i).active = false) : Seen s m n (i + 1) := by
  intro d e r j hd hr hj
  rcases hseen d e r j hd hr hj with hle | ⟨hij, hjn⟩
  · exact .inl hle
  · obtain ⟨k, -, hk⟩ := hr
    obtain ⟨j', hj', hact⟩ := h.active r k hk
    obtain rfl : j = j' := Option.some.inj (hj.symm.trans hj')
    have hne : i ≠ j := by
      rintro rfl
      rw [hidle] at hact
      cases hact
    exact .inr ⟨by omega, hjn⟩

theorem seen_active (h : Inv s) {m : UInt64} {n i : Nat} (hm : m.toNat ≤ s.globalEpoch.toNat)
    (hseen : Seen s m n i) :
    (min m (s.slots i).epoch).toNat ≤ s.globalEpoch.toNat ∧
      Seen s (min m (s.slots i).epoch) n (i + 1) := by
  have hmin : (min m (s.slots i).epoch).toNat ≤ m.toNat ∧
      (min m (s.slots i).epoch).toNat ≤ (s.slots i).epoch.toNat := by
    show (if m ≤ (s.slots i).epoch then m else (s.slots i).epoch).toNat ≤ _ ∧
      (if m ≤ (s.slots i).epoch then m else (s.slots i).epoch).toNat ≤ _
    split
    · next hle => exact ⟨Nat.le_refl _, UInt64.le_iff_toNat_le.mp hle⟩
    · next hgt =>
      rw [UInt64.not_le, UInt64.lt_iff_toNat_lt] at hgt
      exact ⟨hgt.le, Nat.le_refl _⟩
  refine ⟨hmin.1.trans hm, fun d e r j hd hr hj => ?_⟩
  rcases hseen d e r j hd hr hj with hle | ⟨hij, hjn⟩
  · exact .inl (hmin.1.trans hle)
  · rcases Nat.eq_or_lt_of_le hij with rfl | hlt
    · exact .inl (hmin.2.trans (h.live_le d e r i hd hr hj))
    · exact .inr ⟨hlt, hjn⟩

variable [DecidableEq ι]

theorem setPc (h : Inv s) {p : ι} {pc : Pc} (hpc : PcAt s p pc)
    (hpush : ∀ e d, pc ≠ .retirePush e d) : Inv (s.setPc p pc) := by
  have hlive : ∀ d e, Live (s.setPc p pc) d e → Live s d e := by
    rintro d e (hthread | hmem)
    · exact .inl ((exists_retirePush_update hthread).resolve_left (hpush e d))
    · exact .inr hmem
  have hmono : ∀ {p'} {pc'}, PcAt s p' pc' → PcAt (s.setPc p pc) p' pc' := fun hat =>
    hat.mono (Nat.le_refl _) (Nat.le_refl _) rfl rfl
      (fun d e r j hd hr hj => .inl ⟨hlive d e hd, hr, hj⟩) (fun _ _ _ hr => hr)
  exact
    { h with
      live_lt := fun d e hd => h.live_lt d e (hlive d e hd)
      live_le := fun d e r j hd => h.live_le d e r j (hlive d e hd)
      pcs := (Function.forall_update_iff s.pc (PcAt _)).mpr
        ⟨hmono hpc, fun p' _ => hmono (h.pcs p')⟩ }

theorem activate (h : Inv s) {p : ι} {i : Nat} (hp : s.pc p = .enterActive i) :
    Inv { (s.setSlot i { s.slots i with active := true }).setPc p .idle with
      inside := Function.update s.inside p (some s.entered)
      entered := s.entered + 1 } := by
  have hat := h.pcs p
  rw [hp] at hat
  obtain ⟨hslot, hout⟩ := hat
  have hactive : Inv (s.setSlot i { s.slots i with active := true }) :=
    h.setSlot (h.epoch_le i) (fun _ _ _ _ => ⟨rfl, rfl⟩)
  have hs : Inv ((s.setSlot i { s.slots i with active := true }).setPc p .idle) :=
    hactive.setPc trivial nofun
  have hholds : ∀ d r, Holds { (s.setSlot i { s.slots i with active := true }).setPc p .idle with
      inside := Function.update s.inside p (some s.entered)
      entered := s.entered + 1 } d r → Holds s d r := by
    rintro d r ⟨k, hg, hk⟩
    rcases update_eq_some_iff.mp hk with ⟨-, ⟨⟩⟩ | ⟨-, hk⟩
    · exact absurd (h.guards_lt d r _ hg) (Nat.lt_irrefl _)
    · exact ⟨k, hg, hk⟩
  exact
    { hs with
      active := by
        intro r k hk
        rcases update_eq_some_iff.mp hk with ⟨rfl, -⟩ | ⟨-, hk⟩
        · refine ⟨i, hslot, ?_⟩
          show (Function.update s.slots i { s.slots i with active := true } i).active = true
          rw [Function.update_self]
        · exact hs.active r k hk
      live_le := fun d e r j hd hr hj => hs.live_le d e r j hd (hholds d r hr) hj
      inside_lt := by
        intro r k hk
        rcases update_eq_some_iff.mp hk with ⟨-, ⟨⟩⟩ | ⟨-, hk⟩
        · exact Nat.lt_succ_self _
        · exact Nat.lt_succ_of_lt (h.inside_lt r k hk)
      guards_lt := fun d r k hk => Nat.lt_succ_of_lt (h.guards_lt d r k hk)
      pcs := by
        intro p'
        by_cases hpp : p' = p
        · subst hpp
          simp only [System.setPc, Function.update_self]
          trivial
        · exact (hs.pcs p').mono (Nat.le_refl _) (Nat.le_refl _) rfl
            (Function.update_of_ne hpp ..).symm
            (fun d e r j hd hr hj => .inl ⟨hd, hholds d r hr, hj⟩)
            (fun d _ r hr => hholds d r hr) }

theorem leave (h : Inv s) {p : ι} {i : Nat} (hpc : s.pc p = .idle)
    (hslot : s.threadSlot p = some i) :
    Inv { s.setSlot i { s.slots i with active := false } with
      inside := Function.update s.inside p none } := by
  have hin : ∀ r k, Function.update s.inside p none r = some k → r ≠ p ∧ s.inside r = some k :=
    fun r k hk => (update_eq_some_iff.mp hk).resolve_left nofun
  have hother : ∀ r j, r ≠ p → s.threadSlot r = some j →
      (s.setSlot i { s.slots i with active := false }).slots j = s.slots j := by
    intro r j hr hj
    refine Function.update_of_ne (fun hji => hr (h.slot_inj r p i ?_ hslot)) _ _
    rw [hj, hji]
  have hepoch : ∀ j, ((s.setSlot i { s.slots i with active := false }).slots j).epoch =
      (s.slots j).epoch := by
    intro j
    by_cases hji : j = i
    · subst hji
      simp [System.setSlot]
    · simp [System.setSlot, Function.update_of_ne hji]
  have hholds : ∀ d r, Holds { s.setSlot i { s.slots i with active := false } with
      inside := Function.update s.inside p none } d r → Holds s d r := by
    rintro d r ⟨k, hg, hk⟩
    exact ⟨k, hg, (hin r k hk).2⟩
  exact
    { h with
      active := by
        intro r k hk
        obtain ⟨hr, hk⟩ := hin r k hk
        obtain ⟨j, hj, hact⟩ := h.active r k hk
        exact ⟨j, hj, by rw [hother r j hr hj]; exact hact⟩
      epoch_le := fun j => (congrArg UInt64.toNat (hepoch j)).trans_le (h.epoch_le j)
      live_le := fun d e r j hd hr hj =>
        (congrArg UInt64.toNat (hepoch j)).trans_le (h.live_le d e r j hd (hholds d r hr) hj)
      inside_lt := fun r k hk => h.inside_lt r k (hin r k hk).2
      pcs := by
        intro p'
        by_cases hpp : p' = p
        · subst hpp
          simp only [System.setSlot, hpc]
          trivial
        · exact (h.pcs p').mono (Nat.le_refl _) (Nat.le_refl _) rfl
            (Function.update_of_ne hpp ..).symm
            (fun d e r j hd hr hj => .inl ⟨hd, hholds d r hr, hj⟩)
            (fun d _ r hr => hholds d r hr) }

/-- A `retire` call reads the epoch: no reader inside has a later one. -/
theorem retire (h : Inv s) (p : ι) :
    Inv { s.setPc p (.retirePush s.globalEpoch s.retires) with
      retires := s.retires + 1
      guards := Function.update s.guards s.retires s.inside } := by
  have hlive : ∀ d e, Live { s.setPc p (.retirePush s.globalEpoch s.retires) with
      retires := s.retires + 1
      guards := Function.update s.guards s.retires s.inside } d e →
      Live s d e ∨ d = s.retires ∧ e = s.globalEpoch := by
    rintro d e (hthread | hmem)
    · rcases exists_retirePush_update hthread with hnew | hold
      · cases hnew
        exact .inr ⟨rfl, rfl⟩
      · exact .inl (.inl hold)
    · exact .inl (.inr hmem)
  have hguards : ∀ d, d < s.retires →
      Function.update s.guards s.retires s.inside d = s.guards d := fun d hd =>
    Function.update_of_ne (Nat.ne_of_lt hd) ..
  have hholds : ∀ d < s.retires, ∀ r, Holds { s.setPc p (.retirePush s.globalEpoch s.retires) with
      retires := s.retires + 1
      guards := Function.update s.guards s.retires s.inside } d r → Holds s d r := by
    rintro d hd r ⟨k, hg, hk⟩
    refine ⟨k, ?_, hk⟩
    rwa [← hguards d hd]
  exact
    { h with
      live_lt := by
        intro d e hd
        rcases hlive d e hd with hold | ⟨rfl, -⟩
        · exact Nat.lt_succ_of_lt (h.live_lt d e hold)
        · exact Nat.lt_succ_self _
      live_le := by
        intro d e r j hd hr hj
        rcases hlive d e hd with hold | ⟨-, rfl⟩
        · exact h.live_le d e r j hold (hholds d (h.live_lt d e hold) r hr) hj
        · exact h.epoch_le j
      guards_lt := by
        intro d r k hk
        by_cases hd : d = s.retires
        · subst hd
          simp only [Function.update_self] at hk
          exact h.inside_lt r k hk
        · simp only [Function.update_of_ne hd] at hk
          exact h.guards_lt d r k hk
      pcs := by
        refine (Function.forall_update_iff s.pc (PcAt _)).mpr ⟨trivial, fun p' _ => ?_⟩
        refine (h.pcs p').mono (Nat.le_refl _) (Nat.le_succ _) rfl rfl ?_ hholds
        intro d e r j hd hr hj
        rcases hlive d e hd with hold | ⟨-, rfl⟩
        · exact .inl ⟨hold, hholds d (h.live_lt d e hold) r hr, hj⟩
        · exact .inr (Nat.le_refl _) }

theorem push (h : Inv s) {p : ι} {epoch : UInt64} {deleter : Nat}
    (hp : s.pc p = .retirePush epoch deleter) :
    Inv { s.setPc p .idle with retiredList := s.retiredList ++ [⟨epoch, deleter⟩] } := by
  have hs : Inv (s.setPc p .idle) := h.setPc trivial nofun
  have hlive : ∀ d e, Live { s.setPc p .idle with
      retiredList := s.retiredList ++ [⟨epoch, deleter⟩] } d e → Live s d e := by
    rintro d e (hthread | hmem)
    · exact .inl ((exists_retirePush_update hthread).resolve_left nofun)
    · rcases List.mem_append.mp hmem with hold | hnew
      · exact .inr hold
      · obtain ⟨rfl, rfl⟩ := DeferredDeletion.mk.inj (List.mem_singleton.mp hnew)
        exact .inl ⟨p, hp⟩
  exact
    { hs with
      live_lt := fun d e hd => h.live_lt d e (hlive d e hd)
      live_le := fun d e r j hd => h.live_le d e r j (hlive d e hd)
      pcs := by
        refine (Function.forall_update_iff s.pc (PcAt _)).mpr ⟨trivial, fun p' _ => ?_⟩
        exact (h.pcs p').mono (Nat.le_refl _) (Nat.le_refl _) rfl rfl
          (fun d e r j hd hr hj => .inl ⟨hlive d e hd, hr, hj⟩) (fun _ _ _ hr => hr) }

theorem advance (h : Inv s) (hlt : s.advances + 1 < 2 ^ 64 - 1) {p : ι} (caller : Caller) :
    Inv { s.setPc p caller.resume with
      globalEpoch := s.globalEpoch + 1
      advances := s.advances + 1 } := by
  have hs : Inv (s.setPc p caller.resume) := by
    cases caller with
    | program => exact h.setPc trivial nofun
    | reclaim => exact h.setPc trivial nofun
  have hepoch := h.epoch
  have hsucc : (s.globalEpoch + 1).toNat = s.globalEpoch.toNat + 1 := by
    rw [UInt64.toNat_add, hepoch]
    exact Nat.mod_eq_of_lt (by simp; omega)
  have hle : s.globalEpoch.toNat ≤ (s.globalEpoch + 1).toNat := by omega
  exact
    { hs with
      epoch := by rw [hsucc, hepoch]
      epoch_le := fun i => (h.epoch_le i).trans hle
      pcs := fun p' => (hs.pcs p').mono hle (Nat.le_refl _) rfl rfl
        (fun d e r j hd hr hj => .inl ⟨hd, hr, hj⟩) (fun _ _ _ hr => hr) }

/-- The section in which a reclaimer takes what is older than its minimum: no
reader that one of these deleters has to wait for is still inside. -/
theorem take (h : Inv s) {p : ι} {m : UInt64} {n i : Nat} (hp : s.pc p = .minScan m n i)
    (hend : ¬ i < n) :
    Inv { s.setPc p (.delete ((s.retiredList.filter (·.epoch < m)).map
        DeferredDeletion.deleter)) with
      retiredList := s.retiredList.filter fun item => !(item.epoch < m) } := by
  have hat := h.pcs p
  rw [hp] at hat
  obtain ⟨-, hseen⟩ := hat
  have hdelete : PcAt s p (.delete ((s.retiredList.filter (·.epoch < m)).map
      DeferredDeletion.deleter)) := by
    intro d hd
    obtain ⟨⟨e, d⟩, hmem, rfl⟩ := List.mem_map.mp hd
    obtain ⟨hmem, hold⟩ := List.mem_filter.mp hmem
    have hlive : Live s d e := .inr hmem
    refine ⟨h.live_lt d e hlive, fun r hr => ?_⟩
    have ⟨k, _, hk⟩ := hr
    obtain ⟨j, hj, -⟩ := h.active r k hk
    have hlt : e.toNat < m.toNat := UInt64.lt_iff_toNat_lt.mp (of_decide_eq_true hold)
    rcases hseen d e r j hlive hr hj with hle | ⟨hij, hjn⟩ <;> omega
  have hs := h.setPc hdelete nofun
  have hlive : ∀ d e, Live { s.setPc p (.delete ((s.retiredList.filter (·.epoch < m)).map
        DeferredDeletion.deleter)) with
      retiredList := s.retiredList.filter fun item => !(item.epoch < m) } d e →
      Live (s.setPc p (.delete ((s.retiredList.filter (·.epoch < m)).map
        DeferredDeletion.deleter))) d e := by
    rintro d e (hpush | hmem)
    · exact .inl hpush
    · exact .inr (List.mem_filter.mp hmem).1
  exact
    { hs with
      live_lt := fun d e hd => hs.live_lt d e (hlive d e hd)
      live_le := fun d e r j hd => hs.live_le d e r j (hlive d e hd)
      pcs := fun p' => (hs.pcs p').mono (Nat.le_refl _) (Nat.le_refl _) rfl rfl
        (fun d e r j hd hr hj => .inl ⟨hlive d e hd, hr, hj⟩) (fun _ _ _ hr => hr) }

theorem register (h : Inv s) {p : ι} (hpc : s.pc p = .idle) (hnone : s.threadSlot p = none)
    (hfree : s.allocatedSlots < kMaxRcuThreads) :
    Inv { s with
      allocatedSlots := s.allocatedSlots + 1
      threadSlot := Function.update s.threadSlot p (some s.allocatedSlots) } := by
  have hinside : ∀ r k, s.inside r = some k → r ≠ p := by
    rintro r k hk rfl
    obtain ⟨i, hi, -⟩ := h.active r k hk
    rw [hnone] at hi
    cases hi
  have hreader : ∀ d r j, Holds s d r →
      Function.update s.threadSlot p (some s.allocatedSlots) r = some j →
      s.threadSlot r = some j := by
    rintro d r j ⟨k, -, hk⟩ hj
    rwa [Function.update_of_ne (hinside r k hk)] at hj
  exact
    { h with
      slot_lt := by
        intro r i hi
        rcases update_eq_some_iff.mp hi with ⟨-, ⟨⟩⟩ | ⟨-, hi⟩
        · exact ⟨Nat.lt_succ_self _, hfree⟩
        · obtain ⟨hlt, hmax⟩ := h.slot_lt r i hi
          exact ⟨Nat.lt_succ_of_lt hlt, hmax⟩
      slot_inj := by
        intro r r' i hi hi'
        rcases update_eq_some_iff.mp hi with ⟨hr, hnew⟩ | ⟨-, hold⟩ <;>
          rcases update_eq_some_iff.mp hi' with ⟨hr', hnew'⟩ | ⟨-, hold'⟩
        · exact hr.trans hr'.symm
        · cases hnew
          exact absurd (h.slot_lt r' _ hold').1 (Nat.lt_irrefl _)
        · cases hnew'
          exact absurd (h.slot_lt r _ hold).1 (Nat.lt_irrefl _)
        · exact h.slot_inj r r' i hold hold'
      active := by
        intro r k hk
        obtain ⟨i, hi, hact⟩ := h.active r k hk
        exact ⟨i, (Function.update_of_ne (hinside r k hk) ..).trans hi, hact⟩
      live_le := fun d e r j hd hr hj => h.live_le d e r j hd hr (hreader d r j hr hj)
      pcs := by
        intro p'
        by_cases hpp : p' = p
        · subst hpp
          simp only [hpc]
          trivial
        · exact (h.pcs p').mono (Nat.le_refl _) (Nat.le_refl _)
            (Function.update_of_ne hpp ..).symm rfl
            (fun d e r j hd hr hj => .inl ⟨hd, hr, hreader d r j hr hj⟩) (fun _ _ _ hr => hr) }

end Inv

variable [DecidableEq ι]

theorem inv_next {timeoutMs : UInt32} {s s' : System ι} {p : ι} {nowNs : UInt64} (h : Inv s)
    (hlt : s'.advances < 2 ^ 64 - 1) (hs : next timeoutMs s p nowNs = some s') : Inv s' := by
  have hat := h.pcs p
  cases hp : s.pc p with
  | idle => simp [next, hp] at hs
  | enterTime i e =>
    rw [hp] at hat
    simp only [next, hp] at hs
    obtain rfl := Option.some.inj hs
    have htime : Inv (s.setSlot i { s.slots i with entryTimeNs := nowNs }) := by
      refine h.setSlot (h.epoch_le i) (fun r k hk hi => ⟨?_, rfl⟩)
      obtain ⟨j, hj, hact⟩ := h.active r k hk
      obtain rfl : i = j := Option.some.inj (hi.symm.trans hj)
      exact hact
    exact htime.setPc hat nofun
  | enterEpoch i e =>
    rw [hp] at hat
    obtain ⟨hslot, hout, he⟩ := hat
    simp only [next, hp] at hs
    obtain rfl := Option.some.inj hs
    have hepoch : Inv (s.setSlot i { s.slots i with epoch := e }) := by
      refine h.setSlot he (fun r k hk hi => ?_)
      obtain rfl := h.slot_inj r p i hi hslot
      rw [hout] at hk
      cases hk
    exact hepoch.setPc ⟨hslot, hout⟩ nofun
  | enterActive i =>
    simp only [next, hp] at hs
    obtain rfl := Option.some.inj hs
    exact h.activate hp
  | retirePush e d =>
    simp only [next, hp] at hs
    obtain rfl := Option.some.inj hs
    exact h.push hp
  | advanceCount e caller =>
    simp only [next, hp] at hs
    obtain rfl := Option.some.inj hs
    exact h.setPc trivial nofun
  | advanceScan e n i caller =>
    simp only [next, hp] at hs
    repeat' split at hs
    all_goals obtain rfl := Option.some.inj hs
    · exact h.setPc trivial nofun
    · exact h.setPc trivial nofun
    · exact h.advance hlt caller
  | advanceEpoch e n i caller =>
    simp only [next, hp] at hs
    split at hs <;> obtain rfl := Option.some.inj hs <;>
      exact h.setPc trivial nofun
  | advanceTime e n i caller =>
    simp only [next, hp] at hs
    split at hs <;> obtain rfl := Option.some.inj hs
    · cases caller <;> exact h.setPc trivial nofun
    · exact h.setPc trivial nofun
  | minLoad =>
    simp only [next, hp] at hs
    obtain rfl := Option.some.inj hs
    exact h.setPc (Nat.le_refl _) nofun
  | minCount m =>
    rw [hp] at hat
    simp only [next, hp] at hs
    obtain rfl := Option.some.inj hs
    exact h.setPc ⟨hat, h.seen_all m⟩ nofun
  | minScan m n i =>
    rw [hp] at hat
    simp only [next, hp] at hs
    split at hs
    · split at hs <;> obtain rfl := Option.some.inj hs
      · exact h.setPc hat nofun
      · next hidle =>
        exact h.setPc
          ⟨hat.1, h.seen_inactive hat.2 (Bool.eq_false_iff.mpr hidle)⟩ nofun
    · next hend =>
      obtain rfl := Option.some.inj hs
      exact h.take hp hend
  | minEpoch m n i =>
    rw [hp] at hat
    simp only [next, hp] at hs
    obtain rfl := Option.some.inj hs
    exact h.setPc (h.seen_active hat.1 hat.2) nofun
  | delete ds =>
    rw [hp] at hat
    cases ds with
    | nil =>
      simp only [next, hp] at hs
      obtain rfl := Option.some.inj hs
      exact h.setPc trivial nofun
    | cons d ds =>
      simp only [next, hp] at hs
      obtain rfl := Option.some.inj hs
      have hrest : Inv (s.setPc p (.delete ds)) := h.setPc
        (fun d' hd' => hat d' (List.mem_cons_of_mem _ hd')) nofun
      exact { hrest with }

theorem inv_step {timeoutMs : UInt32} {s s' : System ι} {a : Action ι} (h : Inv s)
    (hslots : s'.allocatedSlots ≤ kMaxRcuThreads) (hlt : s'.advances < 2 ^ 64 - 1)
    (hs : step timeoutMs s a = some s') : Inv s' := by
  cases a with
  | registerThread p =>
    simp only [step] at hs
    split at hs
    · next hnew =>
      obtain rfl := Option.some.inj hs
      have hfree : s.allocatedSlots < kMaxRcuThreads := hslots
      rw [if_neg (Nat.not_le.mpr hfree)]
      exact h.register hnew.1 hnew.2 hfree
    · cases hs
  | enter p =>
    simp only [step] at hs
    repeat' split at hs
    · next i hslot hout =>
      obtain rfl := Option.some.inj hs
      exact h.setPc ⟨hslot, hout.2, Nat.le_refl _⟩ nofun
    · cases hs
    · cases hs
  | exit p =>
    simp only [step] at hs
    repeat' split at hs
    · next i hslot hin =>
      obtain rfl := Option.some.inj hs
      exact h.leave hin.1 hslot
    · cases hs
    · cases hs
  | retire p =>
    simp only [step] at hs
    split at hs
    · obtain rfl := Option.some.inj hs
      exact h.retire p
    · cases hs
  | tryAdvanceEpoch p | reclaim p =>
    simp only [step] at hs
    split at hs
    · obtain rfl := Option.some.inj hs
      exact h.setPc trivial nofun
    · cases hs
  | next p nowNs => exact inv_next h hlt hs

theorem counters_grow {timeoutMs : UInt32} {s s' : System ι} {a : Action ι}
    (hs : step timeoutMs s a = some s') :
    s.allocatedSlots ≤ s'.allocatedSlots ∧ s.advances ≤ s'.advances := by
  cases a with
  | next p nowNs =>
    simp only [step, next] at hs
    repeat' split at hs
    all_goals cases hs
    all_goals exact ⟨Nat.le_refl _, by first | exact Nat.le_refl _ | exact Nat.le_succ _⟩
  | _ =>
    simp only [step] at hs
    repeat' split at hs
    all_goals cases hs
    all_goals exact ⟨by first | exact Nat.le_refl _ | exact Nat.le_succ _, Nat.le_refl _⟩

/-- The invariant holds while every thread has its own slot and the epoch has not
come round to zero. -/
def Good (s : System ι) : Prop :=
  s.allocatedSlots ≤ kMaxRcuThreads → s.advances < 2 ^ 64 - 1 → Inv s

theorem good_of_run {timeoutMs : UInt32} {as : List (Action ι)} {s : System ι}
    (hrun : Runs.run (step timeoutMs) {} as = some s) : Good s := by
  refine Runs.invariant (fun s a s' hg hs hslots hlt => ?_) (fun _ _ => inv_init) hrun
  obtain ⟨hslots', hlt'⟩ := counters_grow hs
  exact inv_step (hg (hslots'.trans hslots) (Nat.lt_of_le_of_lt hlt' hlt)) hslots hlt hs

end EpochRcu

end Ume
