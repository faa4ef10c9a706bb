import Mathlib.Logic.Function.Basic
import Ume.Lib.Custody
import Ume.Lib.Runs
import Ume.Platform.MmapFile

/-! What mapped files hold of the system. The objects of a program are constructed, opened,
moved, closed and destroyed in any order, and any system call behind an open may fail. -/

namespace Ume

/-- A file descriptor, or a mapped region with its address and length. -/
inductive Resource where
  | descriptor (fd : Nat)
  | region (addr size : Nat)
  deriving DecidableEq, Repr

namespace Resource

def Disjoint : Resource → Resource → Prop
  | descriptor a, descriptor b => a ≠ b
  | region a n, region b m => a + n ≤ b ∨ b + m ≤ a
  | descriptor _, region _ _ | region _ _, descriptor _ => True

instance : DecidableRel Disjoint
  | descriptor a, descriptor b => inferInstanceAs (Decidable (a ≠ b))
  | region a n, region b m => inferInstanceAs (Decidable (a + n ≤ b ∨ b + m ≤ a))
  | descriptor _, region _ _ | region _ _, descriptor _ => inferInstanceAs (Decidable True)

end Resource

/-- What the system keeps for the process. A `close` or `munmap` of something the process
does not have is counted. -/
structure Process where
  live : List Resource := []
  misuses : Nat := 0
  deriving DecidableEq, Repr

namespace Process

def acquire (os : Process) (r : Resource) : Process := { os with live := r :: os.live }

def release (os : Process) (r : Resource) : Process :=
  if r ∈ os.live then { os with live := os.live.erase r } else { os with misuses := os.misuses + 1 }

/-- The system hands out what the process does not have. -/
def Fresh (os : Process) (r : Resource) : Prop := ∀ x ∈ os.live, r.Disjoint x

instance (os : Process) (r : Resource) : Decidable (os.Fresh r) :=
  inferInstanceAs (Decidable (∀ x ∈ os.live, r.Disjoint x))

theorem Fresh.not_mem {os : Process} {r : Resource} (h : os.Fresh r) (hself : ¬ r.Disjoint r) :
    r ∉ os.live :=
  fun hr => hself (h r hr)

@[simp] theorem release_acquire (os : Process) (r : Resource) : (os.acquire r).release r = os := by
  simp [acquire, release]

end Process

/-- An object of class `MmapFile` on POSIX. -/
structure MmapObject where
  data : Option Nat := none
  size : Nat := 0
  fd : Option Nat := none
  deriving DecidableEq, Repr

namespace MmapObject

def close (f : MmapObject) (os : Process) : MmapObject × Process :=
  match f.data with
  | none => (f, os)
  | some addr =>
    let os := os.release (.region addr f.size)
    let os := match f.fd with
      | some fd => os.release (.descriptor fd)
      | none => os
    ({}, os)

/-- What both opens share. The length `size` is the one the file is given by `ftruncate` or
found to have by `fstat`; a region of length zero is refused by `mmap`. -/
def openMapped (fault : Option OpenFault) (fd addr size : Nat) (f : MmapObject) (os : Process) :
    Status × MmapObject × Process :=
  let (f, os) := f.close os
  if fault = some .open then (.kFileNotFound, f, os)
  else
    let os := os.acquire (.descriptor fd)
    if fault = some .size then (.kIoError, f, os.release (.descriptor fd))
    else if fault = some .mmap ∨ size = 0 then (.kOutOfMemory, f, os.release (.descriptor fd))
    else (.kOk, ⟨some addr, size, some fd⟩, os.acquire (.region addr size))

/-- A length that is negative as an `off_t` is refused by `ftruncate`. -/
def openReadWrite (fault : Option OpenFault) (fd addr initialSizeBytes : Nat) (f : MmapObject)
    (os : Process) : Status × MmapObject × Process :=
  let fault := if fault ≠ some .open ∧ 2 ^ 63 ≤ initialSizeBytes then some .size else fault
  openMapped fault fd addr initialSizeBytes f os

def openReadOnly (fault : Option OpenFault) (fd addr fileSize : Nat) (f : MmapObject)
    (os : Process) : Status × MmapObject × Process :=
  openMapped fault fd addr fileSize f os

def resources (f : MmapObject) : List Resource :=
  f.fd.toList.map .descriptor ++ f.data.toList.map (.region · f.size)

/-- Nothing is mapped, or the object has both a region and its descriptor. -/
def Whole (f : MmapObject) : Prop :=
  f = {} ∨ ∃ addr size fd, 0 < size ∧ f = ⟨some addr, size, some fd⟩

@[simp] theorem resources_empty : ({} : MmapObject).resources = [] := rfl

@[simp] theorem resources_mapped (addr size fd : Nat) :
    (⟨some addr, size, some fd⟩ : MmapObject).resources =
      [.descriptor fd, .region addr size] := rfl

/-- A close gives back what the object has, each thing once. -/
theorem close_eq {f : MmapObject} {os : Process} (hwhole : f.Whole) (hnodup : f.resources.Nodup)
    (hlive : ∀ r ∈ f.resources, r ∈ os.live) :
    f.close os = ({}, { os with live := os.live.diff f.resources }) := by
  rcases hwhole with rfl | ⟨addr, size, fd, -, rfl⟩
  · rfl
  · have hregion : Resource.region addr size ∈ os.live := hlive _ (by simp)
    have hfd : Resource.descriptor fd ∈ os.live.erase (.region addr size) :=
      (List.mem_erase_of_ne (by simp)).mpr (hlive _ (by simp))
    simp [close, Process.release, hregion, hfd, List.erase_comm]

end MmapObject

/-- The objects of a program that are alive, and the process they live in. -/
structure MmapHeap (ι : Type) where
  objects : ι → Option MmapObject := fun _ => none
  process : Process := {}

namespace MmapHeap

variable {ι : Type} [DecidableEq ι]

/-- The system's part of an open is the call that fails and the descriptor and address that
are handed out if none does. -/
inductive Action (ι : Type) where
  | construct (p : ι)
  | destroy (p : ι)
  | openReadWrite (p : ι) (fault : Option OpenFault) (fd addr initialSizeBytes : Nat)
  | openReadOnly (p : ι) (fault : Option OpenFault) (fd addr fileSize : Nat)
  | close (p : ι)
  | moveConstruct (p other : ι)
  | moveAssign (p other : ι)

def set (s : MmapHeap ι) (p : ι) (f : Option MmapObject) (os : Process) : MmapHeap ι :=
  ⟨Function.update s.objects p f, os⟩

/-- The fields of `f`, which lives at `other`, go to `p`. -/
def take (s : MmapHeap ι) (p other : ι) (f : MmapObject) : MmapHeap ι :=
  ⟨Function.update (Function.update s.objects other (some {})) p (some f), s.process⟩

/-- The system hands out a descriptor and a region that are free once `f` is closed. -/
def Granted (s : MmapHeap ι) (f : MmapObject) (fd addr size : Nat) : Prop :=
  (f.close s.process).2.Fresh (.descriptor fd) ∧ (f.close s.process).2.Fresh (.region addr size)

instance (s : MmapHeap ι) (f : MmapObject) (fd addr size : Nat) :
    Decidable (s.Granted f fd addr size) := inferInstanceAs (Decidable (_ ∧ _))

/-- A call needs an object that is alive, a constructor a place that is free. -/
def step (s : MmapHeap ι) : Action ι → Option (MmapHeap ι)
  | .construct p => if s.objects p = none then some (s.set p (some {}) s.process) else none
  | .destroy p => do
    let f ← s.objects p
    return s.set p none (f.close s.process).2
  | .openReadWrite p fault fd addr size => do
    let f ← s.objects p
    if s.Granted f fd addr size then
      let (_, f, os) := f.openReadWrite fault fd addr size s.process
      return s.set p (some f) os
    else none
  | .openReadOnly p fault fd addr size => do
    let f ← s.objects p
    if s.Granted f fd addr size then
      let (_, f, os) := f.openReadOnly fault fd addr size s.process
      return s.set p (some f) os
    else none
  | .close p => do
    let f ← s.objects p
    let (f, os) := f.close s.process
    return s.set p (some f) os
  | .moveConstruct p other => do
    let f ← s.objects other
    if s.objects p = none then return s.take p other f else none
  | .moveAssign p other => do
    let self ← s.objects p
    let f ← s.objects other
    if p = other then return s
    let (self, os) := self.close s.process
    return (s.set p (some self) os).take p other f

/-- What the object at `p` has of the system. -/
def held (s : MmapHeap ι) (p : ι) : List Resource := (s.objects p).elim [] MmapObject.resources

structure Sound (s : MmapHeap ι) : Prop where
  held : Custody.Held s.held s.process.live
  disjoint : s.process.live.Pairwise Resource.Disjoint
  misuses : s.process.misuses = 0
  whole : ∀ p f, s.objects p = some f → f.Whole

omit [DecidableEq ι] in
theorem held_of_objects {s : MmapHeap ι} {p : ι} {f : MmapObject} (h : s.objects p = some f) :
    s.held p = f.resources := by
  simp [MmapHeap.held, h]

theorem held_set_self (s : MmapHeap ι) (p : ι) (f : Option MmapObject) (os : Process) :
    (s.set p f os).held p = f.elim [] MmapObject.resources := by
  simp [MmapHeap.held, set]

theorem held_set_other (s : MmapHeap ι) {p q : ι} (f : Option MmapObject) (os : Process)
    (h : q ≠ p) : (s.set p f os).held q = s.held q := by
  simp [MmapHeap.held, set, h]

theorem whole_set {s : MmapHeap ι} (hs : s.Sound) {p : ι} {f : Option MmapObject} {os : Process}
    (hf : ∀ g ∈ f, g.Whole) : ∀ q g, (s.set p f os).objects q = some g → g.Whole := by
  intro q g hg
  by_cases hq : q = p
  · subst hq
    simp only [set, Function.update_self] at hg
    exact hf g hg
  · simp only [set, Function.update_of_ne hq] at hg
    exact hs.whole q g hg

omit [DecidableEq ι] in
theorem sound_init : ({} : MmapHeap ι).Sound where
  held := Custody.held_nil
  disjoint := .nil
  misuses := rfl
  whole _ _ h := by simp at h

/-- A place without resources may change to another one without. -/
theorem Sound.set_empty {s : MmapHeap ι} (hs : s.Sound) {p : ι} (hp : s.held p = [])
    {f : Option MmapObject} (hf : ∀ g ∈ f, g = {}) : (s.set p f s.process).Sound where
  held := by
    have hnew : (s.set p f s.process).held p = [] := by
      rw [held_set_self]
      cases f with
      | none => rfl
      | some g => simp [hf g rfl]
    have hsame : (s.set p f s.process).held = s.held := by
      funext q
      by_cases hq : q = p
      · rw [hq, hnew, hp]
      · exact held_set_other s f _ hq
    rw [hsame]
    exact hs.held
  disjoint := hs.disjoint
  misuses := hs.misuses
  whole := whole_set hs fun g hg => .inl (hf g hg)

omit [DecidableEq ι] in
theorem Sound.close_eq {s : MmapHeap ι} (hs : s.Sound) {p : ι} {f : MmapObject}
    (hp : s.objects p = some f) :
    f.close s.process = ({}, { s.process with live := s.process.live.diff f.resources }) := by
  have hheld := held_of_objects hp
  apply MmapObject.close_eq (hs.whole p f hp)
  · exact hheld ▸ hs.held.apart.nodup p
  · intro r hr
    exact (hs.held.mem_iff r).mpr ⟨p, hheld ▸ hr⟩

/-- A destructor and `close` differ only in what is left at `p`. -/
theorem Sound.closed {s : MmapHeap ι} (hs : s.Sound) {p : ι} {f : MmapObject}
    (hp : s.objects p = some f) {g : Option MmapObject} (hg : ∀ x ∈ g, x = {}) :
    (s.set p g (f.close s.process).2).Sound := by
  rw [hs.close_eq hp]
  have hempty : (s.set p g { s.process with live := s.process.live.diff f.resources }).held p =
      [] := by
    rw [held_set_self]
    cases g with
    | none => rfl
    | some x => simp [hg x rfl]
  refine ⟨?_, ?_, hs.misuses, whole_set hs fun x hx => .inl (hg x hx)⟩
  · have h := hs.held.clear hempty fun q hq => held_set_other s g _ hq
    rwa [held_of_objects hp] at h
  · exact hs.disjoint.sublist (List.diff_sublist _ _)

theorem Sound.close {s : MmapHeap ι} (hs : s.Sound) {p : ι} {f : MmapObject}
    (hp : s.objects p = some f) :
    (s.set p (some (f.close s.process).1) (f.close s.process).2).Sound := by
  apply hs.closed hp
  simp [hs.close_eq hp]

/-- The descriptor comes first and the region second. -/
theorem Sound.mapped {s : MmapHeap ι} (hs : s.Sound) {p : ι} (hp : s.held p = [])
    {fd addr size : Nat} (hsize : 0 < size) (hfd : s.process.Fresh (.descriptor fd))
    (haddr : s.process.Fresh (.region addr size)) :
    (s.set p (some ⟨some addr, size, some fd⟩)
      ((s.process.acquire (.descriptor fd)).acquire (.region addr size))).Sound := by
  have hfree : Resource.descriptor fd ∉ s.process.live := hfd.not_mem (by simp [Resource.Disjoint])
  have haddr' : (s.process.acquire (.descriptor fd)).Fresh (.region addr size) := by
    intro x hx
    rcases List.mem_cons.mp hx with rfl | hx
    · trivial
    · exact haddr x hx
  have hself : ¬ (Resource.region addr size).Disjoint (.region addr size) := by
    simp only [Resource.Disjoint]
    omega
  have hopened : Custody.Held (Function.update s.held p [.descriptor fd])
      (s.process.acquire (.descriptor fd)).live := by
    have hdst : Function.update s.held p [.descriptor fd] p = s.held p ++ [.descriptor fd] := by
      simp [hp]
    exact hs.held.insert hfree hdst fun q hq => Function.update_of_ne hq _ _
  refine ⟨?_, ?_, hs.misuses, whole_set hs ?_⟩
  · have hdst : (s.set p (some ⟨some addr, size, some fd⟩)
        ((s.process.acquire (.descriptor fd)).acquire (.region addr size))).held p =
        Function.update s.held p [.descriptor fd] p ++ [.region addr size] := by
      simp [held_set_self]
    apply hopened.insert (haddr'.not_mem hself) hdst
    intro q hq
    rw [held_set_other s _ _ hq, Function.update_of_ne hq]
  · exact .cons haddr' (.cons hfd hs.disjoint)
  · rintro g ⟨rfl⟩
    exact .inr ⟨addr, size, fd, hsize, rfl⟩

theorem Sound.taken {s : MmapHeap ι} (hs : s.Sound) {p other : ι} {f : MmapObject}
    (hne : p ≠ other) (hp : s.held p = []) (hother : s.objects other = some f) :
    (s.take p other f).Sound where
  held := by
    apply hs.held.move hne.symm hp
    · simp [MmapHeap.held, take, hne.symm]
    · simp [MmapHeap.held, take, hother]
    · intro q hq hq'
      simp [MmapHeap.held, take, hq, hq']
  disjoint := hs.disjoint
  misuses := hs.misuses
  whole q g hg := by
    by_cases hq : q = p
    · subst hq
      simp only [take, Function.update_self, Option.some.injEq] at hg
      exact hg ▸ hs.whole other f hother
    · by_cases hq' : q = other
      · subst hq'
        simp only [take, Function.update_of_ne hq, Function.update_self, Option.some.injEq] at hg
        exact .inl hg.symm
      · simp only [take, Function.update_of_ne hq, Function.update_of_ne hq'] at hg
        exact hs.whole q g hg

theorem set_set (s : MmapHeap ι) (p : ι) (f g : Option MmapObject) (os os' : Process) :
    (s.set p f os).set p g os' = s.set p g os' := by
  simp [set]

/-- Whichever call of an open fails, nothing of it stays behind. -/
theorem Sound.opened {s : MmapHeap ι} (hs : s.Sound) {p : ι} {f : MmapObject}
    (hp : s.objects p = some f) {fault : Option OpenFault} {fd addr size : Nat}
    (hgranted : s.Granted f fd addr size) :
    (s.set p (some (f.openMapped fault fd addr size s.process).2.1)
      (f.openMapped fault fd addr size s.process).2.2).Sound := by
  have hself : (f.close s.process).1 = {} := by rw [hs.close_eq hp]
  have hclosed : (s.set p (some {}) (f.close s.process).2).Sound := by
    apply hs.closed hp
    simp
  unfold MmapObject.openMapped
  by_cases hopen : fault = some .open
  · simpa [hopen, hself] using hclosed
  · by_cases hsize : fault = some .size
    · simpa [hsize, hself] using hclosed
    · by_cases hmap : fault = some .mmap ∨ size = 0
      · simpa [hopen, hsize, hmap, hself] using hclosed
      · have hpos : 0 < size := Nat.pos_of_ne_zero fun hz => hmap (.inr hz)
        have hempty : (s.set p (some {}) (f.close s.process).2).held p = [] := by
          simp [held_set_self]
        have h := hclosed.mapped hempty hpos hgranted.1 hgranted.2
        rw [set_set] at h
        simpa [hopen, hsize, hmap, set] using h

theorem Sound.step {s t : MmapHeap ι} {a : Action ι} (hs : s.Sound) (h : s.step a = some t) :
    t.Sound := by
  cases a with
  | construct p =>
    obtain ⟨hfree, ht⟩ := Option.ite_none_right_eq_some.mp h
    obtain rfl := Option.some.inj ht
    apply hs.set_empty
    · simp [MmapHeap.held, hfree]
    · simp
  | destroy p =>
    obtain ⟨f, hp, ht⟩ := Option.bind_eq_some_iff.mp h
    obtain rfl := Option.some.inj ht
    exact hs.closed hp (by simp)
  | openReadWrite p fault fd addr size =>
    obtain ⟨f, hp, ht⟩ := Option.bind_eq_some_iff.mp h
    obtain ⟨hgranted, ht⟩ := Option.ite_none_right_eq_some.mp ht
    obtain rfl := Option.some.inj ht
    exact hs.opened hp hgranted
  | openReadOnly p fault fd addr size =>
    obtain ⟨f, hp, ht⟩ := Option.bind_eq_some_iff.mp h
    obtain ⟨hgranted, ht⟩ := Option.ite_none_right_eq_some.mp ht
    obtain rfl := Option.some.inj ht
    exact hs.opened hp hgranted
  | close p =>
    obtain ⟨f, hp, ht⟩ := Option.bind_eq_some_iff.mp h
    have ht : s.set p (some (f.close s.process).1) (f.close s.process).2 = t := Option.some.inj ht
    exact ht ▸ hs.close hp
  | moveConstruct p other =>
    obtain ⟨f, hother, ht⟩ := Option.bind_eq_some_iff.mp h
    obtain ⟨hfree, ht⟩ := Option.ite_none_right_eq_some.mp ht
    obtain rfl := Option.some.inj ht
    have hne : p ≠ other := by
      rintro rfl
      simp [hfree] at hother
    apply hs.taken hne _ hother
    simp [MmapHeap.held, hfree]
  | moveAssign p other =>
    obtain ⟨self, hp, ht⟩ := Option.bind_eq_some_iff.mp h
    obtain ⟨f, hother, ht⟩ := Option.bind_eq_some_iff.mp ht
    by_cases hsame : p = other
    · simp only [hsame, if_true] at ht
      obtain rfl := Option.some.inj ht
      exact hs
    · simp only [hsame, if_false] at ht
      obtain rfl := Option.some.inj ht
      apply (hs.close hp).taken hsame
      · simp [held_set_self, hs.close_eq hp]
      · simp [set, Ne.symm hsame, hother]

/-- Two files are opened and one is assigned to the other, an open fails at its last call,
and the number and the address that were given back are handed out again. -/
def reassigning : List (Action Bool) :=
  [.construct false, .construct true, .openReadWrite false none 3 4096 100,
    .openReadOnly true none 4 8192 50, .moveAssign false false, .moveAssign true false,
    .openReadWrite false (some .mmap) 4 8192 10, .openReadOnly false none 4 8192 70, .close true]

/-- No descriptor and no region is given back twice or lost: each one the process has belongs
to exactly one object that is alive, which has both or neither, and no two overlap. -/
theorem handles_owned_once {as : List (Action ι)} {s : MmapHeap ι}
    (hrun : Runs.run step ({} : MmapHeap ι) as = some s) :
    s.process.misuses = 0 ∧ s.process.live.Pairwise Resource.Disjoint ∧
      (∀ p f, s.objects p = some f → f = {} ∨ ∃ addr fd, 0 < f.size ∧ f.data = some addr ∧
        f.fd = some fd ∧ .region addr f.size ∈ s.process.live ∧
          .descriptor fd ∈ s.process.live) ∧
      (∀ r ∈ s.process.live, ∃! p, r ∈ s.held p) ∧
      ((∀ p, s.objects p = none) → s.process.live = []) := by
  have hs : s.Sound := Runs.invariant (fun _ _ _ hinv hstep => hinv.step hstep) sound_init hrun
  refine ⟨hs.misuses, hs.disjoint, ?_, ?_, ?_⟩
  · intro p f hp
    rcases hs.whole p f hp with hempty | ⟨addr, size, fd, hpos, rfl⟩
    · exact .inl hempty
    · have hheld := held_of_objects hp
      refine .inr ⟨addr, fd, hpos, rfl, rfl, ?_, ?_⟩
      · exact (hs.held.mem_iff _).mpr ⟨p, by simp [hheld]⟩
      · exact (hs.held.mem_iff _).mpr ⟨p, by simp [hheld]⟩
  · intro r hr
    obtain ⟨p, hp⟩ := (hs.held.mem_iff r).mp hr
    exact ⟨p, hp, fun q hq => hs.held.apart.unique q p r hq hp⟩
  · intro hnone
    apply List.eq_nil_iff_forall_not_mem.mpr
    intro r hr
    obtain ⟨p, hp⟩ := (hs.held.mem_iff r).mp hr
    simp [MmapHeap.held, hnone p] at hp

theorem handles_owned_once_reassigning : ∃ s, Runs.run step {} reassigning = some s ∧
    s.objects true = some {} ∧ s.objects false = some ⟨some 8192, 70, some 4⟩ ∧
      s.process = ⟨[.region 8192 70, .descriptor 4], 0⟩ ∧
      ∀ r ∈ s.process.live, ∃! p, r ∈ s.held p :=
  ⟨_, rfl, by decide, by decide, by decide, (@handles_owned_once Bool _ reassigning _ rfl).2.2.2.1⟩

end MmapHeap

end Ume
