import Ume.Concurrency.HazardPointers
import Ume.Lib.Loop

/-! Deleters that retire. A call of `reclaim` runs deleters while it goes through the
retired list, and a `retire` call in a deleter starts another `reclaim`, which finds the
item whose deleter is running still in the list and runs it again. -/

namespace Ume

namespace HazardPointerDomain

/-- The arguments of a `retire` call, either of which may be null. -/
structure RetireArgs (ν : Type*) where
  ptr : Option ν
  deleter : Option Nat

def RetireArgs.item? {ν : Type*} (args : RetireArgs ν) : Option (RetiredItem ν) :=
  match args.ptr, args.deleter with
  | some ptr, some deleter => some ⟨ptr, deleter⟩
  | _, _ => none

/-- A `reclaim` call with the items it has still to look at, or a deleter with the `retire`
calls it has still to make. The iterators of a `reclaim` call are those of the list as it
was at some version. -/
inductive Frame (ν : Type*) where
  | sweep (items : List (RetiredItem ν)) (protectedPtrs : List ν)
      (stillRetired : List (RetiredItem ν)) (version : Nat)
  | deleter (calls : List (RetireArgs ν))

/-- The domain and the calls in progress, the innermost first. The version of the list
changes when it is appended to or assigned. The rest records the items put into the list
and those whose deleter has been run. -/
structure Reentrant (ν : Type*) extends HazardPointerDomain ν where
  version : Nat := 0
  stack : List (Frame ν) := []
  handed : List (RetiredItem ν) := []
  ran : List (RetiredItem ν) := []

variable {ν : Type*}

/-- The pointers that a `reclaim` call collects. -/
def protectedPtrs (slots : Nat → HazardSlot ν) : List ν :=
  (List.range kMaxHazardSlots).filterMap fun i =>
    if (slots i).active then (slots i).pointer else none

namespace Reentrant

def reclaim (s : Reentrant ν) : Reentrant ν :=
  if s.retired.isEmpty then s
  else { s with stack := .sweep s.retired (protectedPtrs s.slots) [] s.version :: s.stack }

def retire (s : Reentrant ν) (args : RetireArgs ν) : Reentrant ν :=
  match args.item? with
  | none => s
  | some item =>
    reclaim { s with
      retired := s.retired ++ [item]
      version := s.version + 1
      handed := s.handed ++ [item] }

variable [DecidableEq ν]

/-- One step of the innermost call; `body` gives the `retire` calls that the deleter of an
item makes. Going on with iterators that are no longer valid is undefined. An item that
stays is moved out of the list, but its pointer is left there and keeps it from being run by
a call inside this one. -/
def pass (body : RetiredItem ν → List (RetireArgs ν)) (s : Reentrant ν) :
    Reentrant ν ⊕ Option (Reentrant ν) :=
  match s.stack with
  | [] => .inr (some s)
  | .deleter [] :: stack => .inl { s with stack }
  | .deleter (args :: calls) :: stack =>
    .inl (retire { s with stack := .deleter calls :: stack } args)
  | .sweep items protectedPtrs stillRetired version :: stack =>
    if version = s.version then
      match items with
      | [] => .inl { s with stack, retired := stillRetired, version := s.version + 1 }
      | item :: items =>
        if item.ptr ∈ protectedPtrs then
          .inl { s with
            stack := .sweep items protectedPtrs (stillRetired ++ [item]) version :: stack }
        else
          .inl { s with
            stack := .deleter (body item) ::
              .sweep items protectedPtrs stillRetired version :: stack
            ran := s.ran ++ [item] }
    else .inr none

/-- Calls of the retiring thread, and what the readers have published by then. -/
inductive Call (ν : Type*) where
  | retire (args : RetireArgs ν)
  | reclaim
  | publish (slots : Nat → HazardSlot ν)

def start (s : Reentrant ν) : Call ν → Reentrant ν
  | .retire args => s.retire args
  | .reclaim => s.reclaim
  | .publish slots => { s with slots }

def call (body : RetiredItem ν → List (RetireArgs ν)) (fuel : Nat) (s : Reentrant ν)
    (c : Call ν) : Option (Reentrant ν) :=
  (Loop.run (pass body) fuel (s.start c)).join

/-- Each item put into the list is still there once, or has had its deleter run once. -/
def Settled (s : Reentrant ν) : Prop := (s.ran ++ s.retired).Perm s.handed

/-- No deleter that a `reclaim` call would run retires anything. -/
def Calm (body : RetiredItem ν → List (RetireArgs ν)) (slots : Nat → HazardSlot ν)
    (items : List (RetiredItem ν)) : Prop :=
  ∀ item ∈ items, item.ptr ∈ protectedPtrs slots ∨ ∀ args ∈ body item, args.item? = none

instance (body : RetiredItem ν → List (RetireArgs ν)) (slots : Nat → HazardSlot ν)
    (items : List (RetiredItem ν)) : Decidable (Calm body slots items) :=
  inferInstanceAs (Decidable (∀ item ∈ items, _ ∨ _))

def Quiet (body : RetiredItem ν → List (RetireArgs ν)) (s : Reentrant ν) : Call ν → Prop
  | .retire args => ∀ item ∈ args.item?, Calm body s.slots (s.retired ++ [item])
  | .reclaim => Calm body s.slots s.retired
  | .publish _ => True

instance (body : RetiredItem ν → List (RetireArgs ν)) (s : Reentrant ν) :
    ∀ c, Decidable (s.Quiet body c)
  | .retire args =>
    inferInstanceAs (Decidable (∀ item ∈ args.item?, Calm body s.slots (s.retired ++ [item])))
  | .reclaim => inferInstanceAs (Decidable (Calm body s.slots s.retired))
  | .publish _ => .isTrue trivial

section Calls

variable {body : RetiredItem ν → List (RetireArgs ν)} {s : Reentrant ν} {stack : List (Frame ν)}
  {r : Option (Reentrant ν)}

theorem pass_retire {args : RetireArgs ν} {calls : List (RetireArgs ν)}
    (hstack : s.stack = .deleter (args :: calls) :: stack) :
    pass body s = .inl (retire { s with stack := .deleter calls :: stack } args) := by
  simp only [pass, hstack]

omit [DecidableEq ν] in
theorem retire_of_item?_eq_none {args : RetireArgs ν} (h : args.item? = none) :
    s.retire args = s := by
  rw [retire, h]

theorem pass_protected {item : RetiredItem ν} {items stillRetired : List (RetiredItem ν)}
    {ptrs : List ν}
    (hstack : s.stack = .sweep (item :: items) ptrs stillRetired s.version :: stack)
    (h : item.ptr ∈ ptrs) :
    pass body s = .inl { s with
      stack := .sweep items ptrs (stillRetired ++ [item]) s.version :: stack } := by
  simp only [pass, hstack, if_true, if_pos h]

theorem pass_unprotected {item : RetiredItem ν} {items stillRetired : List (RetiredItem ν)}
    {ptrs : List ν}
    (hstack : s.stack = .sweep (item :: items) ptrs stillRetired s.version :: stack)
    (h : item.ptr ∉ ptrs) :
    pass body s = .inl { s with
      stack := .deleter (body item) :: .sweep items ptrs stillRetired s.version :: stack
      ran := s.ran ++ [item] } := by
  simp only [pass, hstack, if_true, if_neg h]

/-- A deleter that retires nothing ends. -/
theorem returns_deleter_iff {calls : List (RetireArgs ν)}
    (h : ∀ args ∈ calls, args.item? = none) :
    Loop.Returns (pass body) { s with stack := .deleter calls :: stack } r ↔
      Loop.Returns (pass body) { s with stack } r := by
  induction calls with
  | nil => exact Loop.returns_inl_iff rfl
  | cons args calls ih =>
    obtain ⟨hargs, hcalls⟩ := List.forall_mem_cons.mp h
    rw [← ih hcalls]
    refine Loop.returns_inl_iff ((pass_retire rfl).trans ?_)
    rw [retire_of_item?_eq_none hargs]

/-- A `reclaim` call that runs only such deleters ends. -/
theorem returns_sweep_iff {items stillRetired : List (RetiredItem ν)}
    (h : Calm body s.slots items) :
    Loop.Returns (pass body)
        { s with stack := .sweep items (protectedPtrs s.slots) stillRetired s.version :: stack } r ↔
      Loop.Returns (pass body)
        { s with
          stack
          retired := stillRetired ++ items.filter (·.ptr ∈ protectedPtrs s.slots)
          version := s.version + 1
          ran := s.ran ++ items.filter (·.ptr ∉ protectedPtrs s.slots) } r := by
  induction items generalizing s stillRetired with
  | nil =>
    rw [List.filter_nil, List.filter_nil, List.append_nil, List.append_nil]
    refine Loop.returns_inl_iff ?_
    simp only [pass, if_true]
  | cons item items ih =>
    obtain ⟨hitem, hitems⟩ := List.forall_mem_cons.mp h
    by_cases hprotected : item.ptr ∈ protectedPtrs s.slots
    · rw [List.filter_cons_of_pos (by simpa using hprotected),
        List.filter_cons_of_neg (by simpa using hprotected), List.append_cons, ← ih hitems]
      exact Loop.returns_inl_iff (pass_protected rfl hprotected)
    · rw [List.filter_cons_of_neg (by simpa using hprotected),
        List.filter_cons_of_pos (by simpa using hprotected), List.append_cons]
      refine (Loop.returns_inl_iff (pass_unprotected rfl hprotected)).trans ?_
      exact (returns_deleter_iff (s := { s with ran := s.ran ++ [item] })
        (hitem.resolve_left hprotected)).trans (ih hitems)

/-- The innermost call comes to the item `bad`, whose deleter retires something: it is in a
sweep before it, in a deleter of such a sweep, or in a deleter that retires. -/
inductive Heading (body : RetiredItem ν → List (RetireArgs ν)) (s : Reentrant ν)
    (bad : RetiredItem ν) : List (Frame ν) → Prop
  | sweep {items after stillRetired : List (RetiredItem ν)} {stack : List (Frame ν)} :
    Calm body s.slots items → Heading body s bad
      (.sweep (items ++ bad :: after) (protectedPtrs s.slots) stillRetired s.version :: stack)
  | calm {calls : List (RetireArgs ν)} {items after stillRetired : List (RetiredItem ν)}
    {stack : List (Frame ν)} :
    (∀ args ∈ calls, args.item? = none) → Calm body s.slots items → Heading body s bad
      (.deleter calls ::
        .sweep (items ++ bad :: after) (protectedPtrs s.slots) stillRetired s.version :: stack)
  | retiring {calls : List (RetireArgs ν)} {stack : List (Frame ν)} :
    (∃ args ∈ calls, args.item? ≠ none) → Heading body s bad (.deleter calls :: stack)

/-- The item is in the list behind items that do no harm, and the innermost call comes to
it. -/
structure Doomed (body : RetiredItem ν → List (RetireArgs ν)) (before : List (RetiredItem ν))
    (bad : RetiredItem ν) (s : Reentrant ν) : Prop where
  retired : ∃ after, s.retired = before ++ bad :: after
  calm : Calm body s.slots before
  unprotected : bad.ptr ∉ protectedPtrs s.slots
  retires : ∃ args ∈ body bad, args.item? ≠ none
  heading : Heading body s bad s.stack

omit [DecidableEq ν] in
/-- A `reclaim` call over a list with such an item comes to it. -/
theorem doomed_reclaim {before : List (RetiredItem ν)} {bad : RetiredItem ν}
    (hretired : ∃ after, s.retired = before ++ bad :: after) (hcalm : Calm body s.slots before)
    (hunprotected : bad.ptr ∉ protectedPtrs s.slots)
    (hretires : ∃ args ∈ body bad, args.item? ≠ none) : Doomed body before bad s.reclaim := by
  obtain ⟨after, hafter⟩ := hretired
  have hne : s.retired.isEmpty = false := by rw [hafter]; simp
  rw [reclaim, hne]
  refine ⟨⟨after, hafter⟩, hcalm, hunprotected, hretires, ?_⟩
  simp only [hafter]
  exact .sweep hcalm

/-- Every step of a doomed call leads to another one. -/
theorem Doomed.step {before : List (RetiredItem ν)} {bad : RetiredItem ν}
    (h : Doomed body before bad s) : ∃ s', pass body s = .inl s' ∧ Doomed body before bad s' := by
  obtain ⟨hretired, hcalm, hunprotected, hretires, hheading⟩ := h
  generalize hstack : s.stack = frames at hheading
  cases hheading with
  | @sweep items after stillRetired stack hitems =>
    cases items with
    | nil =>
      refine ⟨_, pass_unprotected hstack hunprotected, ?_⟩
      exact ⟨hretired, hcalm, hunprotected, hretires, .retiring hretires⟩
    | cons item items =>
      obtain ⟨hitem, hitems⟩ := List.forall_mem_cons.mp hitems
      by_cases hprotected : item.ptr ∈ protectedPtrs s.slots
      · refine ⟨_, pass_protected hstack hprotected, ?_⟩
        exact ⟨hretired, hcalm, hunprotected, hretires, .sweep hitems⟩
      · refine ⟨_, pass_unprotected hstack hprotected, ?_⟩
        exact ⟨hretired, hcalm, hunprotected, hretires,
          .calm (hitem.resolve_left hprotected) hitems⟩
  | @calm calls items after stillRetired stack hcalls hitems =>
    cases calls with
    | nil =>
      refine ⟨_, by simp only [pass, hstack]; rfl, ?_⟩
      exact ⟨hretired, hcalm, hunprotected, hretires, .sweep hitems⟩
    | cons args calls =>
      obtain ⟨hargs, hcalls⟩ := List.forall_mem_cons.mp hcalls
      refine ⟨_, pass_retire hstack, ?_⟩
      rw [retire_of_item?_eq_none hargs]
      exact ⟨hretired, hcalm, hunprotected, hretires, .calm hcalls hitems⟩
  | @retiring calls stack hcalls =>
    cases calls with
    | nil =>
      obtain ⟨args, hargs, -⟩ := hcalls
      exact absurd hargs List.not_mem_nil
    | cons args calls =>
      refine ⟨_, pass_retire hstack, ?_⟩
      rw [retire]
      cases hitem : args.item? with
      | none =>
        have hrest : ∃ args ∈ calls, args.item? ≠ none := by
          obtain ⟨args', hmem, hargs'⟩ := hcalls
          rcases List.mem_cons.mp hmem with rfl | hmem
          · exact absurd hitem hargs'
          · exact ⟨args', hmem, hargs'⟩
        exact ⟨hretired, hcalm, hunprotected, hretires, .retiring hrest⟩
      | some item =>
        obtain ⟨after, hafter⟩ := hretired
        refine doomed_reclaim ⟨after ++ [item], ?_⟩ hcalm hunprotected hretires
        simp only [hafter, List.append_assoc, List.cons_append]

omit [DecidableEq ν] in
theorem exists_first_bad {slots : Nat → HazardSlot ν} {items : List (RetiredItem ν)}
    (h : ¬ Calm body slots items) : ∃ before bad after, items = before ++ bad :: after ∧
      Calm body slots before ∧ bad.ptr ∉ protectedPtrs slots ∧
        ∃ args ∈ body bad, args.item? ≠ none := by
  induction items with
  | nil => exact absurd (List.forall_mem_nil _) h
  | cons item items ih =>
    by_cases hitem : item.ptr ∈ protectedPtrs slots ∨ ∀ args ∈ body item, args.item? = none
    · obtain ⟨before, bad, after, rfl, hbefore, hbad⟩ :=
        ih fun hitems => h (List.forall_mem_cons.mpr ⟨hitem, hitems⟩)
      exact ⟨item :: before, bad, after, rfl, List.forall_mem_cons.mpr ⟨hitem, hbefore⟩, hbad⟩
    · push Not at hitem
      exact ⟨[], item, items, rfl, List.forall_mem_nil _, hitem⟩

/-- A `reclaim` call that runs a deleter that retires does not return. -/
theorem not_returns_reclaim (h : ¬ Calm body s.slots s.retired) :
    ¬ Loop.Returns (pass body) s.reclaim r := by
  obtain ⟨before, bad, after, hretired, hcalm, hunprotected, hretires⟩ := exists_first_bad h
  exact Loop.not_returns_of_trap (Doomed body before bad) (fun _ hdoomed => hdoomed.step) _
    (doomed_reclaim ⟨after, hretired⟩ hcalm hunprotected hretires) r

theorem returns_self (hstack : s.stack = []) : Loop.Returns (pass body) s (some s) :=
  Loop.returns_of_inr (by rw [pass, hstack])

/-- A `reclaim` call that runs no such deleter returns, and the books are right after it. -/
theorem returns_reclaim (hstack : s.stack = []) (hcalm : Calm body s.slots s.retired)
    (hsettled : s.Settled) :
    ∃ s', Loop.Returns (pass body) s.reclaim (some s') ∧ s'.stack = [] ∧ s'.Settled := by
  rw [reclaim]
  split_ifs
  · exact ⟨s, returns_self hstack, hstack, hsettled⟩
  · refine ⟨_, (returns_sweep_iff hcalm).mpr (returns_self hstack), hstack, ?_⟩
    rw [Settled, List.nil_append, List.append_assoc]
    refine (List.Perm.append_left _ ?_).trans hsettled
    have hparts := List.filter_append_perm
      (fun item : RetiredItem ν => decide (item.ptr ∉ protectedPtrs s.slots)) s.retired
    simpa using hparts

theorem returns_start {c : Call ν} (hstack : s.stack = []) (hquiet : s.Quiet body c)
    (hsettled : s.Settled) :
    ∃ s', Loop.Returns (pass body) (s.start c) (some s') ∧ s'.stack = [] ∧ s'.Settled := by
  cases c with
  | reclaim => exact returns_reclaim hstack hquiet hsettled
  | publish slots => exact ⟨_, returns_self hstack, hstack, hsettled⟩
  | retire args =>
    rw [start, retire]
    cases hitem : args.item? with
    | none => exact ⟨s, returns_self hstack, hstack, hsettled⟩
    | some item =>
      refine returns_reclaim hstack (hquiet item hitem) ?_
      rw [Settled, ← List.append_assoc]
      exact hsettled.append_right [item]

theorem not_returns_start {c : Call ν} (hquiet : ¬ s.Quiet body c) :
    ¬ Loop.Returns (pass body) (s.start c) r := by
  cases c with
  | reclaim => exact not_returns_reclaim hquiet
  | publish slots => exact absurd trivial hquiet
  | retire args =>
    simp only [Quiet, not_forall] at hquiet
    obtain ⟨item, hitem, hcalm⟩ := hquiet
    rw [start, retire, Option.mem_def.mp hitem]
    exact not_returns_reclaim hcalm

theorem call_mono {fuel fuel' : Nat} (hle : fuel ≤ fuel') (s : Reentrant ν) (c : Call ν)
    (s' : Reentrant ν) (h : s.call body fuel c = some s') : s.call body fuel' c = some s' :=
  Option.join_eq_some_iff.mpr (Loop.run_mono (Option.join_eq_some_iff.mp h) hle)

/-- A call that returns is quiet, and returns what a quiet call does. -/
theorem quiet_of_call {fuel : Nat} {c : Call ν} {s' : Reentrant ν}
    (h : s.call body fuel c = some s') : s.Quiet body c := by
  by_contra hquiet
  exact not_returns_start hquiet ⟨fuel, Option.join_eq_some_iff.mp h⟩

theorem call_spec {fuel : Nat} {c : Call ν} {s' : Reentrant ν}
    (hs : s.stack = [] ∧ s.Settled) (h : s.call body fuel c = some s') :
    s'.stack = [] ∧ s'.Settled := by
  obtain ⟨t, ht, hbooks⟩ := returns_start hs.1 (quiet_of_call h) hs.2
  have hreturns : Loop.Returns (pass body) (s.start c) (some s') :=
    ⟨fuel, Option.join_eq_some_iff.mp h⟩
  rwa [Option.some.inj (hreturns.unique ht)]

theorem exists_call {c : Call ν} (hs : s.stack = [] ∧ s.Settled) (hquiet : s.Quiet body c) :
    ∃ fuel s', s.call body fuel c = some s' := by
  obtain ⟨s', ⟨fuel, hfuel⟩, -⟩ := returns_start hs.1 hquiet hs.2
  exact ⟨fuel, s', Option.join_eq_some_iff.mpr hfuel⟩

theorem exists_run {calls : List (Call ν)} (hs : s.stack = [] ∧ s.Settled)
    (hquiet : ∀ fuel, Runs.Along (call body fuel) (Quiet body) s calls) :
    ∃ fuel t, Runs.run (call body fuel) s calls = some t := by
  induction calls generalizing s with
  | nil => exact ⟨0, s, rfl⟩
  | cons c calls ih =>
    obtain ⟨fuel, s', hcall⟩ := exists_call hs (hquiet 0).1
    have hrest (fuel' : Nat) : Runs.Along (call body fuel') (Quiet body) s' calls := by
      have hmore := (hquiet (max fuel fuel')).2 s' (call_mono (le_max_left _ _) s c s' hcall)
      exact hmore.mono (call_mono (le_max_right _ _))
    obtain ⟨fuel', t, ht⟩ := ih (call_spec hs hcall) hrest
    refine ⟨max fuel fuel', t, ?_⟩
    rw [Runs.run_cons (call_mono (le_max_left _ _) s c s' hcall)]
    exact Runs.run_mono (call_mono (le_max_right _ _)) ht

/-- The calls of a sequence that returns are quiet, with any fuel. -/
theorem along_quiet {calls : List (Call ν)} {fuel fuel' : Nat} {t : Reentrant ν}
    (h : Runs.run (call body fuel) s calls = some t) :
    Runs.Along (call body fuel') (Quiet body) s calls := by
  induction calls generalizing s with
  | nil => trivial
  | cons c calls ih =>
    obtain ⟨s', hcall, hrun⟩ := Runs.run_cons_eq_some.mp h
    refine ⟨quiet_of_call hcall, fun s'' hcall' => ?_⟩
    have hsame := (call_mono (le_max_left fuel fuel') s c s' hcall).symm.trans
      (call_mono (le_max_right fuel fuel') s c s'' hcall')
    exact ih (Option.some.inj hsame ▸ hrun)

end Calls

/-- Every call returns, and each deleter has been run once or is waiting after each of
them, exactly if no call runs a deleter that retires. -/
theorem deleters_run_once_iff (body : RetiredItem ν → List (RetireArgs ν))
    (calls : List (Call ν)) :
    (∃ fuel t, Runs.run (call body fuel) {} calls = some t ∧
        Runs.Throughout (call body fuel) Settled {} calls) ↔
      ∀ fuel, Runs.Along (call body fuel) (Quiet body) {} calls := by
  have hinit : Settled ({} : Reentrant ν) := List.Perm.refl _
  constructor
  · rintro ⟨fuel, t, hrun, -⟩ fuel'
    exact along_quiet hrun
  · intro hquiet
    obtain ⟨fuel, t, hrun⟩ := exists_run ⟨rfl, hinit⟩ hquiet
    have hstep (s : Reentrant ν) (c : Call ν) (s' : Reentrant ν) (hs : s.stack = [] ∧ s.Settled)
        (hcall : s.call body fuel c = some s') : s'.stack = [] ∧ s'.Settled := call_spec hs hcall
    refine ⟨fuel, t, hrun, ?_⟩
    refine (Runs.throughout_iff_along ?_ hstep ⟨rfl, hinit⟩ hinit hrun).mpr (hquiet fuel)
    intro s c s' hs _ hcall
    exact iff_of_true (hstep s c s' hs hcall).2 (quiet_of_call hcall)

/-- The deleter of the first node retires the second, as in a linked list. -/
def chain : RetiredItem Bool → List (RetireArgs Bool)
  | ⟨false, _⟩ => [⟨some true, some 1⟩]
  | ⟨true, _⟩ => []

/-- The state after a number of steps of a call that is not over. -/
def passes (body : RetiredItem ν → List (RetireArgs ν)) : Nat → Reentrant ν → Option (Reentrant ν)
  | 0, s => some s
  | n + 1, s =>
    match pass body s with
    | .inl s => passes body n s
    | .inr _ => none

/-- Retiring the first node of two does not return, and its deleter runs a second time. -/
theorem linked_node_runs_twice :
    (∀ fuel, call chain fuel {} (.retire ⟨some false, some 0⟩) = none) ∧
      (passes chain 3 (start {} (.retire ⟨some false, some 0⟩))).map (·.ran) =
        some [⟨false, 0⟩, ⟨false, 0⟩] := by
  refine ⟨fun fuel => Option.eq_none_iff_forall_ne_some.mpr fun s hs => ?_, by decide +kernel⟩
  have hquiet : ¬ Quiet chain {} (.retire ⟨some false, some 0⟩) := by decide +kernel
  exact hquiet (quiet_of_call hs)

end Reentrant

end HazardPointerDomain

end Ume
