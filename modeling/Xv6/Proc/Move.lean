import Xv6.Proc.Table

set_option autoImplicit false

/-!
# What a step does to the process table

A step is one of a few moves. A move says what becomes of the state, the parent, the pid, the killed
flag and the memory of every slot; the invariants of the table are proved from the moves alone.
-/

namespace Xv6.Ptable

-- How far a slot is in the life of a process.
inductive Phase where
  | free
  | embryo
  | alive
  | zombie
deriving DecidableEq

def ProcState.phase : ProcState → Phase
  | .unused => .free
  | .embryo => .embryo
  | .sleeping | .runnable | .running => .alive
  | .zombie => .zombie

/-- The fields that a change of state leaves alone. -/
structure Proc.Same (p q : Proc) : Prop where
  parent : q.parent = p.parent
  pid : q.pid = p.pid
  killed : q.killed = p.killed
  pgdir : q.pgdir = p.pgdir
  kstack : q.kstack = p.kstack

theorem Proc.Same.refl (p : Proc) : p.Same p := ⟨rfl, rfl, rfl, rfl, rfl⟩

/-- Some sleepers have become runnable. -/
structure Woken (t t' : Table) : Prop where
  initproc : t'.initproc = t.initproc
  nextpid : t'.nextpid = t.nextpid
  same : ∀ i, (t.proc i).Same (t'.proc i)
  state : ∀ i, (t'.proc i).state = (t.proc i).state ∨
    (t.proc i).state = .sleeping ∧ (t'.proc i).state = .runnable

theorem Woken.refl (t : Table) : Woken t t := ⟨rfl, rfl, fun _ => .refl _, fun _ => Or.inl rfl⟩

theorem Woken.phase {t t' : Table} (woken : Woken t t') (i : Slot) :
    (t'.proc i).state.phase = (t.proc i).state.phase := by
  rcases woken.state i with same | ⟨slept, woke⟩
  · rw [same]
  · rw [slept, woke]
    rfl

theorem wakeup1_woken (t : Table) (chan : Option Chan) : Woken t (wakeup1 t chan) := by
  refine ⟨rfl, rfl, fun i => ?_, fun i => ?_⟩
  · by_cases wakes : (t.proc i).state = .sleeping ∧ (t.proc i).chan = chan
    · constructor <;> simp [wakeup1, wakes]
    · constructor <;> simp [wakeup1, wakes]
  · by_cases wakes : (t.proc i).state = .sleeping ∧ (t.proc i).chan = chan
    · right
      simp [wakeup1, wakes]
    · left
      simp [wakeup1, wakes]

/-- One slot goes from one state to another. -/
structure Turn (t t' : Table) (p : Slot) (s s' : ProcState) : Prop where
  initproc : t'.initproc = t.initproc
  nextpid : t'.nextpid = t.nextpid
  before : (t.proc p).state = s
  after : (t'.proc p).state = s'
  same : (t.proc p).Same (t'.proc p)
  others : ∀ i, i ≠ p → t'.proc i = t.proc i

theorem Turn.phase {t t' : Table} {p : Slot} {s s' : ProcState} (turn : Turn t t' p s s')
    (equal : s'.phase = s.phase) (i : Slot) : (t'.proc i).state.phase = (t.proc i).state.phase := by
  by_cases own : i = p
  · subst own
    rw [turn.before, turn.after, equal]
  · rw [turn.others i own]

theorem Turn.all {t t' : Table} {p : Slot} {s s' : ProcState} (turn : Turn t t' p s s') (i : Slot) :
    (t.proc i).Same (t'.proc i) := by
  by_cases own : i = p
  · subst own
    exact turn.same
  · rw [turn.others i own]
    exact .refl _

theorem sched_turn (t : Table) (p : Slot) (s s' : ProcState) (before : (t.proc p).state = s) :
    Turn t (sched t p s') p s s' := by
  refine ⟨rfl, rfl, before, by simp [sched, Table.set], ?_, fun i other => ?_⟩
  · constructor <;> simp [sched, Table.set]
  · simp [sched, Table.set, other]

theorem sleep_turn (t : Table) (p : Slot) (chan : Chan) (s : ProcState) (before : (t.proc p).state = s) :
    Turn t (sleep t p chan) p s .sleeping := by
  refine ⟨rfl, rfl, before, by simp [sleep, sched, Table.set], ?_, fun i other => ?_⟩
  · constructor <;> simp [sleep, sched, Table.set]
  · simp [sleep, sched, Table.set, other]

theorem dispatch_turn (t : Table) (p : Slot) (before : (t.proc p).state = .runnable) :
    Turn t (dispatch t p) p .runnable .running := by
  refine ⟨rfl, rfl, before, by simp [dispatch, Table.set], ?_, fun i other => ?_⟩
  · constructor <;> simp [dispatch, Table.set]
  · simp [dispatch, Table.set, other]

/-- The children of `p` are given to init, and `p` is a zombie. -/
structure Exited (t t' : Table) (p : Slot) : Prop where
  initproc : t'.initproc = t.initproc
  nextpid : t'.nextpid = t.nextpid
  notInit : p ≠ t.initproc
  zombie : (t'.proc p).state = .zombie
  state : ∀ i, i ≠ p → (t'.proc i).state = (t.proc i).state ∨
    (t.proc i).state = .sleeping ∧ (t'.proc i).state = .runnable
  parent : ∀ i, (t'.proc i).parent =
    if (t.proc i).parent = some p then some t.initproc else (t.proc i).parent
  pid : ∀ i, (t'.proc i).pid = (t.proc i).pid
  killed : ∀ i, (t'.proc i).killed = (t.proc i).killed
  pgdir : ∀ i, (t'.proc i).pgdir = (t.proc i).pgdir
  kstack : ∀ i, (t'.proc i).kstack = (t.proc i).kstack

-- The children adopted, before init is woken.
def adopt (t : Table) (p : Slot) : Table :=
  { t with proc := fun i =>
      if (t.proc i).parent = some p then { t.proc i with parent := some t.initproc } else t.proc i }

theorem reparent_woken (t : Table) (p : Slot) : Woken (adopt t p) (reparent t p) := by
  unfold reparent
  split
  · exact wakeup1_woken (adopt t p) _
  · exact Woken.refl (adopt t p)

theorem Woken.trans_state {t u : Table} (one : Woken t u) {i : Slot} {s : ProcState}
    (two : s = (u.proc i).state ∨ (u.proc i).state = .sleeping ∧ s = .runnable) :
    s = (t.proc i).state ∨ (t.proc i).state = .sleeping ∧ s = .runnable := by
  rcases one.state i with same | ⟨slept, woke⟩
  · rwa [same] at two
  · rcases two with same | ⟨asleep, _⟩
    · exact Or.inr ⟨slept, same.trans woke⟩
    · rw [woke] at asleep
      cases asleep

theorem exit_exited (t t' : Table) (p : Slot) (ends : exit t p = .ok t') : Exited t t' p := by
  unfold exit at ends
  split at ends
  · cases ends
  next other =>
    cases ends
    set u := wakeup1 t ((t.proc p).parent.map .proc) with hu
    have first : Woken t u := wakeup1_woken t _
    have second := reparent_woken u p
    have adopted : ∀ i, ((adopt u p).proc i).state = (u.proc i).state := by
      intro i
      by_cases child : (u.proc i).parent = some p <;> simp [adopt, child]
    have adoptedRest : ∀ i, ((adopt u p).proc i).pid = (u.proc i).pid ∧
        ((adopt u p).proc i).killed = (u.proc i).killed ∧ ((adopt u p).proc i).pgdir = (u.proc i).pgdir ∧
        ((adopt u p).proc i).kstack = (u.proc i).kstack := by
      intro i
      by_cases child : (u.proc i).parent = some p <;> simp [adopt, child]
    have turn := sched_turn (reparent u p) p _ .zombie rfl
    have rest : ∀ i, ((reparent u p).proc i).Same ((sched (reparent u p) p .zombie).proc i) := by
      intro i
      by_cases own : i = p
      · subst own
        exact turn.same
      · rw [turn.others i own]
        exact .refl _
    refine ⟨?_, ?_, other, turn.after, ?_, ?_, ?_, ?_, ?_, ?_⟩
    · exact turn.initproc.trans (second.initproc.trans first.initproc)
    · exact turn.nextpid.trans (second.nextpid.trans first.nextpid)
    · intro i away
      rw [turn.others i away]
      have moved := second.state i
      rw [adopted] at moved
      exact first.trans_state moved
    · intro i
      rw [(rest i).parent, (second.same i).parent, ← (first.same i).parent]
      by_cases child : (u.proc i).parent = some p <;> simp [adopt, child, first.initproc]
    · intro i
      rw [(rest i).pid, (second.same i).pid, (adoptedRest i).1, (first.same i).pid]
    · intro i
      rw [(rest i).killed, (second.same i).killed, (adoptedRest i).2.1, (first.same i).killed]
    · intro i
      rw [(rest i).pgdir, (second.same i).pgdir, (adoptedRest i).2.2.1, (first.same i).pgdir]
    · intro i
      rw [(rest i).kstack, (second.same i).kstack, (adoptedRest i).2.2.2, (first.same i).kstack]

theorem first_some {t : Table} {found : Proc → Bool} {i : Slot} (hit : t.first found = some i) :
    found (t.proc i) = true := by
  simpa using List.find?_some hit

theorem first_none {t : Table} {found : Proc → Bool} (miss : t.first found = none) (i : Slot) :
    found (t.proc i) = false := by
  simpa using List.find?_eq_none.mp miss i (List.mem_finRange i)

def reaped (p : Proc) : Proc :=
  { p with
    kstack := false
    pgdir := false
    state := .unused
    pid := 0
    parent := none
    name := p.name.clear
    killed := false }

def flagged (p : Proc) : Proc :=
  { p with
    killed := true
    state := if p.state = .sleeping then .runnable else p.state }

theorem flagged_phase (p : Proc) : (flagged p).state.phase = p.state.phase := by
  by_cases asleep : p.state = .sleeping
  · simp [flagged, asleep]
    rfl
  · simp [flagged, asleep]

theorem kill_found {t : Table} {pid : UInt32} {i : Slot} (found : t.first (fun p => p.pid = pid) = some i) :
    kill t pid = some (t.set i (flagged (t.proc i))) := by
  simp only [kill, found, Option.map_some]
  rfl

-- The zombie that a `wait` of `p` finds.
def zombieChild (t : Table) (p : Slot) : Option Slot :=
  t.first fun q => q.parent = some p ∧ q.state = .zombie

theorem wait_reaped {t : Table} {p i : Slot} (found : zombieChild t p = some i) :
    wait t p = (.reaped (t.proc i).pid, t.set i (reaped (t.proc i))) := by
  unfold zombieChild at found
  simp only [wait, found]
  rfl

theorem wait_none {t : Table} {p : Slot} (found : zombieChild t p = none) :
    wait t p = if (t.first (fun q => q.parent = some p)).isNone ∨ (t.proc p).killed then (.childless, t)
      else (.sleeps, sleep t p (.proc p)) := by
  unfold zombieChild at found
  simp only [wait, found]

-- Slots of a `fork` in progress that the process owns alone.
def ForkPc.holds : ForkPc → Option Slot
  | .out => none
  | .alloc np | .times np _ | .stack np | .copied np => some np

-- The slot has no parent yet.
def ForkPc.bare : ForkPc → Option Slot
  | .alloc np | .times np _ | .stack np => some np
  | .out | .copied _ => none

theorem ForkPc.bare_holds {pc : ForkPc} {np : Slot} (at_ : pc.bare = some np) : pc.holds = some np := by
  cases pc <;> first | exact at_ | cases at_

theorem Counter.after_holds (np : Slot) (c : Counter) : (c.after np).holds = some np := by
  cases c <;> rfl

-- The process that an event allocates, ends or reaps.
def Event.born (t : Table) : Event → Option Slot
  | .forkAlloc _ => t.first fun q => q.state = .unused
  | _ => none

def Event.exited : Event → Option Slot
  | .exit p => some p
  | _ => none

def Event.reaped (t : Table) : Event → Option Slot
  | .wait p => zombieChild t p
  | _ => none

structure Event.Quiet (t : Table) (e : Event) : Prop where
  born : e.born t = none
  exited : e.exited = none
  reaped : e.reaped t = none

/-- The moves of the table. -/
inductive Move (k : Kernel) : Event → Kernel → Prop where
  | wakes (e : Event) (k' : Kernel) (quiet : e.Quiet k.table) (fork : k'.fork = k.fork)
      (woken : Woken k.table k'.table) : Move k e k'
  | dispatch (p : Slot) (k' : Kernel) (fork : k'.fork = k.fork)
      (turn : Turn k.table k'.table p .runnable .running) : Move k (.dispatch p) k'
  | leaves (e : Event) (p : Slot) (s : ProcState) (k' : Kernel) (quiet : e.Quiet k.table) (fork : k'.fork = k.fork)
      (stays : s = .runnable ∨ s = .sleeping) (turn : Turn k.table k'.table p .running s) : Move k e k'
  | alloc (p np : Slot) (running : (k.table.proc p).state = .running) (out : k.fork p = .out)
      (scan : k.table.first (fun q => q.state = .unused) = some np) :
      Move k (.forkAlloc p)
        ⟨{ k.table.set np { k.table.proc np with state := .embryo, pid := k.table.nextpid } with
            nextpid := k.table.nextpid + 1 }, Function.update k.fork p (.alloc np)⟩
  | stack (p np : Slot) (running : (k.table.proc p).state = .running) (at_ : k.fork p = .alloc np) :
      Move k (.forkStack p true)
        ⟨allocStack k.table np true, Function.update k.fork p (.times np .start)⟩
  | noStack (p np : Slot) (running : (k.table.proc p).state = .running) (at_ : k.fork p = .alloc np) :
      Move k (.forkStack p false) ⟨allocStack k.table np false, Function.update k.fork p .out⟩
  | time (p np : Slot) (c : Counter) (running : (k.table.proc p).state = .running) (at_ : k.fork p = .times np c) :
      Move k (.forkTime p) ⟨allocTime k.table np c, Function.update k.fork p (c.after np)⟩
  | copy (p np : Slot) (running : (k.table.proc p).state = .running) (at_ : k.fork p = .stack np) :
      Move k (.forkCopy p true)
        ⟨Ptable.forkCopy k.table p np true, Function.update k.fork p (.copied np)⟩
  | noCopy (p np : Slot) (running : (k.table.proc p).state = .running) (at_ : k.fork p = .stack np) :
      Move k (.forkCopy p false) ⟨Ptable.forkCopy k.table p np false, Function.update k.fork p .out⟩
  | run (p np : Slot) (running : (k.table.proc p).state = .running) (at_ : k.fork p = .copied np) :
      Move k (.forkRun p) ⟨Ptable.forkRun k.table np, Function.update k.fork p .out⟩
  | exits (p : Slot) (k' : Kernel) (running : (k.table.proc p).state = .running) (out : k.fork p = .out)
      (fork : k'.fork = k.fork) (exited : Exited k.table k'.table p) : Move k (.exit p) k'
  | reaps (p i : Slot) (running : (k.table.proc p).state = .running) (out : k.fork p = .out)
      (found : zombieChild k.table p = some i) :
      Move k (.wait p) { k with table := k.table.set i (reaped (k.table.proc i)) }
  | kills (p i : Slot) (pid : UInt32) (running : (k.table.proc p).state = .running)
      (found : k.table.first (fun q => q.pid = pid) = some i) :
      Move k (.kill p pid) { k with table := k.table.set i (flagged (k.table.proc i)) }

theorem free_iff (k : Kernel) (p : Slot) :
    k.free p = true ↔ (k.table.proc p).state = .running ∧ k.fork p = .out := by
  simp [Kernel.free, Kernel.running]

theorem running_iff (k : Kernel) (p : Slot) : k.running p = true ↔ (k.table.proc p).state = .running := by
  simp [Kernel.running]

theorem step_move (k k' : Kernel) (e : Event) (moved : step k e = some k') : Move k e k' := by
  cases e with
  | dispatch p =>
    simp only [step, Option.ite_none_right_eq_some, Option.some.injEq] at moved
    obtain ⟨runnable, rfl⟩ := moved
    exact .dispatch p _ rfl (dispatch_turn _ p runnable)
  | yield p =>
    simp only [step, Option.ite_none_right_eq_some, Option.some.injEq, running_iff] at moved
    obtain ⟨running, rfl⟩ := moved
    exact .leaves _ p .runnable _ ⟨rfl, rfl, rfl⟩ rfl (Or.inl rfl) (sched_turn _ p _ _ running)
  | sleep p address =>
    simp only [step, Option.ite_none_right_eq_some, Option.some.injEq, free_iff] at moved
    obtain ⟨⟨running, _⟩, rfl⟩ := moved
    exact .leaves _ p .sleeping _ ⟨rfl, rfl, rfl⟩ rfl (Or.inr rfl) (sleep_turn _ p _ _ running)
  | wakeup chan =>
    simp only [step, Option.some.injEq] at moved
    subst moved
    exact .wakes _ _ ⟨rfl, rfl, rfl⟩ rfl (wakeup1_woken _ _)
  | tick =>
    simp only [step, Option.some.injEq] at moved
    subst moved
    exact .wakes _ _ ⟨rfl, rfl, rfl⟩ rfl ⟨rfl, rfl, fun _ => .refl _, fun _ => Or.inl rfl⟩
  | forkAlloc p =>
    simp only [step, Option.ite_none_right_eq_some, free_iff] at moved
    obtain ⟨⟨running, out⟩, moved⟩ := moved
    cases scan : k.table.first (fun q => q.state = .unused) with
    | none =>
      simp only [allocproc, scan, Option.map_none, Option.some.injEq] at moved
      subst moved
      exact .wakes _ _ ⟨scan, rfl, rfl⟩ rfl (Woken.refl _)
    | some np =>
      simp only [allocproc, scan, Option.map_some, Option.some.injEq] at moved
      subst moved
      exact .alloc p np running out scan
  | forkStack p kalloc =>
    cases at_ : k.fork p with
    | alloc np =>
      simp only [step, at_, Option.ite_none_right_eq_some, Option.some.injEq, running_iff] at moved
      obtain ⟨running, rfl⟩ := moved
      cases kalloc
      · exact .noStack p np running at_
      · exact .stack p np running at_
    | _ => simp [step, at_] at moved
  | forkTime p =>
    cases at_ : k.fork p with
    | times np c =>
      simp only [step, at_, Option.ite_none_right_eq_some, Option.some.injEq, running_iff] at moved
      obtain ⟨running, rfl⟩ := moved
      exact .time p np c running at_
    | _ => simp [step, at_] at moved
  | forkCopy p copyuvm =>
    cases at_ : k.fork p with
    | stack np =>
      simp only [step, at_, Option.ite_none_right_eq_some, Option.some.injEq, running_iff] at moved
      obtain ⟨running, rfl⟩ := moved
      cases copyuvm
      · exact .noCopy p np running at_
      · exact .copy p np running at_
    | _ => simp [step, at_] at moved
  | forkRun p =>
    cases at_ : k.fork p with
    | copied np =>
      simp only [step, at_, Option.ite_none_right_eq_some, Option.some.injEq, running_iff] at moved
      obtain ⟨running, rfl⟩ := moved
      exact .run p np running at_
    | _ => simp [step, at_] at moved
  | exit p =>
    simp only [step, Option.ite_none_right_eq_some, free_iff] at moved
    obtain ⟨⟨running, out⟩, moved⟩ := moved
    cases ends : Ptable.exit k.table p with
    | error _ => simp [ends] at moved
    | ok t =>
      simp only [ends, Option.some.injEq] at moved
      subst moved
      exact .exits p _ running out rfl (exit_exited _ _ p ends)
  | wait p =>
    simp only [step, Option.ite_none_right_eq_some, Option.some.injEq, free_iff] at moved
    obtain ⟨⟨running, out⟩, rfl⟩ := moved
    cases found : zombieChild k.table p with
    | some i =>
      rw [wait_reaped found]
      exact .reaps p i running out found
    | none =>
      have quiet : Event.Quiet k.table (.wait p) := ⟨rfl, rfl, found⟩
      rw [wait_none found]
      split
      · exact .wakes _ _ quiet rfl (Woken.refl _)
      · exact .leaves _ p .sleeping _ quiet rfl (Or.inr rfl) (sleep_turn _ p _ _ running)
  | kill p pid =>
    simp only [step, Option.ite_none_right_eq_some, Option.some.injEq, free_iff] at moved
    obtain ⟨⟨running, out⟩, rfl⟩ := moved
    cases found : k.table.first (fun q => q.pid = pid) with
    | none =>
      simp only [kill, found, Option.map_none, Option.getD_none]
      exact .wakes _ _ ⟨rfl, rfl, rfl⟩ rfl (Woken.refl _)
    | some i =>
      rw [kill_found found, Option.getD_some]
      exact .kills p i pid running found

end Xv6.Ptable
