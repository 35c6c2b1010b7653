import Xv6.Proc.Move

set_option autoImplicit false

/-!
# The process tree

Every process has a living parent, in every state that the system calls reach, and descends from init.
What `wait` tells a caller without children follows from the parent pointers.
-/

namespace Xv6.Ptable

/-- The table without what the scheduler changes. -/
@[ext] structure Tree where
  phase : Slot → Phase
  parent : Slot → Option Slot
  pid : Slot → UInt32
  killed : Slot → Bool
  pgdir : Slot → Bool
  kstack : Slot → Bool
  init : Slot
  nextpid : UInt32
  fork : Slot → ForkPc

def Kernel.tree (k : Kernel) : Tree where
  phase := fun i => (k.table.proc i).state.phase
  parent := fun i => (k.table.proc i).parent
  pid := fun i => (k.table.proc i).pid
  killed := fun i => (k.table.proc i).killed
  pgdir := fun i => (k.table.proc i).pgdir
  kstack := fun i => (k.table.proc i).kstack
  init := k.table.initproc
  nextpid := k.table.nextpid
  fork := k.fork

namespace Tree

def alloc (f : Tree) (p np : Slot) : Tree :=
  { f with
    phase := Function.update f.phase np .embryo
    pid := Function.update f.pid np f.nextpid
    nextpid := f.nextpid + 1
    fork := Function.update f.fork p (.alloc np) }

def stack (f : Tree) (p np : Slot) : Tree :=
  { f with kstack := Function.update f.kstack np true, fork := Function.update f.fork p (.times np .start) }

def time (f : Tree) (p np : Slot) (c : Counter) : Tree := { f with fork := Function.update f.fork p (c.after np) }

-- A `fork` that fails gives its slot back; pid and flag stay.
def drop (f : Tree) (p np : Slot) (pgdir : Bool) : Tree :=
  { f with
    phase := Function.update f.phase np .free
    pgdir := Function.update f.pgdir np pgdir
    kstack := Function.update f.kstack np false
    fork := Function.update f.fork p .out }

def copy (f : Tree) (p np : Slot) : Tree :=
  { f with
    pgdir := Function.update f.pgdir np true
    parent := Function.update f.parent np (some p)
    fork := Function.update f.fork p (.copied np) }

def run (f : Tree) (p np : Slot) : Tree :=
  { f with phase := Function.update f.phase np .alive, fork := Function.update f.fork p .out }

def exit (f : Tree) (p : Slot) : Tree :=
  { f with
    phase := Function.update f.phase p .zombie
    parent := fun i => if f.parent i = some p then some f.init else f.parent i }

def reap (f : Tree) (i : Slot) : Tree :=
  { f with
    phase := Function.update f.phase i .free
    parent := Function.update f.parent i none
    pid := Function.update f.pid i 0
    killed := Function.update f.killed i false
    pgdir := Function.update f.pgdir i false
    kstack := Function.update f.kstack i false }

def kill (f : Tree) (i : Slot) : Tree := { f with killed := Function.update f.killed i true }

end Tree

section Moves

variable {k k' : Kernel}

theorem tree_eq (fork : k'.fork = k.fork) (initproc : k'.table.initproc = k.table.initproc)
    (nextpid : k'.table.nextpid = k.table.nextpid)
    (phase : ∀ i, (k'.table.proc i).state.phase = (k.table.proc i).state.phase)
    (same : ∀ i, (k.table.proc i).Same (k'.table.proc i)) : k'.tree = k.tree := by
  simp only [Kernel.tree, fork, initproc, nextpid, phase, fun i => (same i).parent, fun i => (same i).pid,
    fun i => (same i).killed, fun i => (same i).pgdir, fun i => (same i).kstack]

theorem wakes_tree (fork : k'.fork = k.fork) (woken : Woken k.table k'.table) : k'.tree = k.tree :=
  tree_eq fork woken.initproc woken.nextpid woken.phase woken.same

theorem turn_tree {p : Slot} {s s' : ProcState} (fork : k'.fork = k.fork) (turn : Turn k.table k'.table p s s')
    (phase : s'.phase = s.phase) : k'.tree = k.tree :=
  tree_eq fork turn.initproc turn.nextpid (turn.phase phase) turn.all

theorem tree_set (k : Kernel) (np : Slot) (x : Proc) (fork : Slot → ForkPc) :
    Kernel.tree ⟨k.table.set np x, fork⟩ =
      { k.tree with
        phase := Function.update k.tree.phase np x.state.phase
        parent := Function.update k.tree.parent np x.parent
        pid := Function.update k.tree.pid np x.pid
        killed := Function.update k.tree.killed np x.killed
        pgdir := Function.update k.tree.pgdir np x.pgdir
        kstack := Function.update k.tree.kstack np x.kstack
        fork := fork } := by
  have field {V : Type} (g : Proc → V) : (fun i => g ((k.table.set np x).proc i)) =
      Function.update (fun i => g (k.table.proc i)) np (g x) := by
    funext i
    by_cases same : i = np
    · subst same
      simp [Table.set]
    · simp [Table.set, same]
  simp only [Kernel.tree, field fun q => q.state.phase, field Proc.parent, field Proc.pid, field Proc.killed,
    field Proc.pgdir, field Proc.kstack]
  rfl

-- The fields that the new slot shares with the old one are not changed.
section Kept

variable (k : Kernel) (np : Slot)

theorem phase_kept : Function.update k.tree.phase np (k.table.proc np).state.phase = k.tree.phase :=
  Function.update_eq_self np k.tree.phase

theorem parent_kept : Function.update k.tree.parent np (k.table.proc np).parent = k.tree.parent :=
  Function.update_eq_self np k.tree.parent

theorem pid_kept : Function.update k.tree.pid np (k.table.proc np).pid = k.tree.pid :=
  Function.update_eq_self np k.tree.pid

theorem killed_kept : Function.update k.tree.killed np (k.table.proc np).killed = k.tree.killed :=
  Function.update_eq_self np k.tree.killed

theorem pgdir_kept : Function.update k.tree.pgdir np (k.table.proc np).pgdir = k.tree.pgdir :=
  Function.update_eq_self np k.tree.pgdir

theorem kstack_kept : Function.update k.tree.kstack np (k.table.proc np).kstack = k.tree.kstack :=
  Function.update_eq_self np k.tree.kstack

end Kept

theorem alloc_tree (k : Kernel) (p np : Slot) :
    Kernel.tree
      ⟨{ k.table.set np { k.table.proc np with state := .embryo, pid := k.table.nextpid } with
          nextpid := k.table.nextpid + 1 }, Function.update k.fork p (.alloc np)⟩ = k.tree.alloc p np := by
  have replaced := tree_set k np { k.table.proc np with state := .embryo, pid := k.table.nextpid }
    (Function.update k.fork p (.alloc np))
  rw [parent_kept, killed_kept, pgdir_kept, kstack_kept] at replaced
  exact congrArg (fun f : Tree => { f with nextpid := k.table.nextpid + 1 }) replaced

theorem stack_tree (k : Kernel) (p np : Slot) :
    Kernel.tree ⟨allocStack k.table np true, Function.update k.fork p (.times np .start)⟩ = k.tree.stack p np := by
  simp only [allocStack, if_true, tree_set, phase_kept, parent_kept, pid_kept, killed_kept, pgdir_kept]
  rfl

theorem time_tree (k : Kernel) (p np : Slot) (c : Counter) :
    Kernel.tree ⟨allocTime k.table np c, Function.update k.fork p (c.after np)⟩ = k.tree.time p np c := by
  cases c <;>
    simp only [allocTime, tree_set, phase_kept, parent_kept, pid_kept, killed_kept, pgdir_kept, kstack_kept] <;> rfl

theorem noStack_tree (k : Kernel) (p np : Slot) :
    Kernel.tree ⟨allocStack k.table np false, Function.update k.fork p .out⟩ =
      k.tree.drop p np (k.tree.pgdir np) := by
  simp only [allocStack, Bool.false_eq_true, if_false, tree_set, parent_kept, pid_kept, killed_kept]
  rfl

theorem copy_tree (k : Kernel) (p np : Slot) :
    Kernel.tree ⟨forkCopy k.table p np true, Function.update k.fork p (.copied np)⟩ = k.tree.copy p np := by
  simp only [forkCopy, if_true, tree_set, phase_kept, pid_kept, killed_kept, kstack_kept]
  rfl

theorem noCopy_tree (k : Kernel) (p np : Slot) :
    Kernel.tree ⟨forkCopy k.table p np false, Function.update k.fork p .out⟩ = k.tree.drop p np false := by
  simp only [forkCopy, Bool.false_eq_true, if_false, tree_set, parent_kept, pid_kept, killed_kept]
  rfl

theorem run_tree (k : Kernel) (p np : Slot) :
    Kernel.tree ⟨forkRun k.table np, Function.update k.fork p .out⟩ = k.tree.run p np := by
  simp only [forkRun, tree_set, parent_kept, pid_kept, killed_kept, pgdir_kept, kstack_kept]
  rfl

theorem reap_tree (k : Kernel) (i : Slot) :
    Kernel.tree { k with table := k.table.set i (reaped (k.table.proc i)) } = k.tree.reap i := by
  rw [tree_set]
  rfl

theorem kill_tree (k : Kernel) (i : Slot) :
    Kernel.tree { k with table := k.table.set i (flagged (k.table.proc i)) } = k.tree.kill i := by
  have flag : flagged (k.table.proc i) =
      { k.table.proc i with killed := true, state := (flagged (k.table.proc i)).state } := rfl
  rw [flag, tree_set]
  simp only [flagged_phase, phase_kept, parent_kept, pid_kept, pgdir_kept, kstack_kept]
  rfl

theorem exits_tree (p : Slot) (fork : k'.fork = k.fork) (exited : Exited k.table k'.table p) :
    k'.tree = k.tree.exit p := by
  have phase : k'.tree.phase = Function.update k.tree.phase p .zombie := by
    funext i
    by_cases own : i = p
    · subst own
      simp only [Kernel.tree, exited.zombie, Function.update_self]
      rfl
    · simp only [Kernel.tree, Function.update_of_ne own]
      rcases exited.state i own with same | ⟨slept, woke⟩
      · rw [same]
      · rw [slept, woke]
        rfl
  have parent : k'.tree.parent = (k.tree.exit p).parent := by
    funext i
    have moved := exited.parent i
    by_cases child : (k.table.proc i).parent = some p <;> simp [Kernel.tree, Tree.exit, moved, child]
  have rest : k'.tree = { k.tree with phase := k'.tree.phase, parent := k'.tree.parent } := by
    simp only [Kernel.tree, fork, exited.initproc, exited.nextpid, exited.pid, exited.killed, exited.pgdir,
      exited.kstack]
  rw [rest, phase, parent]
  rfl

end Moves

namespace Tree

/-- The parent pointers, and the slots that a `fork` in progress holds. -/
structure Family (f : Tree) : Prop where
  initAlive : f.phase f.init = .alive
  initParent : f.parent f.init = some f.init
  living : ∀ i q, f.parent i = some q → f.phase q = .alive
  parent : ∀ i, f.phase i = .alive ∨ f.phase i = .zombie → f.parent i ≠ none
  free : ∀ i, f.phase i = .free → f.parent i = none
  own : ∀ i, f.parent i = some i → i = f.init
  caller : ∀ p np, (f.fork p).holds = some np → f.phase p = .alive ∧ f.phase np = .embryo
  distinct : ∀ p q np, (f.fork p).holds = some np → (f.fork q).holds = some np → p = q
  fresh : ∀ p np, (f.fork p).bare = some np → f.parent np = none
  copied : ∀ p np, f.fork p = .copied np → f.parent np = some p

variable {f : Tree} (family : f.Family) (p np : Slot)

include family

-- Each case below first says why the slot that changes is nobody's parent and nobody's `np`.
theorem Family.alloc (alive : f.phase p = .alive) (free : f.phase np = .free) : (f.alloc p np).Family := by
  have nobody : ∀ q m, (f.fork q).holds = some m → m ≠ np := by
    rintro q m held rfl
    rw [(family.caller q m held).2] at free
    cases free
  have orphan := family.free np free
  cases family
  constructor <;> simp only [Tree.alloc, Function.update_apply] <;> grind -linarith [ForkPc.holds, ForkPc.bare, → ForkPc.bare_holds]

theorem Family.stack (at_ : f.fork p = .alloc np) : (f.stack p np).Family := by
  have held : (f.fork p).holds = some np := by rw [at_]; rfl
  cases family
  constructor <;> simp only [Tree.stack, Function.update_apply] <;> grind -linarith [ForkPc.holds, ForkPc.bare, → ForkPc.bare_holds]

theorem Family.time (c : Counter) (at_ : f.fork p = .times np c) : (f.time p np c).Family := by
  have held : (f.fork p).holds = some np := by rw [at_]; rfl
  have bare : (f.fork p).bare = some np := by rw [at_]; rfl
  cases family
  cases c <;> constructor <;> simp only [Tree.time, Counter.after, Function.update_apply] <;>
    grind -linarith [ForkPc.holds, ForkPc.bare, → ForkPc.bare_holds]

theorem Family.drop (at_ : (f.fork p).bare = some np) (pgdir : Bool) : (f.drop p np pgdir).Family := by
  have held := ForkPc.bare_holds at_
  have embryo := (family.caller p np held).2
  have orphan := family.fresh p np at_
  cases family
  constructor <;> simp only [Tree.drop, Function.update_apply] <;> grind -linarith [ForkPc.holds, ForkPc.bare, → ForkPc.bare_holds]

theorem Family.copy (at_ : f.fork p = .stack np) : (f.copy p np).Family := by
  have held : (f.fork p).holds = some np := by rw [at_]; rfl
  obtain ⟨alive, embryo⟩ := family.caller p np held
  have apart : np ≠ p := by
    rintro rfl
    rw [alive] at embryo
    cases embryo
  cases family
  constructor <;> simp only [Tree.copy, Function.update_apply] <;> grind -linarith [ForkPc.holds, ForkPc.bare, → ForkPc.bare_holds]

theorem Family.run (at_ : f.fork p = .copied np) : (f.run p np).Family := by
  have held : (f.fork p).holds = some np := by rw [at_]; rfl
  have embryo := (family.caller p np held).2
  have child := family.copied p np at_
  cases family
  constructor <;> simp only [Tree.run, Function.update_apply] <;> grind -linarith [ForkPc.holds, ForkPc.bare, → ForkPc.bare_holds]

theorem Family.exit (other : p ≠ f.init) (alive : f.phase p = .alive) (out : f.fork p = .out) :
    (f.exit p).Family := by
  -- The children go to init, and `p` is not its own parent.
  have noOwn : f.parent p ≠ some p := fun own => other (family.own p own)
  have embryos : ∀ q np, (f.fork q).holds = some np → q ≠ p ∧ np ≠ p := by
    intro q np held
    refine ⟨?_, ?_⟩
    · rintro rfl
      rw [out] at held
      cases held
    · rintro rfl
      rw [(family.caller q np held).2] at alive
      cases alive
  cases family
  constructor <;> simp only [Tree.exit, Function.update_apply] <;> grind -linarith [ForkPc.holds, ForkPc.bare, → ForkPc.bare_holds]

theorem Family.reap (zombie : f.phase p = .zombie) : (f.reap p).Family := by
  have childless : ∀ i, f.parent i ≠ some p := by
    intro i child
    rw [family.living i p child] at zombie
    cases zombie
  cases family
  constructor <;> simp only [Tree.reap, Function.update_apply] <;> grind -linarith [ForkPc.holds, ForkPc.bare, → ForkPc.bare_holds]

theorem Family.kill : (f.kill p).Family := by
  obtain ⟨initAlive, initParent, living, parent, free, own, caller, distinct, fresh, copied⟩ := family
  exact ⟨initAlive, initParent, living, parent, free, own, caller, distinct, fresh, copied⟩

end Tree

section Steps

variable {k k' : Kernel} {e : Event}

theorem tree_running (k : Kernel) (p : Slot) (running : (k.table.proc p).state = .running) :
    k.tree.phase p = .alive := by
  simp only [Kernel.tree, running]
  rfl

theorem tree_zombie {p i : Slot} (found : zombieChild k.table p = some i) :
    k.tree.parent i = some p ∧ k.tree.phase i = .zombie := by
  have child : (k.table.proc i).parent = some p ∧ (k.table.proc i).state = .zombie := by
    simpa using first_some found
  simp only [Kernel.tree, child]
  exact ⟨trivial, rfl⟩

theorem Move.family (move : Move k e k') (family : k.tree.Family) : k'.tree.Family := by
  cases move with
  | wakes e k' quiet fork woken => exact wakes_tree fork woken ▸ family
  | dispatch p k' fork turn => exact turn_tree fork turn rfl ▸ family
  | leaves e p s k' quiet fork stays turn =>
    exact turn_tree fork turn (by rcases stays with rfl | rfl <;> rfl) ▸ family
  | alloc p np running out scan =>
    have unused : (k.table.proc np).state = .unused := by simpa using first_some scan
    rw [alloc_tree]
    exact family.alloc p np (tree_running k p running) (by simp only [Kernel.tree, unused]; rfl)
  | stack p np running at_ =>
    rw [stack_tree]
    exact family.stack p np at_
  | time p np c running at_ =>
    rw [time_tree]
    exact family.time p np c at_
  | noStack p np running at_ =>
    rw [noStack_tree]
    exact family.drop p np (congrArg ForkPc.bare at_) _
  | copy p np running at_ =>
    rw [copy_tree]
    exact family.copy p np at_
  | noCopy p np running at_ =>
    rw [noCopy_tree]
    exact family.drop p np (congrArg ForkPc.bare at_) _
  | run p np running at_ =>
    rw [run_tree]
    exact family.run p np at_
  | exits p k' running out fork exited =>
    rw [exits_tree p fork exited]
    exact family.exit p exited.notInit (tree_running k p running) out
  | reaps p i running out found =>
    rw [reap_tree]
    exact family.reap i (tree_zombie found).2
  | kills p i pid running found =>
    rw [kill_tree]
    exact family.kill i

theorem userinit_family : userinit.tree.Family := by
  have phase : ∀ i, userinit.tree.phase i = if i = 0 then .alive else .free := by
    intro i
    by_cases first : i = 0 <;> simp [Kernel.tree, userinit, zeroProc, first, ProcState.phase]
  have parent : ∀ i, userinit.tree.parent i = if i = 0 then some 0 else none := by
    intro i
    by_cases first : i = 0 <;> simp [Kernel.tree, userinit, zeroProc, first]
  have init : userinit.tree.init = 0 := rfl
  have fork : ∀ p, userinit.tree.fork p = .out := fun _ => rfl
  constructor <;> simp only [phase, parent, init, fork] <;> grind -linarith [ForkPc.holds, ForkPc.bare, → ForkPc.bare_holds]

theorem reachable_family (k : Kernel) (reached : Reachable k) : k.tree.Family := by
  obtain ⟨events, run⟩ := reached
  refine Run.exec_invariant step (fun k => k.tree.Family) ?_ userinit k events userinit_family run
  exact fun k e k' family moved => (step_move k k' e moved).family family

end Steps

section Wait

/-- A process other than `q` has `q` as its parent. -/
def HasChild (t : Table) (q : Slot) : Prop := ∃ i, i ≠ q ∧ (t.proc i).parent = some q

instance (t : Table) (q : Slot) : Decidable (HasChild t q) :=
  inferInstanceAs (Decidable (∃ i, i ≠ q ∧ (t.proc i).parent = some q))

theorem wait_childless_iff (t : Table) (q : Slot) (notKilled : (t.proc q).killed = false) :
    (wait t q).1 = .childless ↔ ∀ i, (t.proc i).parent ≠ some q := by
  unfold wait
  split
  next i found =>
    have child : (t.proc i).parent = some q ∧ (t.proc i).state = .zombie := by
      simpa using first_some found
    simp only [reduceCtorEq, false_iff, not_forall, not_not]
    exact ⟨i, child.1⟩
  next =>
    rw [notKilled]
    cases scan : t.first (fun p => p.parent = some q) with
    | none =>
      have nobody := first_none scan
      simpa using nobody
    | some i =>
      have child : (t.proc i).parent = some q := by simpa using first_some scan
      simp only [Option.isNone_some, Bool.false_eq_true, or_self, if_false, reduceCtorEq, false_iff, not_forall,
        not_not]
      exact ⟨i, child⟩

/-- `wait` tells a process that it has no children exactly when that is so, except that init, its own
parent, is never told. -/
theorem wait_reports_childless_iff (k : Kernel) (reached : Reachable k) (q : Slot) (calls : k.free q = true)
    (notKilled : (k.table.proc q).killed = false) :
    ((wait k.table q).1 = .childless ↔ ¬ HasChild k.table q) ↔
      (q ≠ k.table.initproc ∨ HasChild k.table q) := by
  have family := reachable_family k reached
  rw [wait_childless_iff k.table q notKilled]
  by_cases children : HasChild k.table q
  · obtain ⟨i, other, child⟩ := children
    have some_ : HasChild k.table q := ⟨i, other, child⟩
    simp only [some_, not_true_eq_false, iff_false, or_true, iff_true, not_forall, not_not]
    exact ⟨i, child⟩
  · simp only [children, not_false_eq_true, iff_true, or_false]
    constructor
    · rintro nobody rfl
      exact nobody _ family.initParent
    · intro other i child
      by_cases own : i = q
      · subst own
        exact other (family.own i child)
      · exact children ⟨i, own, child⟩

-- init runs, before it has forked.
def initRuns : Kernel := { userinit with table := dispatch userinit.table 0 }

theorem initRuns_reachable : Reachable initRuns := ⟨[.dispatch 0], rfl⟩

theorem wait_reports_childless_init :
    initRuns.free 0 = true ∧ (initRuns.table.proc 0).killed = false ∧
      (((wait initRuns.table 0).1 = .childless ↔ ¬ HasChild initRuns.table 0) ↔
        ((0 : Slot) ≠ initRuns.table.initproc ∨ HasChild initRuns.table 0)) :=
  ⟨rfl, rfl, wait_reports_childless_iff initRuns initRuns_reachable 0 rfl rfl⟩

theorem wait_hides_childless :
    ¬ ∀ k, Reachable k → ∀ q, k.free q = true → (k.table.proc q).killed = false →
      ((wait k.table q).1 = .childless ↔ ¬ HasChild k.table q) := by
  intro reports
  have told := (reports initRuns initRuns_reachable 0 rfl rfl).mpr (by decide)
  revert told
  decide

end Wait

section Descent

namespace Tree

-- Parents come before their children in some order, so that their pointers run in no circle but init's own.
def Rooted (f : Tree) : Prop := ∃ rank : Slot → Nat, ∀ i q, f.parent i = some q → i = f.init ∨ rank q < rank i

theorem Rooted.turned {f g : Tree} (rooted : f.Rooted) (init : g.init = f.init)
    (parent : ∀ i q, g.parent i = some q → f.parent i = some q ∨ q = f.init) : g.Rooted := by
  obtain ⟨rank, below⟩ := rooted
  refine ⟨fun i => if i = f.init then 0 else rank i + 1, fun i q pointer => ?_⟩
  have old := parent i q pointer
  grind

-- The child of a `fork` is an embryo, and nobody's parent yet.
theorem Rooted.copy {f : Tree} (rooted : f.Rooted) (family : f.Family) (p np : Slot) (at_ : f.fork p = .stack np) :
    (f.copy p np).Rooted := by
  obtain ⟨alive, embryo⟩ := family.caller p np (by rw [at_]; rfl)
  have living := family.living
  obtain ⟨rank, below⟩ := rooted
  refine ⟨Function.update rank np (rank p + 1), ?_⟩
  simp only [Tree.copy, Function.update_apply]
  grind

end Tree

theorem Move.rooted {k k' : Kernel} {e : Event} (move : Move k e k') (family : k.tree.Family)
    (rooted : k.tree.Rooted) : k'.tree.Rooted := by
  cases move with
  | wakes _ _ _ fork woken => exact wakes_tree fork woken ▸ rooted
  | dispatch _ _ fork turn => exact turn_tree fork turn rfl ▸ rooted
  | leaves _ _ _ _ _ fork stays turn => exact turn_tree fork turn (by rcases stays with rfl | rfl <;> rfl) ▸ rooted
  | alloc p np => exact alloc_tree k p np ▸ rooted
  | stack p np => exact stack_tree k p np ▸ rooted
  | time p np c => exact time_tree k p np c ▸ rooted
  | noStack p np => exact noStack_tree k p np ▸ rooted
  | copy p np _ at_ => exact copy_tree k p np ▸ rooted.copy family p np at_
  | noCopy p np => exact noCopy_tree k p np ▸ rooted
  | run p np => exact run_tree k p np ▸ rooted
  | exits p _ _ _ fork exited => exact exits_tree p fork exited ▸ rooted.turned rfl (by grind [Tree.exit])
  | reaps _ i =>
    refine reap_tree k i ▸ rooted.turned rfl fun j q pointer => ?_
    simp only [Tree.reap, Function.update_apply] at pointer
    grind
  | kills _ i => exact kill_tree k i ▸ rooted

/-- In every reachable state the parent pointers lead from every process, living or `ZOMBIE`, to init. -/
theorem descends_from_init (k : Kernel) (reached : Reachable k) (p : Slot)
    (used : (k.table.proc p).state.phase = .alive ∨ (k.table.proc p).state.phase = .zombie) :
    Relation.ReflTransGen (fun i q => (k.table.proc i).parent = some q) p k.table.initproc := by
  obtain ⟨events, run⟩ := reached
  obtain ⟨family, rank, below⟩ : k.tree.Family ∧ k.tree.Rooted := by
    refine Run.exec_invariant step (fun k => k.tree.Family ∧ k.tree.Rooted) ?_ userinit k events
      ⟨userinit_family, 0, fun i q pointer => .inl ?_⟩ run
    · rintro k e k' ⟨family, rooted⟩ moved
      have move := step_move k k' e moved
      exact ⟨move.family family, move.rooted family rooted⟩
    · by_contra other
      have later : i ≠ 0 := other
      simp [Kernel.tree, userinit, zeroProc, later] at pointer
  -- Up the pointers, since the rank falls.
  induction p using (measure rank).wf.induction with
  | _ p up =>
    obtain ⟨q, pointer⟩ := Option.ne_none_iff_exists'.mp (family.parent p used)
    rcases below p q pointer with rfl | less
    · exact .refl
    · exact .head pointer (up q less (.inl (family.living p q pointer)))

def forksTwice : List Event := [0, 1].flatMap fun p => .dispatch p :: forkSteps p ++ [.forkRun p]

theorem descends_from_init_grandchild : ∃ k, Run.exec step userinit forksTwice = some k ∧
    Relation.ReflTransGen (fun i q => (k.table.proc i).parent = some q) 2 k.table.initproc := by
  have evaluated : (Run.exec step userinit forksTwice).any
      (fun k => (k.table.proc 2).state.phase = .alive) = true := by decide +kernel
  obtain ⟨k, run, alive⟩ := (Option.any_eq_true _ _).mp evaluated
  exact ⟨k, run, descends_from_init k ⟨forksTwice, run⟩ 2 (.inl (by simpa using alive))⟩

end Descent

end Xv6.Ptable
