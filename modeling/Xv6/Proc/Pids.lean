import Xv6.Proc.Family
import Xv6.Sys.Args

set_option autoImplicit false

/-!
# Process numbers

`allocproc` takes pids from a counter of 32 bits that nobody compares with the table. It moves on with
every slot that is taken, also when the `fork` fails afterwards, and comes back to the pids of processes
that are still there.
-/

namespace Xv6.Ptable

def DistinctPids (t : Table) : Prop :=
  ∀ i j, (t.proc i).state ≠ .unused → (t.proc j).state ≠ .unused → (t.proc i).pid = (t.proc j).pid → i = j

-- The value that `fork` returns when process `p` comes to its end.
def Kernel.forkReturns (k : Kernel) (p : Slot) : Option Int :=
  match k.fork p with
  | .copied np => some (Sys.int (k.table.proc np).pid)
  | _ => none

-- The condition on a step: a slot is taken only while the counter is not negative as an `int`.
def Unwrapped (k : Kernel) : Event → Prop
  | .forkAlloc _ => (∃ i, (k.table.proc i).state = .unused) → k.table.nextpid.toNat < 2 ^ 31
  | _ => True

instance (k : Kernel) (e : Event) : Decidable (Unwrapped k e) :=
  match e with
  | .forkAlloc _ => inferInstanceAs (Decidable ((∃ i, (k.table.proc i).state = .unused) → _ < _))
  | .dispatch _ | .yield _ | .sleep _ _ | .wakeup _ | .tick | .forkStack _ _ | .forkTime _ | .forkCopy _ _
  | .forkRun _ | .exit _ | .wait _ | .kill _ _ => isTrue trivial

/-- The counter has not come round: it is above all pids in use. -/
structure Numbered (f : Tree) : Prop where
  next : 0 < f.nextpid.toNat ∧ f.nextpid.toNat ≤ 2 ^ 31
  below : ∀ i, f.phase i ≠ .free → 0 < (f.pid i).toNat ∧ (f.pid i).toNat < f.nextpid.toNat
  distinct : ∀ i j, f.phase i ≠ .free → f.phase j ≠ .free → f.pid i = f.pid j → i = j

section Tree

variable {f : Tree} (numbered : Numbered f) (p np : Slot)

include numbered

-- The pid that is given out is above those in use, so it is none of them.
theorem Numbered.alloc (unwrapped : f.nextpid.toNat < 2 ^ 31) : Numbered (f.alloc p np) := by
  obtain ⟨next, below, distinct⟩ := numbered
  have fresh : ∀ i, f.phase i ≠ .free → f.pid i ≠ f.nextpid := fun i used same =>
    (below i used).2.ne (congrArg UInt32.toNat same)
  have up : (f.nextpid + 1).toNat = f.nextpid.toNat + 1 := by
    rw [UInt32.toNat_add]
    exact Nat.mod_eq_of_lt (show f.nextpid.toNat + 1 < 2 ^ 32 by omega)
  constructor <;> simp only [Tree.alloc, up, Function.update_apply] <;> grind

theorem Numbered.shrinks {f' : Tree} (nextpid : f'.nextpid = f.nextpid)
    (used : ∀ i, f'.phase i ≠ .free → f.phase i ≠ .free ∧ f'.pid i = f.pid i) : Numbered f' := by
  obtain ⟨next, below, distinct⟩ := numbered
  constructor <;> grind

theorem Numbered.drop (pgdir : Bool) : Numbered (f.drop p np pgdir) := by
  refine numbered.shrinks rfl fun i => ?_
  simp only [Tree.drop, Function.update_apply]
  grind

theorem Numbered.run (embryo : f.phase np = .embryo) : Numbered (f.run p np) := by
  refine numbered.shrinks rfl fun i => ?_
  simp only [Tree.run, Function.update_apply]
  grind

theorem Numbered.exit (alive : f.phase p = .alive) : Numbered (f.exit p) := by
  refine numbered.shrinks rfl fun i => ?_
  simp only [Tree.exit, Function.update_apply]
  grind

theorem Numbered.reap : Numbered (f.reap p) := by
  refine numbered.shrinks rfl fun i => ?_
  simp only [Tree.reap, Function.update_apply]
  grind

end Tree

section Steps

variable {k k' : Kernel} {e : Event}

theorem phase_free_iff (k : Kernel) (i : Slot) : k.tree.phase i = .free ↔ (k.table.proc i).state = .unused := by
  simp only [Kernel.tree]
  cases (k.table.proc i).state <;> simp [ProcState.phase]

theorem Move.numbered (move : Move k e k') (family : k.tree.Family) (unwrapped : Unwrapped k e)
    (numbered : Numbered k.tree) : Numbered k'.tree := by
  cases move with
  | wakes e k' quiet fork woken => exact wakes_tree fork woken ▸ numbered
  | dispatch p k' fork turn => exact turn_tree fork turn rfl ▸ numbered
  | leaves e p s k' quiet fork stays turn =>
    exact turn_tree fork turn (by rcases stays with rfl | rfl <;> rfl) ▸ numbered
  | alloc p np running out scan =>
    rw [alloc_tree]
    exact numbered.alloc p np (unwrapped ⟨np, by simpa using first_some scan⟩)
  | stack p np running at_ =>
    rw [stack_tree]
    exact numbered.shrinks rfl fun i used => ⟨used, rfl⟩
  | time p np c running at_ =>
    rw [time_tree]
    exact numbered.shrinks rfl fun i used => ⟨used, rfl⟩
  | copy p np running at_ =>
    rw [copy_tree]
    exact numbered.shrinks rfl fun i used => ⟨used, rfl⟩
  | noStack p np running at_ =>
    rw [noStack_tree]
    exact numbered.drop p np _
  | noCopy p np running at_ =>
    rw [noCopy_tree]
    exact numbered.drop p np _
  | run p np running at_ =>
    have embryo := (family.caller p np (congrArg ForkPc.holds at_)).2
    rw [run_tree]
    exact numbered.run p np embryo
  | exits p k' running out fork exited =>
    have alive := tree_running k p running
    rw [exits_tree p fork exited]
    exact numbered.exit p alive
  | reaps p i running out found =>
    rw [reap_tree]
    exact numbered.reap i
  | kills p i pid running found =>
    rw [kill_tree]
    exact numbered.shrinks rfl fun i used => ⟨used, rfl⟩

theorem userinit_numbered : Numbered userinit.tree := by
  have only (i : Slot) (used : userinit.tree.phase i ≠ .free) : i = 0 := by
    by_contra other
    exact used (by simp [Kernel.tree, userinit, zeroProc, other, ProcState.phase])
  refine ⟨by decide, fun i used => ?_, fun i j usedI usedJ _ => (only i usedI).trans (only j usedJ).symm⟩
  rw [only i used]
  decide

end Steps

/-- In a run in which no slot is taken once `nextpid` has come to 2^31, the pids in use are always different and
every `fork` returns a positive value. -/
theorem pids_of_unwrapped (events : List Event) (k : Kernel) (run : Run.exec step userinit events = some k)
    (unwrapped : Run.Meets step Unwrapped userinit events) :
    DistinctPids k.table ∧ ∀ p r, k.forkReturns p = some r → 0 < r := by
  obtain ⟨family, numbered⟩ : k.tree.Family ∧ Numbered k.tree := by
    refine Run.exec_invariant_of_meets step Unwrapped (fun k => k.tree.Family ∧ Numbered k.tree) ?_ userinit k events
      ⟨userinit_family, userinit_numbered⟩ run unwrapped
    rintro k e k' ⟨family, numbered⟩ small moved
    have move := step_move k k' e moved
    exact ⟨move.family family, move.numbered family small numbered⟩
  constructor
  · intro i j usedI usedJ same
    exact numbered.distinct i j (mt (phase_free_iff k i).mp usedI) (mt (phase_free_iff k j).mp usedJ) same
  · intro p r returns
    rw [Kernel.forkReturns] at returns
    split at returns
    next np at_ =>
      cases returns
      have embryo := (family.caller p np (congrArg ForkPc.holds at_)).2
      have small := numbered.below np (by simp [embryo])
      have next := numbered.next.2
      simp only [Kernel.tree] at small next
      rw [Sys.int_eq]
      omega
    next => cases returns

def twoForks : List Event := .dispatch 0 :: forkSteps 0 ++ .forkRun 0 :: forkSteps 0

theorem pids_of_unwrapped_two : ∃ k, Run.exec step userinit twoForks = some k ∧
    Run.Meets step Unwrapped userinit twoForks ∧ DistinctPids k.table ∧ ∀ p r, k.forkReturns p = some r → 0 < r := by
  have runs : (Run.exec step userinit twoForks).isSome = true := by decide +kernel
  have meets : Run.Meets step Unwrapped userinit twoForks := by decide +kernel
  obtain ⟨k, run⟩ := Option.isSome_iff_exists.mp runs
  exact ⟨k, run, meets, pids_of_unwrapped twoForks k run meets⟩

section Wrap

-- init alone and running; slot 1 has last been given to a `fork` with pid `last`.
def alone (last next : UInt32) : Kernel :=
  { initRuns with
    table := { initRuns.table with
      proc := Function.update initRuns.table.proc 1 { zeroProc with pid := last }
      nextpid := next } }

-- A `fork` that finds no page for the kernel stack.
def failedFork : List Event := [.forkAlloc 0, .forkStack 0 false]

theorem failedFork_run (last next : UInt32) :
    Run.exec step (alone last next) failedFork = some (alone next (next + 1)) := by
  have taken : step (alone last next) (.forkAlloc 0) =
      some ⟨{ (alone last next).table.set 1 { zeroProc with pid := next, state := .embryo } with nextpid := next + 1 },
        Function.update (alone last next).fork 0 (.alloc 1)⟩ := rfl
  have dropped : step ⟨{ (alone last next).table.set 1 { zeroProc with pid := next, state := .embryo } with
        nextpid := next + 1 }, Function.update (alone last next).fork 0 (.alloc 1)⟩ (.forkStack 0 false) =
      some ⟨{ (alone last next).table.set 1 { zeroProc with pid := next } with nextpid := next + 1 },
        Function.update (alone last next).fork 0 .out⟩ := by
    simp only [step, Function.update_self, allocStack, Table.set, Function.update_idem]
    rfl
  have table : (alone last next).table.set 1 { zeroProc with pid := next } =
      { (alone next (next + 1)).table with nextpid := next } := by
    simp only [alone, Table.set, Function.update_idem]
  have fork : Function.update (alone last next).fork 0 .out = (alone last next).fork :=
    Function.update_eq_self 0 (alone last next).fork
  rw [failedFork, Run.exec_cons, taken, Option.bind_some, Run.exec_cons, dropped, Option.bind_some, Run.exec_nil, table,
    fork]
  rfl

theorem alone_reachable (n : Nat) : ∃ last, Reachable (alone last (2 + UInt32.ofNat n)) := by
  induction n with
  | zero =>
    have same : alone 0 2 = initRuns := by
      have slot : Function.update initRuns.table.proc 1 { zeroProc with pid := 0 } = initRuns.table.proc :=
        Function.update_eq_self 1 initRuns.table.proc
      rw [alone, slot]
      rfl
    exact ⟨0, same ▸ initRuns_reachable⟩
  | succ n ih =>
    obtain ⟨last, events, run⟩ := ih
    refine ⟨2 + UInt32.ofNat n, events ++ failedFork, ?_⟩
    have next : 2 + UInt32.ofNat (n + 1) = 2 + UInt32.ofNat n + 1 := by
      rw [UInt32.ofNat_add, UInt32.add_assoc]
      rfl
    rw [Run.exec_append, run, Option.bind_some, failedFork_run, next]

theorem initForks_run (last next : UInt32) : ∃ k, Run.exec step (alone last next) (forkSteps 0) = some k ∧
    k.forkReturns 0 = some (Sys.int next) ∧ (k.table.proc 0).state = .running ∧ (k.table.proc 0).pid = 1 ∧
    (k.table.proc 1).state = .embryo ∧ (k.table.proc 1).pid = next :=
  ⟨_, rfl, rfl, rfl, rfl, rfl, rfl⟩

theorem initForks_reachable (n : Nat) (next : UInt32) (value : 2 + UInt32.ofNat n = next) : ∃ k, Reachable k ∧
    k.forkReturns 0 = some (Sys.int next) ∧ (k.table.proc 0).state = .running ∧ (k.table.proc 0).pid = 1 ∧
    (k.table.proc 1).state = .embryo ∧ (k.table.proc 1).pid = next := by
  obtain ⟨last, events, run⟩ := alone_reachable n
  obtain ⟨k, forks, rest⟩ := initForks_run last next
  refine ⟨k, ⟨events ++ forkSteps 0, ?_⟩, rest⟩
  rw [Run.exec_append, run, Option.bind_some, value, forks]

-- The counter has come to 2^31, and then to 1, the pid of init.
theorem pids_wrap :
    (∃ k, Reachable k ∧ k.forkReturns 0 = some (-2147483648)) ∧
      ∃ k, Reachable k ∧ (k.table.proc 0).pid = 1 ∧ (k.table.proc 1).pid = 1 ∧ ¬ DistinctPids k.table := by
  constructor
  · obtain ⟨k, reached, returns, -⟩ := initForks_reachable (2 ^ 31 - 2) 2147483648 (by decide)
    exact ⟨k, reached, returns⟩
  · obtain ⟨k, reached, -, running, pid0, embryo, pid1⟩ := initForks_reachable (2 ^ 32 - 1) 1 (by decide)
    refine ⟨k, reached, pid0, pid1, fun distinct => ?_⟩
    have same := distinct 0 1 (by simp [running]) (by simp [embryo]) (by rw [pid0, pid1])
    exact absurd same (by decide)

end Wrap

end Xv6.Ptable
