import Xv6.Proc.Family

set_option autoImplicit false

/-!
# Exited processes are collected once

Pids are reused after 2^32 forks, so a process is known here by a serial number. A ledger, which the
code does not have, says which processes have exited and which have been returned by a `wait`.
-/

namespace Xv6.Ptable

section Ledger

structure Reap where
  child : Nat
  pid : UInt32
  caller : Slot
  parent : Option Slot

/-- What the code does not keep: which process each slot holds, which have exited with which pid, and
which have been returned by a `wait`. -/
structure Ledger where
  serial : Slot → Nat
  born : Nat
  exits : List (Nat × UInt32)
  reaps : List Reap

def Ledger.record (l : Ledger) (t : Table) : Event → Ledger
  | .forkAlloc _ =>
    match allocproc t with
    | some (np, _) => { l with serial := Function.update l.serial np l.born, born := l.born + 1 }
    | none => l
  | .exit p => { l with exits := (l.serial p, (t.proc p).pid) :: l.exits }
  | .wait p =>
    match (wait t p).1, zombieChild t p with
    | .reaped pid, some i => { l with reaps := ⟨l.serial i, pid, p, (t.proc i).parent⟩ :: l.reaps }
    | _, _ => l
  | _ => l

structure History where
  kernel : Kernel
  ledger : Ledger

def History.step (h : History) (e : Event) : Option History :=
  (Ptable.step h.kernel e).map fun k => ⟨k, h.ledger.record h.kernel.table e⟩

-- init is process 0.
def boot : History := ⟨userinit, fun _ => 0, 1, [], []⟩

/-- The ledger agrees with the table: a process exits once, and is collected once, after that. -/
structure Ledger.Agrees (l : Ledger) (f : Tree) : Prop where
  bound : ∀ i, f.phase i ≠ .free → l.serial i < l.born
  distinct : ∀ i j, f.phase i ≠ .free → f.phase j ≠ .free → l.serial i = l.serial j → i = j
  past : ∀ x ∈ l.exits, x.1 < l.born
  zombie : ∀ i, f.phase i = .zombie → (l.serial i, f.pid i) ∈ l.exits
  current : ∀ i, f.phase i ≠ .free → ∀ r ∈ l.reaps, r.child ≠ l.serial i
  once : (l.reaps.map Reap.child).Nodup
  exited : ∀ r ∈ l.reaps, r.parent = some r.caller ∧ (r.child, r.pid) ∈ l.exits

variable {l : Ledger} {f : Tree} (agrees : l.Agrees f)

include agrees

theorem Ledger.Agrees.congr {f' : Tree} (phase : f'.phase = f.phase) (pid : f'.pid = f.pid) : l.Agrees f' := by
  obtain ⟨bound, distinct, past, zombie, current, once, exited⟩ := agrees
  rw [← phase] at bound distinct current
  rw [← phase, ← pid] at zombie
  exact ⟨bound, distinct, past, zombie, current, once, exited⟩

theorem Ledger.Agrees.alloc (p np : Slot) :
    Ledger.Agrees { l with serial := Function.update l.serial np l.born, born := l.born + 1 }
      (f.alloc p np) := by
  have old : ∀ r ∈ l.reaps, r.child < l.born := fun r member => agrees.past _ (agrees.exited r member).2
  cases agrees
  constructor <;> simp only [Tree.alloc, Function.update_apply] <;> grind

theorem Ledger.Agrees.run (p np : Slot) (held : f.phase np = .embryo) : l.Agrees (f.run p np) := by
  obtain ⟨bound, distinct, past, zombie, current, once, exited⟩ := agrees
  refine ⟨?_, ?_, past, ?_, ?_, once, exited⟩ <;> simp only [Tree.run, Function.update_apply] <;> grind

theorem Ledger.Agrees.drop (p np : Slot) (pgdir : Bool) : l.Agrees (f.drop p np pgdir) := by
  obtain ⟨bound, distinct, past, zombie, current, once, exited⟩ := agrees
  refine ⟨?_, ?_, past, ?_, ?_, once, exited⟩ <;> simp only [Tree.drop, Function.update_apply] <;> grind

theorem Ledger.Agrees.exit (p : Slot) (alive : f.phase p = .alive) :
    Ledger.Agrees { l with exits := (l.serial p, f.pid p) :: l.exits } (f.exit p) := by
  cases agrees
  constructor <;> simp only [Tree.exit, Function.update_apply, List.mem_cons] <;> grind

theorem Ledger.Agrees.reap (p i : Slot) (gone : f.phase i = .zombie) :
    Ledger.Agrees { l with reaps := ⟨l.serial i, f.pid i, p, some p⟩ :: l.reaps } (f.reap i) := by
  have exit := agrees.zombie i gone
  have first : l.serial i ∉ l.reaps.map Reap.child := by
    rw [List.mem_map]
    rintro ⟨r, member, same⟩
    exact agrees.current i (by simp [gone]) r member same
  cases agrees
  constructor <;>
    simp only [Tree.reap, Function.update_apply, List.mem_cons, List.map_cons, List.nodup_cons] <;> grind

end Ledger

section History

theorem Event.Quiet.record {t : Table} {e : Event} (quiet : e.Quiet t) (l : Ledger) : l.record t e = l := by
  cases e with
  | forkAlloc p =>
    have scan : t.first (fun q => q.state = .unused) = none := quiet.born
    simp [Ledger.record, allocproc, scan]
  | exit p => exact absurd quiet.exited (by simp [Event.exited])
  | wait p =>
    have found : zombieChild t p = none := quiet.reaped
    simp [Ledger.record, found]
  | _ => rfl

variable {k k' : Kernel} {e : Event} {l : Ledger}

theorem Move.agrees (move : Move k e k') (family : k.tree.Family) (agrees : l.Agrees k.tree) :
    (l.record k.table e).Agrees k'.tree := by
  cases move with
  | wakes e k' quiet fork woken =>
    rw [quiet.record, wakes_tree fork woken]
    exact agrees
  | dispatch p k' fork turn => exact turn_tree fork turn rfl ▸ agrees
  | leaves e p s k' quiet fork stays turn =>
    rw [quiet.record, turn_tree fork turn (by rcases stays with rfl | rfl <;> rfl)]
    exact agrees
  | alloc p np running out scan =>
    rw [alloc_tree]
    simp only [Ledger.record, allocproc, scan, Option.map_some]
    exact agrees.alloc p np
  | stack p np running at_ =>
    rw [stack_tree]
    exact agrees.congr rfl rfl
  | time p np c running at_ =>
    rw [time_tree]
    exact agrees.congr rfl rfl
  | noStack p np running at_ =>
    rw [noStack_tree]
    exact agrees.drop p np _
  | copy p np running at_ =>
    rw [copy_tree]
    exact agrees.congr rfl rfl
  | noCopy p np running at_ =>
    rw [noCopy_tree]
    exact agrees.drop p np _
  | run p np running at_ =>
    rw [run_tree]
    exact agrees.run p np (family.caller p np (by simp [Kernel.tree, at_, ForkPc.holds])).2
  | exits p k' running out fork exited =>
    rw [exits_tree p fork exited]
    exact agrees.exit p (tree_running k p running)
  | reaps p i running out found =>
    obtain ⟨parent, zombie⟩ := tree_zombie found
    rw [reap_tree]
    simp only [Ledger.record, wait_reaped found, found]
    rw [show (k.table.proc i).parent = some p from parent]
    exact agrees.reap p i zombie
  | kills p i pid running found =>
    rw [kill_tree]
    exact agrees.congr rfl rfl

theorem boot_agrees : boot.ledger.Agrees boot.kernel.tree := by
  have phase : ∀ i, boot.kernel.tree.phase i ≠ .free → i = 0 := by
    intro i held
    by_contra other
    exact held (by simp [boot, Kernel.tree, userinit, zeroProc, other, ProcState.phase])
  have noZombie : ∀ i, boot.kernel.tree.phase i ≠ .zombie := by
    intro i
    by_cases first : i = 0 <;> simp [boot, Kernel.tree, userinit, zeroProc, first, ProcState.phase]
  refine ⟨?_, ?_, ?_, ?_, ?_, ?_, ?_⟩
  · exact fun _ _ => Nat.one_pos
  · exact fun i j one two _ => (phase i one).trans (phase j two).symm
  · exact fun _ member => absurd member List.not_mem_nil
  · exact fun i zombie => absurd zombie (noZombie i)
  · exact fun _ _ _ member => absurd member List.not_mem_nil
  · exact List.nodup_nil
  · exact fun _ member => absurd member List.not_mem_nil

structure History.Sound (h : History) : Prop where
  family : h.kernel.tree.Family
  agrees : h.ledger.Agrees h.kernel.tree

theorem History.Sound.step {h h' : History} (sound : h.Sound) (moved : h.step e = some h') : h'.Sound := by
  rw [History.step, Option.map_eq_some_iff] at moved
  obtain ⟨k', stepped, rfl⟩ := moved
  have move := step_move h.kernel k' e stepped
  exact ⟨move.family sound.family, move.agrees sound.family sound.agrees⟩

theorem history_sound (events : List Event) (h : History) (run : Run.exec History.step boot events = some h) :
    h.Sound :=
  Run.exec_invariant History.step History.Sound (fun _ _ _ sound moved => sound.step moved) boot h events
    ⟨userinit_family, boot_agrees⟩ run

/-- Every process has a living parent; what `wait` returns is the pid of a child of the caller that
has exited and that no `wait` has returned before. -/
theorem reaped_once (events : List Event) (h : History) (run : Run.exec History.step boot events = some h) :
    (∀ i, (h.kernel.table.proc i).state ∈ [.sleeping, .runnable, .running, .zombie] →
      ∃ q, (h.kernel.table.proc i).parent = some q ∧
        (h.kernel.table.proc q).state ∈ [.sleeping, .runnable, .running]) ∧
    (h.ledger.reaps.map Reap.child).Nodup ∧
    (∀ r ∈ h.ledger.reaps, r.parent = some r.caller ∧ (r.child, r.pid) ∈ h.ledger.exits) ∧
    ∀ p pid, (wait h.kernel.table p).1 = .reaped pid →
      ∃ i, (h.kernel.table.proc i).parent = some p ∧ (h.kernel.table.proc i).pid = pid ∧
        (h.ledger.serial i, pid) ∈ h.ledger.exits ∧ ∀ r ∈ h.ledger.reaps, r.child ≠ h.ledger.serial i := by
  obtain ⟨family, agrees⟩ := history_sound events h run
  refine ⟨?_, agrees.once, agrees.exited, ?_⟩
  · intro i started
    have phase : h.kernel.tree.phase i = .alive ∨ h.kernel.tree.phase i = .zombie := by
      simp only [Kernel.tree]
      cases state : (h.kernel.table.proc i).state <;> simp_all [ProcState.phase]
    obtain ⟨q, parent⟩ := Option.ne_none_iff_exists'.mp (family.parent i phase)
    refine ⟨q, parent, ?_⟩
    have alive := family.living i q parent
    simp only [Kernel.tree] at alive
    cases state : (h.kernel.table.proc q).state <;> simp_all [ProcState.phase]
  · intro p pid returned
    cases found : zombieChild h.kernel.table p with
    | none =>
      unfold zombieChild at found
      simp only [wait, found] at returned
      split at returned <;> cases returned
    | some i =>
      rw [wait_reaped found] at returned
      cases returned
      obtain ⟨parent, zombie⟩ := tree_zombie found
      exact ⟨i, parent, rfl, agrees.zombie i zombie, agrees.current i (by simp [zombie])⟩

-- init forks and waits, the child exits, and init collects it.
def childLife : List Event :=
  .dispatch 0 :: forkSteps 0 ++ [.forkRun 0, .wait 0, .dispatch 1, .exit 1, .dispatch 0, .wait 0]

theorem reaped_once_child :
    ∃ h, Run.exec History.step boot childLife = some h ∧ h.ledger.reaps.map Reap.child = [1] ∧
      (h.ledger.reaps.map Reap.child).Nodup ∧
      ∀ r ∈ h.ledger.reaps, r.parent = some r.caller ∧ (r.child, r.pid) ∈ h.ledger.exits := by
  have evaluated : (Run.exec History.step boot childLife).any
      (fun h => h.ledger.reaps.map Reap.child = [1]) = true := by decide +kernel
  obtain ⟨h, run, one⟩ := (Option.any_eq_true _ _).mp evaluated
  have results := reaped_once childLife h run
  exact ⟨h, run, by simpa using one, results.2.1, results.2.2.1⟩

end History

end Xv6.Ptable
