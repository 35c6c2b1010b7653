import Xv6.Proc.Family

set_option autoImplicit false

/-!
# The killed flags

`kill` compares pids and does not look at states. The slots that hold no process keep a pid: 0 at
boot and after `wait`, and the last one given out after a `fork` that failed.
-/

namespace Xv6.Ptable

/-- `kill` succeeds, and flags a slot with that pid, exactly when a slot in use has that pid. -/
def KillAgrees (t : Table) (pid : UInt32) : Prop :=
  (∃ t', kill t pid = some t' ∧ ∃ i, (t'.proc i).killed = true ∧ (t'.proc i).pid = pid) ↔
    ∃ i, (t.proc i).state ≠ .unused ∧ (t.proc i).pid = pid

/-- The pid is that of a process: no free slot keeps it, and no `fork` in progress has given it out. -/
def Started (t : Table) (pid : UInt32) : Prop :=
  ∀ i, (t.proc i).pid = pid → (t.proc i).state ≠ .unused ∧ (t.proc i).state ≠ .embryo

instance (t : Table) (pid : UInt32) : Decidable (Started t pid) :=
  inferInstanceAs (Decidable (∀ i, (t.proc i).pid = pid → (t.proc i).state ≠ .unused ∧ (t.proc i).state ≠ .embryo))

theorem kill_some_iff (t : Table) (pid : UInt32) :
    (∃ t', kill t pid = some t' ∧ ∃ i, (t'.proc i).killed = true ∧ (t'.proc i).pid = pid) ↔
      ∃ i, (t.proc i).pid = pid := by
  constructor
  · rintro ⟨t', done, -⟩
    simp only [kill, Option.map_eq_some_iff] at done
    obtain ⟨i, found, -⟩ := done
    exact ⟨i, by simpa using first_some found⟩
  · rintro ⟨i, has⟩
    cases found : t.first (fun p => p.pid = pid) with
    | none => exact absurd has (by simpa using first_none found i)
    | some j =>
      have own : (t.proc j).pid = pid := by simpa using first_some found
      exact ⟨_, kill_found found, j, by simp [Table.set, flagged], by simpa [Table.set, flagged] using own⟩

theorem kill_agrees_of_started (t : Table) (pid : UInt32) (started : Started t pid) : KillAgrees t pid := by
  rw [KillAgrees, kill_some_iff]
  constructor
  · rintro ⟨i, has⟩
    exact ⟨i, (started i has).1, has⟩
  · rintro ⟨i, -, has⟩
    exact ⟨i, has⟩

-- The condition on a step: a kill names a process that has started.
def Aimed (k : Kernel) : Event → Prop
  | .kill _ pid => Started k.table pid
  | _ => True

instance (k : Kernel) (e : Event) : Decidable (Aimed k e) :=
  match e with
  | .kill _ pid => inferInstanceAs (Decidable (Started k.table pid))
  | .dispatch _ | .yield _ | .sleep _ _ | .wakeup _ | .tick | .forkAlloc _ | .forkStack _ _ | .forkTime _
  | .forkCopy _ _ | .forkRun _ | .exit _ | .wait _ => isTrue trivial

-- No slot without a process is flagged.
def Clean (f : Tree) : Prop := ∀ i, f.phase i = .free ∨ f.phase i = .embryo → f.killed i = false

section Tree

variable {f : Tree} (clean : Clean f) (p np : Slot)

include clean

theorem Clean.alloc (free : f.phase np = .free) : Clean (f.alloc p np) := by
  intro i
  simp only [Tree.alloc, Function.update_apply]
  grind [Clean]

theorem Clean.drop (embryo : f.phase np = .embryo) (pgdir : Bool) : Clean (f.drop p np pgdir) := by
  intro i
  simp only [Tree.drop, Function.update_apply]
  grind [Clean]

theorem Clean.run : Clean (f.run p np) := by
  intro i
  simp only [Tree.run, Function.update_apply]
  grind [Clean]

theorem Clean.exit : Clean (f.exit p) := by
  intro i
  simp only [Tree.exit, Function.update_apply]
  grind [Clean]

theorem Clean.reap : Clean (f.reap p) := by
  intro i
  simp only [Tree.reap, Function.update_apply]
  grind [Clean]

theorem Clean.kill (started : f.phase p ≠ .free ∧ f.phase p ≠ .embryo) : Clean (f.kill p) := by
  intro i
  simp only [Tree.kill, Function.update_apply]
  grind [Clean]

end Tree

section Steps

variable {k k' : Kernel} {e : Event}

theorem Move.clean (move : Move k e k') (family : k.tree.Family) (aimed : Aimed k e) (clean : Clean k.tree) :
    Clean k'.tree := by
  cases move with
  | wakes e k' quiet fork woken => exact wakes_tree fork woken ▸ clean
  | dispatch p k' fork turn => exact turn_tree fork turn rfl ▸ clean
  | leaves e p s k' quiet fork stays turn =>
    exact turn_tree fork turn (by rcases stays with rfl | rfl <;> rfl) ▸ clean
  | alloc p np running out scan =>
    have unused : (k.table.proc np).state = .unused := by simpa using first_some scan
    rw [alloc_tree]
    exact clean.alloc p np (by simp only [Kernel.tree, unused]; rfl)
  | stack p np running at_ => exact stack_tree k p np ▸ clean
  | time p np c running at_ => exact time_tree k p np c ▸ clean
  | copy p np running at_ => exact copy_tree k p np ▸ clean
  | noStack p np running at_ =>
    rw [noStack_tree]
    exact clean.drop p np (family.caller p np (by simp [Kernel.tree, at_, ForkPc.holds])).2 _
  | noCopy p np running at_ =>
    rw [noCopy_tree]
    exact clean.drop p np (family.caller p np (by simp [Kernel.tree, at_, ForkPc.holds])).2 _
  | run p np running at_ =>
    rw [run_tree]
    exact clean.run p np
  | exits p k' running out fork exited =>
    rw [exits_tree p fork exited]
    exact clean.exit p
  | reaps p i running out found =>
    rw [reap_tree]
    exact clean.reap i
  | kills p i pid running found =>
    have started := aimed i (by simpa using first_some found)
    rw [kill_tree]
    refine clean.kill i ?_
    simp only [Kernel.tree]
    cases state : (k.table.proc i).state <;> simp_all [ProcState.phase]

theorem Move.killed (move : Move k e k') (i : Slot) (before : k.tree.killed i = false)
    (after : k'.tree.killed i = true) : ∃ p, e = .kill p (k.tree.pid i) := by
  have lowered (same : k'.tree.killed i = k.tree.killed i ∨ k'.tree.killed i = false) :
      ∃ p, e = .kill p (k.tree.pid i) := by
    rcases same with same | same
    · rw [same, before] at after
      cases after
    · rw [same] at after
      cases after
  cases move with
  | wakes e k' quiet fork woken => exact lowered (Or.inl (by rw [wakes_tree fork woken]))
  | dispatch p k' fork turn => exact lowered (Or.inl (by rw [turn_tree fork turn rfl]))
  | leaves e p s k' quiet fork stays turn =>
    exact lowered (Or.inl (by rw [turn_tree fork turn (by rcases stays with rfl | rfl <;> rfl)]))
  | alloc p np running out scan => exact lowered (Or.inl (by rw [alloc_tree]; rfl))
  | stack p np running at_ => exact lowered (Or.inl (by rw [stack_tree]; rfl))
  | time p np c running at_ => exact lowered (Or.inl (by rw [time_tree]; rfl))
  | copy p np running at_ => exact lowered (Or.inl (by rw [copy_tree]; rfl))
  | noStack p np running at_ => exact lowered (Or.inl (by rw [noStack_tree]; rfl))
  | noCopy p np running at_ => exact lowered (Or.inl (by rw [noCopy_tree]; rfl))
  | run p np running at_ => exact lowered (Or.inl (by rw [run_tree]; rfl))
  | exits p k' running out fork exited => exact lowered (Or.inl (by rw [exits_tree p fork exited]; rfl))
  | reaps p j running out found =>
    refine lowered ?_
    rw [reap_tree]
    by_cases same : i = j <;> simp [Tree.reap, same]
  | kills p j pid running found =>
    have own : (k.table.proc j).pid = pid := by simpa using first_some found
    by_cases same : i = j
    · subst same
      exact ⟨p, by rw [← own]; rfl⟩
    · refine lowered (Or.inl ?_)
      rw [kill_tree]
      simp [Tree.kill, same]

end Steps

/-- What is asked of a step: a kill agrees with the table, `fork` returns a process that is not
killed, and a flag is raised only by a kill of that process. -/
structure KillSound (k : Kernel) (e : Event) (k' : Kernel) : Prop where
  agrees : ∀ p pid, e = .kill p pid → KillAgrees k.table pid
  fresh : ∀ p np, e = .forkRun p → k.fork p = .copied np → (k'.table.proc np).killed = false
  blamed : ∀ i, (k.table.proc i).killed = false → (k'.table.proc i).killed = true →
    (k.table.proc i).state ≠ .unused ∧ ∃ p, e = .kill p (k.table.proc i).pid

theorem userinit_clean : Clean userinit.tree := by
  intro i _
  by_cases first : i = 0 <;> simp [Kernel.tree, userinit, zeroProc, first]

/-- In a run in which every kill names a process that has started, every step is sound. -/
theorem kill_sound_of_aimed (events : List Event) (e : Event) (k k' : Kernel)
    (run : Run.exec step userinit events = some k) (moved : step k e = some k')
    (aimed : Run.Meets step Aimed userinit (events ++ [e])) : KillSound k e k' := by
  obtain ⟨earlier, now, -⟩ := Run.meets_append step Aimed userinit k events [e] run aimed
  have family := reachable_family k ⟨events, run⟩
  have clean : k.tree.Family ∧ Clean k.tree := by
    refine Run.exec_invariant_of_meets step Aimed (fun k => k.tree.Family ∧ Clean k.tree) ?_ userinit k events
      ⟨userinit_family, userinit_clean⟩ run earlier
    rintro k e k' ⟨family, clean⟩ aimed moved
    have move := step_move k k' e moved
    exact ⟨move.family family, move.clean family aimed clean⟩
  have move := step_move k k' e moved
  constructor
  case agrees =>
    rintro p pid rfl
    exact kill_agrees_of_started k.table pid now
  case fresh =>
    rintro p np rfl at_
    have embryo := (family.caller p np (by simp [Kernel.tree, at_, ForkPc.holds])).2
    have unflagged : (k.table.proc np).killed = false := clean.2 np (Or.inr embryo)
    cases move with
    | run p m running at' =>
      rw [at_] at at'
      cases at'
      simpa [forkRun, Table.set] using unflagged
    | wakes e k' quiet fork woken => rw [(woken.same np).killed, unflagged]
    | leaves e p s k' quiet fork stays turn => rw [(turn.all np).killed, unflagged]
  case blamed =>
    intro i before after
    obtain ⟨p, rfl⟩ := move.killed i before after
    exact ⟨(now i rfl).1, p, rfl⟩

def forks : List Event := .dispatch 0 :: forkSteps 0 ++ [.forkRun 0]

theorem kill_sound_of_aimed_child :
    ∃ k k', Run.exec step userinit forks = some k ∧ step k (.kill 0 2) = some k' ∧
      Run.Meets step Aimed userinit (forks ++ [.kill 0 2]) ∧ KillSound k (.kill 0 2) k' := by
  have both : (Run.exec step userinit forks).any (fun k => (step k (.kill 0 2)).isSome) = true := by
    decide +kernel
  obtain ⟨k, run, stepped⟩ := (Option.any_eq_true _ _).mp both
  obtain ⟨k', moved⟩ := Option.isSome_iff_exists.mp stepped
  have aimed : Run.Meets step Aimed userinit (forks ++ [.kill 0 2]) := by decide +kernel
  exact ⟨k, k', run, moved, aimed, kill_sound_of_aimed forks (.kill 0 2) k k' run moved aimed⟩

-- A kill of pid 0 finds the first slot that has never been used, and the next child is born killed.
def strayKill : List Event := [.dispatch 0, .kill 0 0] ++ forkSteps 0

theorem kill_marks_free_slots :
    (∃ k k', Run.exec step userinit [.dispatch 0] = some k ∧ step k (.kill 0 0) = some k' ∧
      ¬ KillAgrees k.table 0) ∧
    ∃ k k', Run.exec step userinit strayKill = some k ∧ step k (.forkRun 0) = some k' ∧
      ¬ KillSound k (.forkRun 0) k' := by
  constructor
  · refine ⟨initRuns, _, rfl, rfl, ?_⟩
    rw [KillAgrees, kill_some_iff]
    decide +kernel
  · have flagged : (Run.exec step userinit strayKill).any (fun k => k.fork 0 = .copied 1 ∧
        (step k (.forkRun 0)).any (fun k' => (k'.table.proc 1).killed)) = true := by decide +kernel
    obtain ⟨k, run, rest⟩ := (Option.any_eq_true _ _).mp flagged
    simp only [decide_eq_true_eq, Option.any_eq_true] at rest
    obtain ⟨at_, k', moved, killed⟩ := rest
    refine ⟨k, k', run, moved, fun sound => ?_⟩
    rw [sound.fresh 0 1 rfl at_] at killed
    cases killed

end Xv6.Ptable
