import Xv6.Log.GroupInvariant

set_option autoImplicit false

/-!
# Waiting for the log

`begin_op` sleeps on `&log` while a commit runs and while the log has no room for one more operation.
`sleep` gives `log.lock` up only when it holds `ptable.lock`, which `wakeup` takes as well, so falling
asleep belongs to the section that made the test. Between two steps of the machine `log.lock` is free.
-/

namespace Xv6.Group

variable {N : Nat}

-- The two reasons to sleep, as `begin_op` tests them.
def Busy (log : Log) : Prop :=
  log.committing = true ∨ (log.lh.n : Int) + (log.outstanding + 1) * MAXOPBLOCKS > LOGSIZE

theorem beginOp_none_iff (log : Log) : beginOp log = none ↔ Busy log := by
  unfold beginOp Busy
  split_ifs with committing full
  · exact iff_of_true rfl (Or.inl committing)
  · exact iff_of_true rfl (Or.inr full)
  · exact iff_of_false (by simp) (not_or.mpr ⟨committing, full⟩)

/-- Whoever sleeps on `&log` has something to wait for. -/
def Waiting (s : State N) : Prop := ∀ p, s.phase p = .asleep → Busy s.log

theorem Waiting.move {s : State N} (waiting : Waiting s) (p : Fin N) (phase : Phase)
    (stays : phase = .asleep → Busy s.log) : Waiting (s.move p phase) := by
  intro q asleep
  by_cases same : q = p
  · subst same
    exact stays (by simpa [State.move] using asleep)
  · exact waiting q (by simpa [State.move, Function.update_of_ne same] using asleep)

theorem wakeup_awake (s : State N) (p : Fin N) : s.wakeup.phase p ≠ .asleep := by
  cases at_ : s.phase p <;> simp [State.wakeup, Phase.wake, at_]

theorem Busy.log_grows {log : Log} (busy : Busy log) (lh : LogHeader)
    (grows : log.lh.block.length ≤ lh.block.length) : Busy { log with lh := lh } := by
  rcases busy with committing | full
  · exact Or.inl committing
  · right
    simp only [LogHeader.n] at full ⊢
    omega

theorem commitStep_committing (s : State N) (p : Fin N) (pc : CommitPc) :
    (commitStep s p pc).log.committing = s.log.committing := by
  cases pc with
  | test | writeLog _ | install _ =>
    simp only [commitStep]
    split <;> rfl
  | writeHead | clear | erase => rfl

theorem moves_waiting (allowed : Finset Nat → Prop) (s t : State N) (p : Fin N)
    (moves : Moves allowed s p t) (inv : Inv s) (waiting : Waiting s) : Waiting t := by
  cases moves with
  | call at_ => exact waiting.move p .begin (by simp)
  | sleep at_ wait => exact waiting.move p .asleep (fun _ => (beginOp_none_iff s.log).mp wait)
  | enter log at_ entered =>
    -- the log has room for `p`, so nobody can have been asleep
    intro q asleep
    have before : s.phase q = .asleep := by
      by_cases same : q = p
      · simp [State.move, same] at asleep
      · simpa [State.move, Function.update_of_ne same] using asleep
    have none := (beginOp_none_iff s.log).mpr (waiting q before)
    rw [entered] at none
    cases none
  | awake at_ => exact waiting.move p .begin (by simp)
  | check blocks b at_ small checked => exact waiting.move p (.logging blocks b) (by simp)
  | written blocks b log at_ logged =>
    obtain ⟨lh, rfl, entries⟩ := logWrite_ok s.log log b logged
    intro q asleep
    apply (waiting.move p (.op (insert b blocks)) (by simp) q asleep).log_grows lh
    change s.log.lh.block.length ≤ lh.block.length
    rw [entries]
    split <;> simp
  | leave blocks log at_ left =>
    intro q asleep
    exact absurd asleep (wakeup_awake (s.move p .idle) q)
  | last blocks log at_ left =>
    obtain ⟨-, -, rfl⟩ := endOp_commit s.log log left
    intro q asleep
    exact Or.inl rfl
  | commit pc at_ =>
    have closing := inv.closing_of_inCommit p (by simp [at_, Phase.inCommit])
    intro q asleep
    left
    rw [commitStep_committing, closing.flag]
  | finish at_ =>
    intro q asleep
    exact absurd asleep (wakeup_awake (s.move p .idle) q)

theorem initial_waiting (s : State N) (initial : Initial s) : Waiting s := by
  intro p asleep
  rw [initial.idle p] at asleep
  cases asleep

theorem reachable_waiting (allowed : Finset Nat → Prop) [DecidablePred allowed] (s : State N)
    (reached : Reachable allowed s) : Waiting s := by
  obtain ⟨start, events, initial, run⟩ := reached
  have both := Run.exec_invariant (next allowed) (fun s => Inv s ∧ Waiting s)
    (fun s event t held moved =>
      have moves := next_moves allowed s t event moved
      ⟨moves_inv allowed s t event.1 moves held.1, moves_waiting allowed s t event.1 moves held.1 held.2⟩)
    start s events ⟨initial_inv start initial, initial_waiting start initial⟩ run
  exact both.2

/-- A log that makes `begin_op` wait is committing, or some operation is still to end: an open log with
no operation in it is empty and has room. -/
theorem Inv.in_progress {s : State N} (inv : Inv s) (busy : Busy s.log) :
    (s.log.committing = true ∧ ∃ q, (s.phase q).inCommit = true) ∨
      (1 ≤ s.log.outstanding ∧ ∃ q, (s.phase q).inOp = true) := by
  rcases inv.mode with opened | ⟨q, closing⟩
  · right
    have nonneg := opened.outstanding_nonneg
    have some : 1 ≤ s.log.outstanding := by
      by_contra none
      have zero : s.log.outstanding = 0 := by omega
      obtain ⟨empty, -⟩ := opened.drained zero
      rcases busy with committing | full
      · simp [opened.flag] at committing
      · simp [LogHeader.n, empty, zero, MAXOPBLOCKS, LOGSIZE] at full
    refine ⟨some, ?_⟩
    by_contra nobody
    have zero : ∑ p, weight (s.phase p) = 0 :=
      Finset.sum_eq_zero (fun p _ => weight_of_not_inOp _ (by simpa using fun inside => nobody ⟨p, inside⟩))
    rw [← opened.count] at zero
    omega
  · exact Or.inl ⟨closing.flag, q, closing.inCommit⟩

/-- `begin_op` strands nobody, in any interleaving: while a process sleeps on `&log`, the test that put
it to sleep still says so, and an operation or a commit is in progress that is yet to call `wakeup`. -/
theorem sleeper_not_stranded (s : State N) (reached : Reachable (fun _ => True) s) (p : Fin N)
    (asleep : s.phase p = .asleep) :
    (s.log.committing = true ∨ (s.log.lh.n : Int) + (s.log.outstanding + 1) * MAXOPBLOCKS > LOGSIZE) ∧
      (s.log.committing = true ∨ 1 ≤ s.log.outstanding) ∧
      ∃ q, q ≠ p ∧ ((s.phase q).inOp = true ∨ (s.phase q).inCommit = true) := by
  have busy := reachable_waiting _ s reached p asleep
  have awake (q : Fin N) (inside : (s.phase q).inOp = true ∨ (s.phase q).inCommit = true) : q ≠ p := by
    rintro rfl
    simp [asleep, Phase.inOp, Phase.inCommit] at inside
  refine ⟨busy, ?_⟩
  rcases (reachable_inv _ s reached).in_progress busy with ⟨flag, q, inside⟩ | ⟨some, q, inside⟩
  · exact ⟨Or.inl flag, q, awake q (Or.inr inside), Or.inr inside⟩
  · exact ⟨Or.inr some, q, awake q (Or.inl inside), Or.inl inside⟩

-- Three operations fill the reservation; a fourth has to wait.
def queue : State 4 where
  log := ⟨2, 30, 0, false, .empty⟩
  phase := fun _ => .idle
  wrote := []
  ended := []
  commits := []
  history := []

def queueEvents : List (Fin 4 × Act) :=
  [(0, .beginOp), (0, .go), (1, .beginOp), (1, .go), (2, .beginOp), (2, .go), (3, .beginOp), (3, .go)]

theorem queue_waits :
    (Run.exec (next (fun _ => True)) queue queueEvents).map (fun s => s.phase 3) = some .asleep := by
  decide +kernel

theorem sleeper_not_stranded_fourth :
    ∃ s : State 4, Reachable (fun _ => True) s ∧ s.phase 3 = .asleep ∧
      (s.log.committing = true ∨ 1 ≤ s.log.outstanding) := by
  have evaluated := queue_waits
  cases run : Run.exec (next (fun _ => True)) queue queueEvents with
  | none => simp [run] at evaluated
  | some s =>
    have asleep : s.phase 3 = .asleep := by simpa [run] using evaluated
    have initial : Initial queue := by constructor <;> simp [queue]
    have reached : Reachable (fun _ => True) s := ⟨queue, queueEvents, initial, run⟩
    exact ⟨s, reached, asleep, (sleeper_not_stranded s reached 3 asleep).2.1⟩

end Xv6.Group
