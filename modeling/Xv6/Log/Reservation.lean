import Xv6.Log.GroupInvariant

set_option autoImplicit false

/-!
# Is the log reservation sufficient?

`begin_op` reserves `MAXOPBLOCKS` blocks for every operation against `LOGSIZE`, `log_write` checks
the count of logged blocks against `log.size - 1`, and `mkfs` makes `log.size` equal to `LOGSIZE`.
-/

namespace Xv6.Group

-- The number of log blocks that `mkfs` writes to the superblock.
def nlog : Nat := LOGSIZE

abbrev AtMost (m : Nat) : Finset Nat → Prop := fun blocks => blocks.card ≤ m

variable {N : Nat}

-- What an operation may still add if it keeps to one block less than its reservation.
def slack (phase : Phase) : Int :=
  if phase.inOp then (MAXOPBLOCKS - 1 : Int) - phase.blocks.card else 0

def target : Phase → Finset Nat
  | .op blocks => blocks
  | .logging blocks b => insert b blocks
  | _ => ∅

structure Room (s : State N) : Prop where
  small : ∀ p, (target (s.phase p)).card < MAXOPBLOCKS
  room : s.log.committing = false →
    (s.log.lh.n : Int) + ∑ p, slack (s.phase p) ≤ LOGSIZE - 2

@[simp] theorem slack_op (blocks : Finset Nat) : slack (.op blocks) = 9 - blocks.card := rfl
@[simp] theorem slack_logging (blocks : Finset Nat) (b : Nat) :
    slack (.logging blocks b) = 9 - blocks.card := rfl
@[simp] theorem slack_idle : slack .idle = 0 := rfl
@[simp] theorem slack_begin : slack .begin = 0 := rfl
@[simp] theorem slack_asleep : slack .asleep = 0 := rfl
@[simp] theorem slack_finish : slack .finish = 0 := rfl
@[simp] theorem slack_commit (pc : CommitPc) : slack (.commit pc) = 0 := rfl

@[simp] theorem slack_wake (phase : Phase) : slack phase.wake = slack phase := by
  cases phase <;> rfl

@[simp] theorem target_wake (phase : Phase) : target phase.wake = target phase := by
  cases phase <;> rfl

theorem blocks_subset_target (phase : Phase) : phase.blocks ⊆ target phase := by
  cases phase <;> simp [target, Phase.blocks]

theorem slack_move (s : State N) (p : Fin N) (phase : Phase) :
    (∑ q, slack ((s.move p phase).phase q)) + slack (s.phase p) =
      (∑ q, slack (s.phase q)) + slack phase :=
  Run.sum_update slack s.phase p phase

theorem slack_le (phase : Phase) : slack phase ≤ 9 * weight phase := by
  cases phase <;> simp

theorem Room.slack_nonneg {s : State N} (room : Room s) (p : Fin N) : 0 ≤ slack (s.phase p) := by
  have small := room.small p
  have subset := Finset.card_le_card (blocks_subset_target (s.phase p))
  unfold slack
  split
  · simp only [MAXOPBLOCKS] at small ⊢
    push_cast
    omega
  · exact le_refl 0

theorem small_move {s : State N} (room : Room s) (p : Fin N) (phase : Phase)
    (bounded : (target phase).card < MAXOPBLOCKS) (q : Fin N) :
    (target ((s.move p phase).phase q)).card < MAXOPBLOCKS := by
  by_cases same : q = p
  · simpa [State.move, same] using bounded
  · simpa [State.move, Function.update_of_ne same] using room.small q

-- The rule for a step that moves `p` and leaves the sum of logged blocks and slack no larger.
theorem Room.advance {s : State N} (room : Room s) (p : Fin N) (phase : Phase) (t : State N)
    (at_ : t.phase = (s.move p phase).phase) (bounded : (target phase).card < MAXOPBLOCKS)
    (sum : t.log.committing = false → s.log.committing = false ∧
      (t.log.lh.n : Int) + slack phase ≤ s.log.lh.n + slack (s.phase p)) : Room t where
  small := by
    rw [at_]
    exact small_move room p phase bounded
  room := by
    intro opened
    obtain ⟨before, less⟩ := sum opened
    have total := room.room before
    have moved := slack_move s p phase
    rw [at_]
    omega

theorem Room.wakeup {s : State N} (room : Room s) : Room s.wakeup where
  small := by simpa [State.wakeup] using room.small
  room := by simpa [State.wakeup] using room.room

-- The reservation test of `begin_op` leaves two blocks of the log for nobody, unless the log is empty.
theorem Room.enter {s : State N} (room : Room s) (opened : Open s) (p : Fin N) (log : Log)
    (at_ : s.phase p = .begin) (entered : beginOp s.log = some log) :
    Room { s.move p (.op ∅) with log := log } := by
  obtain ⟨free, fits, rfl⟩ := beginOp_some s.log log entered
  refine ⟨small_move room p (.op ∅) (by decide), fun _ => ?_⟩
  have moved := slack_move s p (.op ∅)
  have bound : ∑ q, slack (s.phase q) ≤ 9 * s.log.outstanding := by
    rw [opened.count, Finset.mul_sum]
    exact Finset.sum_le_sum (fun q _ => slack_le (s.phase q))
  have nonneg := opened.outstanding_nonneg
  simp only [at_, slack_begin, slack_op, Finset.card_empty] at moved
  change (s.log.lh.n : Int) + ∑ q, slack ((s.move p (.op ∅)).phase q) ≤ _
  simp only [LOGSIZE, MAXOPBLOCKS] at fits ⊢
  push_cast at fits moved ⊢
  by_cases first : s.log.outstanding = 0
  · have empty : s.log.lh.n = 0 := by simp [LogHeader.n, (opened.drained first).1]
    omega
  · omega

theorem Room.written {s : State N} (room : Room s) (opened : Open s) (p : Fin N)
    (blocks : Finset Nat) (b : Nat) (log : Log) (at_ : s.phase p = .logging blocks b)
    (logged : logWrite s.log b = .ok log) :
    Room { s.move p (.op (insert b blocks)) with log := log } := by
  obtain ⟨lh, rfl, entries⟩ := logWrite_ok s.log log b logged
  have small := room.small p
  rw [at_] at small
  refine room.advance p (.op (insert b blocks)) _ rfl small (fun _ => ⟨opened.flag, ?_⟩)
  have held : ∀ c, c ∈ blocks → c ∈ s.log.lh.block := by
    intro c member
    exact (opened.logged c).mpr (Or.inr ⟨p, by simpa [at_] using member⟩)
  have grown : blocks.card ≤ (insert b blocks).card := Finset.card_le_card (Finset.subset_insert b blocks)
  simp only [at_, slack_op, slack_logging]
  change (lh.block.length : Int) + _ ≤ s.log.lh.block.length + _
  rw [entries]
  split
  next => omega
  next unlogged =>
    have new : b ∉ blocks := fun member => unlogged (held b member)
    rw [Finset.card_insert_of_notMem new]
    simp only [List.length_append, List.length_singleton]
    push_cast
    omega

theorem moves_room (m : Nat) (less : m < MAXOPBLOCKS) (s t : State N) (p : Fin N)
    (moves : Moves (AtMost m) s p t) (inv : Inv s) (room : Room s) : Room t := by
  have positive : 0 < MAXOPBLOCKS := by decide
  cases moves with
  | call at_ => exact room.advance p .begin _ rfl positive (fun opened => ⟨opened, by simp [at_, State.move]⟩)
  | sleep at_ wait =>
    exact room.advance p .asleep _ rfl positive (fun opened => ⟨opened, by simp [at_, State.move]⟩)
  | enter log at_ entered =>
    rcases inv.mode with opened | ⟨q, closing⟩
    · exact room.enter opened p log at_ entered
    · have free := (beginOp_some s.log log entered).1
      simp [closing.flag] at free
  | awake at_ => exact room.advance p .begin _ rfl positive (fun opened => ⟨opened, by simp [at_, State.move]⟩)
  | check blocks b at_ small checked =>
    have bounded : (insert b blocks).card < MAXOPBLOCKS := lt_of_le_of_lt small less
    exact room.advance p (.logging blocks b) _ rfl bounded
      (fun opened => ⟨opened, by simp [at_, State.move]⟩)
  | written blocks b log at_ logged =>
    exact room.written (inv.open_of_inOp p (by simp [at_, Phase.inOp])) p blocks b log at_ logged
  | leave blocks log at_ left =>
    obtain ⟨-, -, rfl⟩ := endOp_leave s.log log left
    have flag := (inv.open_of_inOp p (by simp [at_, Phase.inOp])).flag
    have kept := room.slack_nonneg p
    have idle := room.advance p .idle
      { s.move p .idle with
        log := { s.log with outstanding := s.log.outstanding - 1 }
        ended := s.ended ++ [blocks]
        history := s.history ++ [blocks] } rfl positive
      (fun _ => ⟨flag, by simpa [State.move] using kept⟩)
    exact idle.wakeup
  | last blocks log at_ left =>
    obtain ⟨-, -, rfl⟩ := endOp_commit s.log log left
    exact room.advance p (.commit .test) _ rfl positive (fun opened => by cases opened)
  | commit pc at_ =>
    have closing := inv.closing_of_inCommit p (by simp [at_, Phase.inCommit])
    have still (t : State N) (phase : Phase) (place : t.phase = (s.move p phase).phase)
        (none : target phase = ∅) (flag : t.log.committing = s.log.committing) : Room t :=
      room.advance p phase t place (by simp [none])
        (fun opened => by simp [flag, closing.flag] at opened)
    cases pc with
    | test =>
      simp only [commitStep]
      split
      · exact still _ (.commit (.writeLog 0)) rfl rfl rfl
      · exact still _ .finish rfl rfl rfl
    | writeLog tail =>
      simp only [commitStep]
      split
      · exact still _ (.commit (.writeLog (tail + 1))) rfl rfl rfl
      · exact still _ (.commit .writeHead) rfl rfl rfl
    | writeHead => exact still _ (.commit (.install 0)) rfl rfl rfl
    | install tail =>
      simp only [commitStep]
      split
      · exact still _ (.commit (.install (tail + 1))) rfl rfl rfl
      · exact still _ (.commit .clear) rfl rfl rfl
    | clear => exact still _ (.commit .erase) rfl rfl rfl
    | erase => exact still _ .finish rfl rfl rfl
  | finish at_ =>
    have closing := inv.closing_of_inCommit p (by simp [at_, Phase.inCommit])
    have opened := closing.finish at_
    have empty := (opened.drained closing.outstanding).1
    have none : ∀ q, slack ((s.move p .idle).phase q) = 0 := by
      intro q
      by_cases same : q = p
      · simp [State.move, same]
      · have out := (closing.others q same).1
        simp [State.move, Function.update_of_ne same, slack, out]
    refine ⟨?_, fun _ => ?_⟩
    · intro q
      have small := small_move room p .idle positive q
      simpa [State.wakeup] using small
    · have zero : s.log.lh.n = 0 := by simpa [LogHeader.n] using empty
      change (s.log.lh.n : Int) + ∑ q, slack ((s.move p .idle).wakeup.phase q) ≤ _
      simp [State.wakeup, none, zero, LOGSIZE]

theorem initial_room (s : State N) (initial : Initial s) : Room s where
  small := by
    intro p
    simp [initial.idle p, target]
  room := by
    intro _
    simp [initial.idle, initial.lh, LogHeader.n, LogHeader.empty, LOGSIZE]

theorem reachable_room (m : Nat) (less : m < MAXOPBLOCKS) (s : State N)
    (reached : Reachable (AtMost m) s) : Inv s ∧ Room s := by
  obtain ⟨start, events, initial, run⟩ := reached
  refine Run.exec_invariant (next (AtMost m)) (fun s => Inv s ∧ Room s) ?_ start s events
    ⟨initial_inv start initial, initial_room start initial⟩ run
  intro s event t both moved
  have moves := next_moves (AtMost m) s t event moved
  exact ⟨moves_inv _ s t event.1 moves both.1, moves_room m less s t event.1 moves both.1 both.2⟩

theorem logWrite_fits (m : Nat) (less : m < MAXOPBLOCKS) (s : State N)
    (reached : Reachable (AtMost m) s) (size : s.log.size = nlog) (p : Fin N) (b : Nat) :
    step (AtMost m) s p (.logWrite b) ≠ .stopped (.panic .tooBigTransaction) := by
  obtain ⟨inv, room⟩ := reachable_room m less s reached
  intro panicked
  cases at_ : s.phase p with
  | op blocks =>
    have flag := (inv.open_of_inOp p (by simp [at_, Phase.inOp])).flag
    have total := room.room flag
    have nonneg : 0 ≤ ∑ q, slack (s.phase q) := Finset.sum_nonneg (fun q _ => room.slack_nonneg q)
    have fits : s.log.lh.n < LOGSIZE - 1 := by
      simp only [LOGSIZE, MAXOPBLOCKS] at total ⊢
      push_cast at total
      omega
    have small : ¬ (s.log.lh.n ≥ LOGSIZE ∨ (s.log.lh.n : Int) ≥ (s.log.size : Int) - 1) := by
      simp only [size, nlog, LOGSIZE, MAXOPBLOCKS] at fits ⊢
      push_cast
      omega
    simp only [step, at_, logWriteCheck, small, if_false] at panicked
    split at panicked
    · by_cases outside : s.log.outstanding < 1 <;> simp [outside] at panicked
    · cases panicked
  | _ => simp [step, at_] at panicked

-- A looser restriction on operations only removes refusals.
theorem step_mono (a b : Finset Nat → Prop) [DecidablePred a] [DecidablePred b]
    (weaker : ∀ blocks, a blocks → b blocks) (s : State N) (p : Fin N) (act : Act)
    (enabled : step a s p act ≠ .refused) : step b s p act = step a s p act := by
  cases at_ : s.phase p <;> cases act <;> simp only [step, at_] at enabled ⊢
  next blocks c =>
    by_cases small : a (insert c blocks) ∧ c < 2 ^ 32
    · have also : b (insert c blocks) ∧ c < 2 ^ 32 := ⟨weaker _ small.1, small.2⟩
      rw [if_pos small, if_pos also]
    · rw [if_neg small] at enabled
      exact absurd rfl enabled

theorem exec_mono (a b : Finset Nat → Prop) [DecidablePred a] [DecidablePred b]
    (weaker : ∀ blocks, a blocks → b blocks) (s t : State N) (events : List (Fin N × Act))
    (run : Run.exec (next a) s events = some t) : Run.exec (next b) s events = some t := by
  induction events generalizing s with
  | nil => exact run
  | cons event events ih =>
    rw [Run.exec_cons] at run ⊢
    cases moved : next a s event with
    | none => simp [moved] at run
    | some u =>
      have enabled : step a s event.1 event.2 ≠ .refused := by
        intro refused
        simp [next, refused, Outcome.state] at moved
      have same : next b s event = some u := by
        rw [next, step_mono a b weaker s event.1 event.2 enabled]
        exact moved
      rw [moved, Option.bind_some] at run
      rw [same, Option.bind_some]
      exact ih u run

def Outcome.why : Outcome N → Option LogStop
  | stopped why => some why
  | _ => none

-- Three operations enter an empty log and log 10, 10 and 9 different blocks.
def crowd : State 3 where
  log := ⟨2, nlog, 0, false, .empty⟩
  phase := fun _ => .idle
  wrote := []
  ended := []
  commits := []
  history := []

def crowdEvents : List (Fin 3 × Act) :=
  [(0, .beginOp), (0, .go), (1, .beginOp), (1, .go), (2, .beginOp), (2, .go)] ++
    (List.range 10).flatMap (fun b => [(0, .logWrite (100 + b)), (0, .go)]) ++
    (List.range 10).flatMap (fun b => [(1, .logWrite (110 + b)), (1, .go)]) ++
    (List.range 9).flatMap (fun b => [(2, .logWrite (120 + b)), (2, .go)])

theorem crowd_panics :
    (Run.exec (next (AtMost MAXOPBLOCKS)) crowd crowdEvents).map
        (fun s => (s.log.size, (step (AtMost MAXOPBLOCKS) s 2 (.logWrite 129)).why)) =
      some (nlog, some (.panic .tooBigTransaction)) := by
  decide +kernel

theorem crowd_reachable (m : Nat) (enough : MAXOPBLOCKS ≤ m) :
    ∃ s, Reachable (AtMost m) s ∧ s.log.size = nlog ∧
      step (AtMost m) s (2 : Fin 3) (.logWrite 129) = .stopped (.panic .tooBigTransaction) := by
  have weaker : ∀ blocks, AtMost MAXOPBLOCKS blocks → AtMost m blocks :=
    fun blocks small => le_trans small enough
  have evaluated := crowd_panics
  cases run : Run.exec (next (AtMost MAXOPBLOCKS)) crowd crowdEvents with
  | none => simp [run] at evaluated
  | some s =>
    simp only [run, Option.map_some, Option.some.injEq, Prod.mk.injEq] at evaluated
    obtain ⟨size, why⟩ := evaluated
    have initial : Initial crowd := by constructor <;> simp [crowd]
    refine ⟨s, ⟨crowd, crowdEvents, initial, exec_mono _ _ weaker _ _ _ run⟩, size, ?_⟩
    cases result : step (AtMost MAXOPBLOCKS) s 2 (.logWrite 129) with
    | stopped reason =>
      rw [step_mono _ _ weaker s 2 _ (by simp [result]), result]
      simpa [result, Outcome.why] using why
    | _ => simp [result, Outcome.why] at why

/-- With the log that `mkfs` makes, the reservation of `begin_op` keeps `log_write` from its panic
"too big a transaction" in every interleaving exactly when every operation logs fewer than
`MAXOPBLOCKS` different blocks. -/
theorem reservation_sufficient_iff (m : Nat) :
    (∀ (N : Nat) (s : State N), Reachable (AtMost m) s → s.log.size = nlog →
      ∀ p b, step (AtMost m) s p (.logWrite b) ≠ .stopped (.panic .tooBigTransaction)) ↔
      m < MAXOPBLOCKS := by
  constructor
  · intro safe
    by_contra enough
    obtain ⟨s, reached, size, panicked⟩ := crowd_reachable m (by omega)
    exact safe 3 s reached size 2 129 panicked
  · intro less N s reached size p b
    exact logWrite_fits m less s reached size p b

theorem reservation_insufficient :
    ¬ ∀ (N : Nat) (s : State N), Reachable (AtMost MAXOPBLOCKS) s → s.log.size = nlog →
      ∀ p b, step (AtMost MAXOPBLOCKS) s p (.logWrite b) ≠ .stopped (.panic .tooBigTransaction) := by
  intro safe
  obtain ⟨s, reached, size, panicked⟩ := crowd_reachable MAXOPBLOCKS (le_refl _)
  exact safe 3 s reached size 2 129 panicked

end Xv6.Group
