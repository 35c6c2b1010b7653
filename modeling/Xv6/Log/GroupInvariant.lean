import Xv6.Log.Group

set_option autoImplicit false

namespace Xv6.Group

variable {N : Nat}

theorem beginOp_some (log log' : Log) (entered : beginOp log = some log') :
    log.committing = false ∧ (log.lh.n : Int) + (log.outstanding + 1) * MAXOPBLOCKS ≤ LOGSIZE ∧
      log' = { log with outstanding := log.outstanding + 1 } := by
  unfold beginOp at entered
  split_ifs at entered with busy full
  cases entered
  exact ⟨by simpa using busy, by omega, rfl⟩

theorem endOp_commit (log log' : Log) (ended : endOp log = .ok (log', true)) :
    log.committing = false ∧ log.outstanding = 1 ∧
      log' = { log with outstanding := 0, committing := true } := by
  unfold endOp at ended
  split_ifs at ended with busy last
  · have one : log.outstanding = 1 := by omega
    simp only [one, sub_self, Except.ok.injEq, Prod.mk.injEq, and_true] at ended
    exact ⟨by simpa using busy, one, ended.symm⟩
  · simp at ended

theorem endOp_leave (log log' : Log) (ended : endOp log = .ok (log', false)) :
    log.committing = false ∧ log.outstanding ≠ 1 ∧
      log' = { log with outstanding := log.outstanding - 1 } := by
  unfold endOp at ended
  split_ifs at ended with busy last
  · simp at ended
  · simp only [Except.ok.injEq, Prod.mk.injEq, and_true] at ended
    exact ⟨by simpa using busy, by omega, ended.symm⟩

theorem logWrite_ok (log log' : Log) (b : Nat) (written : logWrite log b = .ok log') :
    ∃ lh : LogHeader, log' = { log with lh := lh } ∧
      lh.block = if b ∈ log.lh.block then log.lh.block else log.lh.block ++ [b] := by
  unfold logWrite at written
  split_ifs at written with absorbed
  · cases written
    exact ⟨log.lh, rfl, by simp [absorbed]⟩
  · cases appended : log.lh.append b with
    | none => simp [appended] at written
    | some lh =>
      simp only [appended, Except.ok.injEq] at written
      exact ⟨lh, written.symm, by simp [absorbed, LogHeader.append_block _ _ _ appended]⟩

def weight (phase : Phase) : Int := if phase.inOp then 1 else 0

section Phases

variable (blocks : Finset Nat) (b : Nat) (pc : CommitPc) (phase : Phase)

@[simp] theorem weight_idle : weight .idle = 0 := rfl
@[simp] theorem weight_begin : weight .begin = 0 := rfl
@[simp] theorem weight_asleep : weight .asleep = 0 := rfl
@[simp] theorem weight_op : weight (.op blocks) = 1 := rfl
@[simp] theorem weight_logging : weight (.logging blocks b) = 1 := rfl
@[simp] theorem weight_commit : weight (.commit pc) = 0 := rfl
@[simp] theorem weight_finish : weight .finish = 0 := rfl

@[simp] theorem blocks_idle : Phase.idle.blocks = ∅ := rfl
@[simp] theorem blocks_begin : Phase.begin.blocks = ∅ := rfl
@[simp] theorem blocks_asleep : Phase.asleep.blocks = ∅ := rfl
@[simp] theorem blocks_op : (Phase.op blocks).blocks = blocks := rfl
@[simp] theorem blocks_logging : (Phase.logging blocks b).blocks = blocks := rfl

@[simp] theorem weight_wake : weight phase.wake = weight phase := by
  cases phase <;> rfl

@[simp] theorem inOp_wake : phase.wake.inOp = phase.inOp := by
  cases phase <;> rfl

@[simp] theorem inCommit_wake : phase.wake.inCommit = phase.inCommit := by
  cases phase <;> rfl

@[simp] theorem blocks_wake : phase.wake.blocks = phase.blocks := by
  cases phase <;> rfl

theorem weight_nonneg : 0 ≤ weight phase := by
  cases phase <;> simp

theorem blocks_of_not_inOp (out : phase.inOp = false) : phase.blocks = ∅ := by
  cases phase <;> first | rfl | cases out

theorem weight_of_not_inOp (out : phase.inOp = false) : weight phase = 0 := by
  simp [weight, out]

end Phases

inductive Moves (allowed : Finset Nat → Prop) (s : State N) (p : Fin N) : State N → Prop where
  | call (at_ : s.phase p = .idle) : Moves allowed s p (s.move p .begin)
  | sleep (at_ : s.phase p = .begin) (wait : beginOp s.log = none) : Moves allowed s p (s.move p .asleep)
  | enter (log : Log) (at_ : s.phase p = .begin) (entered : beginOp s.log = some log) :
      Moves allowed s p { s.move p (.op ∅) with log := log }
  | awake (at_ : s.phase p = .asleep) : Moves allowed s p (s.move p .begin)
  | check (blocks : Finset Nat) (b : Nat) (at_ : s.phase p = .op blocks)
      (small : allowed (insert b blocks)) (checked : logWriteCheck s.log = .ok ()) :
      Moves allowed s p (s.move p (.logging blocks b))
  | written (blocks : Finset Nat) (b : Nat) (log : Log) (at_ : s.phase p = .logging blocks b)
      (logged : logWrite s.log b = .ok log) :
      Moves allowed s p { s.move p (.op (insert b blocks)) with log := log }
  | leave (blocks : Finset Nat) (log : Log) (at_ : s.phase p = .op blocks)
      (left : endOp s.log = .ok (log, false)) :
      Moves allowed s p { (s.move p .idle).wakeup with
        log := log
        ended := s.ended ++ [blocks]
        history := s.history ++ [blocks] }
  | last (blocks : Finset Nat) (log : Log) (at_ : s.phase p = .op blocks)
      (left : endOp s.log = .ok (log, true)) :
      Moves allowed s p { s.move p (.commit .test) with
        log := log
        ended := s.ended ++ [blocks]
        history := s.history ++ [blocks] }
  | commit (pc : CommitPc) (at_ : s.phase p = .commit pc) : Moves allowed s p (commitStep s p pc)
  | finish (at_ : s.phase p = .finish) :
      Moves allowed s p { (s.move p .idle).wakeup with log := { s.log with committing := false } }

theorem step_moves (allowed : Finset Nat → Prop) [DecidablePred allowed] (s t : State N) (p : Fin N)
    (act : Act) (moved : step allowed s p act = .next t) : Moves allowed s p t := by
  unfold step at moved
  split at moved
  next at_ =>
    cases moved
    exact .call at_
  next at_ =>
    split at moved
    next wait =>
      cases moved
      exact .sleep at_ wait
    next log entered =>
      cases moved
      exact .enter log at_ entered
  next at_ =>
    cases moved
    exact .awake at_
  next blocks b at_ =>
    split at moved
    next small =>
      split at moved
      next => cases moved
      next checked =>
        cases moved
        exact .check blocks b at_ small.1 checked
    next => cases moved
  next blocks b at_ =>
    split at moved
    next => cases moved
    next log logged =>
      cases moved
      exact .written blocks b log at_ logged
  next blocks at_ =>
    split at moved
    next => cases moved
    next log left =>
      cases moved
      exact .last blocks log at_ left
    next log left =>
      cases moved
      exact .leave blocks log at_ left
  next pc at_ =>
    cases moved
    exact .commit pc at_
  next at_ =>
    cases moved
    exact .finish at_
  next => cases moved

-- The blocks in the log are those of the operations that wait for a commit.
def Pending (s : State N) : Prop := ∀ b, b ∈ s.log.lh.block ↔ ∃ o ∈ s.ended, b ∈ o

structure Open (s : State N) : Prop where
  flag : s.log.committing = false
  calm : ∀ p, (s.phase p).inCommit = false
  count : s.log.outstanding = ∑ p, weight (s.phase p)
  wrote : s.wrote = []
  logged : ∀ b, b ∈ s.log.lh.block ↔ (∃ o ∈ s.ended, b ∈ o) ∨ ∃ p, b ∈ (s.phase p).blocks
  drained : s.log.outstanding = 0 → s.log.lh.block = [] ∧ s.ended = []

def Stage (s : State N) : Phase → Prop
  | .commit (.install tail) => s.wrote = s.log.lh.block.take tail ∧ Pending s
  | .commit .clear => s.wrote = s.log.lh.block ∧ Pending s
  | .commit .erase => s.log.lh.block = [] ∧ ∀ b, b ∈ s.wrote ↔ ∃ o ∈ s.ended, b ∈ o
  | .commit _ => s.wrote = [] ∧ Pending s
  | .finish => s.wrote = [] ∧ s.log.lh.block = [] ∧ s.ended = []
  | _ => False

structure Closing (s : State N) (p : Fin N) : Prop where
  flag : s.log.committing = true
  outstanding : s.log.outstanding = 0
  others : ∀ q, q ≠ p → (s.phase q).inOp = false ∧ (s.phase q).inCommit = false
  stage : Stage s (s.phase p)

structure Inv (s : State N) : Prop where
  mode : Open s ∨ ∃ p, Closing s p
  commits : ∀ c ∈ s.commits, ∀ b, b ∈ c.wrote ↔ ∃ o ∈ c.ops, b ∈ o
  history : s.commits.flatMap (·.ops) ++ s.ended = s.history

theorem weight_move (s : State N) (p : Fin N) (phase : Phase) :
    (∑ q, weight ((s.move p phase).phase q)) + weight (s.phase p) =
      (∑ q, weight (s.phase q)) + weight phase :=
  Run.sum_update weight s.phase p phase

theorem blocks_move (s : State N) (p : Fin N) (phase : Phase) (b : Nat) :
    (∃ q, b ∈ ((s.move p phase).phase q).blocks) ↔
      b ∈ phase.blocks ∨ ∃ q, q ≠ p ∧ b ∈ (s.phase q).blocks := by
  constructor
  · rintro ⟨q, member⟩
    by_cases same : q = p
    · subst same
      left
      simpa [State.move] using member
    · right
      exact ⟨q, same, by simpa [State.move, Function.update_of_ne same] using member⟩
  · rintro (member | ⟨q, other, member⟩)
    · exact ⟨p, by simpa [State.move] using member⟩
    · exact ⟨q, by simpa [State.move, Function.update_of_ne other] using member⟩

theorem blocks_split (s : State N) (p : Fin N) (b : Nat) :
    (∃ q, b ∈ (s.phase q).blocks) ↔
      b ∈ (s.phase p).blocks ∨ ∃ q, q ≠ p ∧ b ∈ (s.phase q).blocks := by
  have same : s.move p (s.phase p) = s := by simp [State.move]
  have moved := blocks_move s p (s.phase p) b
  rwa [same] at moved

theorem Open.outstanding_nonneg {s : State N} (opened : Open s) : 0 ≤ s.log.outstanding := by
  rw [opened.count]
  exact Finset.sum_nonneg (fun p _ => weight_nonneg (s.phase p))

theorem Open.outstanding_pos {s : State N} (opened : Open s) (p : Fin N)
    (inside : weight (s.phase p) = 1) : 1 ≤ s.log.outstanding := by
  have single := Finset.single_le_sum (f := fun q => weight (s.phase q))
    (fun q _ => weight_nonneg (s.phase q)) (Finset.mem_univ p)
  rw [opened.count]
  simpa [inside] using single

theorem Open.advance {s : State N} (opened : Open s) (p : Fin N) (phase : Phase) (log : Log)
    (ended history : List (Finset Nat)) (calm : phase.inCommit = false)
    (flag : log.committing = false)
    (count : log.outstanding + weight (s.phase p) = s.log.outstanding + weight phase)
    (logged : ∀ b, b ∈ log.lh.block ↔ (∃ o ∈ ended, b ∈ o) ∨
      b ∈ phase.blocks ∨ ∃ q, q ≠ p ∧ b ∈ (s.phase q).blocks)
    (drained : log.outstanding = 0 → log.lh.block = [] ∧ ended = []) :
    Open { s.move p phase with log := log, ended := ended, history := history } where
  flag := flag
  calm := by
    intro q
    by_cases same : q = p
    · simp [State.move, same, calm]
    · simpa [State.move, Function.update_of_ne same] using opened.calm q
  count := by
    have moved := weight_move s p phase
    have before := opened.count
    change log.outstanding = ∑ q, weight ((s.move p phase).phase q)
    omega
  wrote := opened.wrote
  logged := by
    intro b
    rw [logged b, ← blocks_move]
  drained := drained

theorem Open.wakeup {s : State N} (opened : Open s) : Open s.wakeup where
  flag := opened.flag
  calm := by simpa [State.wakeup] using opened.calm
  count := by simpa [State.wakeup] using opened.count
  wrote := opened.wrote
  logged := by simpa [State.wakeup] using opened.logged
  drained := opened.drained

theorem Open.quiet {s : State N} (opened : Open s) (p : Fin N) (phase : Phase)
    (out : (s.phase p).inOp = false) (stays : phase.inOp = false) (calm : phase.inCommit = false) :
    Open (s.move p phase) := by
  refine opened.advance p phase s.log s.ended s.history calm opened.flag ?_ ?_ opened.drained
  · rw [weight_of_not_inOp _ out, weight_of_not_inOp _ stays]
  · intro b
    have before := opened.logged b
    rw [blocks_split s p b, blocks_of_not_inOp _ out] at before
    rw [blocks_of_not_inOp _ stays]
    exact before

theorem Closing.quiet {s : State N} {p : Fin N} (closing : Closing s p) (q : Fin N) (phase : Phase)
    (other : q ≠ p) (stays : phase.inOp = false) (calm : phase.inCommit = false) :
    Closing (s.move q phase) p where
  flag := closing.flag
  outstanding := closing.outstanding
  others := by
    intro r apart
    by_cases same : r = q
    · simp [State.move, same, stays, calm]
    · simpa [State.move, Function.update_of_ne same] using closing.others r apart
  stage := by
    have kept : (s.move q phase).phase p = s.phase p := by
      simp [State.move, Function.update_of_ne other.symm]
    rw [kept]
    exact closing.stage

theorem Closing.inCommit {s : State N} {p : Fin N} (closing : Closing s p) :
    (s.phase p).inCommit = true := by
  have stage := closing.stage
  cases at_ : s.phase p <;> simp_all [Phase.inCommit, Stage]

-- A process inside an operation and a process inside `commit` exclude each other.
theorem Inv.open_of_inOp {s : State N} (inv : Inv s) (p : Fin N) (inside : (s.phase p).inOp = true) :
    Open s := by
  rcases inv.mode with opened | ⟨q, closing⟩
  · exact opened
  · by_cases same : p = q
    · have committing := closing.inCommit
      rw [← same] at committing
      cases at_ : s.phase p <;> simp_all [Phase.inOp, Phase.inCommit]
    · have out := (closing.others p same).1
      simp [inside] at out

theorem Inv.closing_of_inCommit {s : State N} (inv : Inv s) (p : Fin N)
    (inside : (s.phase p).inCommit = true) : Closing s p := by
  rcases inv.mode with opened | ⟨q, closing⟩
  · have calm := opened.calm p
    simp [inside] at calm
  · by_cases same : p = q
    · rw [same]
      exact closing
    · have out := (closing.others p same).2
      simp [inside] at out

theorem Inv.quiet {s : State N} (inv : Inv s) (p : Fin N) (phase : Phase)
    (out : (s.phase p).inOp = false) (outside : (s.phase p).inCommit = false)
    (stays : phase.inOp = false) (calm : phase.inCommit = false) : Inv (s.move p phase) where
  mode := by
    rcases inv.mode with opened | ⟨q, closing⟩
    · exact Or.inl (opened.quiet p phase out stays calm)
    · right
      refine ⟨q, closing.quiet p phase ?_ stays calm⟩
      intro same
      have committing := closing.inCommit
      rw [← same, outside] at committing
      cases committing
  commits := inv.commits
  history := inv.history

theorem Open.enter {s : State N} (opened : Open s) (p : Fin N) (log : Log)
    (at_ : s.phase p = .begin) (entered : beginOp s.log = some log) :
    Open { s.move p (.op ∅) with log := log } := by
  obtain ⟨-, -, rfl⟩ := beginOp_some s.log log entered
  have nonneg := opened.outstanding_nonneg
  refine opened.advance p (.op ∅) _ s.ended s.history rfl opened.flag ?_ ?_ ?_
  · simp [at_]
  · intro b
    have before := opened.logged b
    rw [blocks_split s p b, at_] at before
    exact before
  · intro zero
    simp only at zero
    omega

theorem Open.check {s : State N} (opened : Open s) (p : Fin N) (blocks : Finset Nat) (b : Nat)
    (at_ : s.phase p = .op blocks) : Open (s.move p (.logging blocks b)) := by
  refine opened.advance p (.logging blocks b) s.log s.ended s.history rfl opened.flag ?_ ?_ opened.drained
  · simp [at_]
  · intro c
    have before := opened.logged c
    rw [blocks_split s p c, at_] at before
    exact before

theorem mem_logged (log : Log) (lh : LogHeader) (b c : Nat)
    (entries : lh.block = if b ∈ log.lh.block then log.lh.block else log.lh.block ++ [b]) :
    c ∈ lh.block ↔ c = b ∨ c ∈ log.lh.block := by
  rw [entries]
  split
  next absorbed =>
    constructor
    · exact Or.inr
    · rintro (rfl | old)
      · exact absorbed
      · exact old
  next => simp [or_comm]

theorem Open.written {s : State N} (opened : Open s) (p : Fin N) (blocks : Finset Nat) (b : Nat)
    (log : Log) (at_ : s.phase p = .logging blocks b) (logged : logWrite s.log b = .ok log) :
    Open { s.move p (.op (insert b blocks)) with log := log } := by
  obtain ⟨lh, rfl, entries⟩ := logWrite_ok s.log log b logged
  have positive := opened.outstanding_pos p (by simp [at_])
  refine opened.advance p (.op (insert b blocks)) _ s.ended s.history rfl opened.flag ?_ ?_ ?_
  · simp [at_]
  · intro c
    have before := opened.logged c
    rw [blocks_split s p c, at_, blocks_logging] at before
    rw [mem_logged s.log lh b c entries, before, blocks_op, Finset.mem_insert]
    simp only [or_assoc, or_left_comm]
  · intro zero
    simp only at zero
    omega

theorem Open.leave {s : State N} (opened : Open s) (p : Fin N) (blocks : Finset Nat) (log : Log)
    (at_ : s.phase p = .op blocks) (left : endOp s.log = .ok (log, false)) :
    Open { (s.move p .idle).wakeup with
      log := log
      ended := s.ended ++ [blocks]
      history := s.history ++ [blocks] } := by
  obtain ⟨-, more, rfl⟩ := endOp_leave s.log log left
  have advanced := opened.advance p .idle { s.log with outstanding := s.log.outstanding - 1 }
    (s.ended ++ [blocks]) (s.history ++ [blocks]) rfl opened.flag (by simp [at_]) (by
      intro b
      have before := opened.logged b
      rw [blocks_split s p b, at_, blocks_op] at before
      simp only [before, blocks_idle, List.mem_append, List.mem_singleton]
      constructor
      · rintro (⟨o, member, inside⟩ | inside | others)
        · exact Or.inl ⟨o, Or.inl member, inside⟩
        · exact Or.inl ⟨blocks, Or.inr rfl, inside⟩
        · exact Or.inr (Or.inr others)
      · rintro (⟨o, member | rfl, inside⟩ | nothing | others)
        · exact Or.inl ⟨o, member, inside⟩
        · exact Or.inr (Or.inl inside)
        · simp at nothing
        · exact Or.inr (Or.inr others)) (by
      intro zero
      simp only at zero
      omega)
  exact advanced.wakeup

-- The last operation ends: nobody else is inside one, and the log holds what the ended ones logged.
theorem Open.last {s : State N} (opened : Open s) (p : Fin N) (blocks : Finset Nat) (log : Log)
    (at_ : s.phase p = .op blocks) (left : endOp s.log = .ok (log, true)) :
    Closing { s.move p (.commit .test) with
      log := log
      ended := s.ended ++ [blocks]
      history := s.history ++ [blocks] } p := by
  obtain ⟨-, one, rfl⟩ := endOp_commit s.log log left
  have alone : ∀ q, q ≠ p → (s.phase q).inOp = false := by
    intro q other
    by_contra inside
    have two : weight (s.phase p) + weight (s.phase q) ≤ ∑ r, weight (s.phase r) := by
      have pair := Finset.sum_le_sum_of_subset_of_nonneg (f := fun r => weight (s.phase r))
        (Finset.subset_univ {p, q}) (fun r _ _ => weight_nonneg (s.phase r))
      rwa [Finset.sum_pair other.symm] at pair
    rw [← opened.count, one, at_, weight_op] at two
    simp only [weight, Bool.not_eq_false] at inside two
    simp [inside] at two
  constructor
  · rfl
  · rfl
  · intro q other
    have inside := alone q other
    have calm := opened.calm q
    simp [State.move, Function.update_of_ne other, inside, calm]
  · have here : (s.move p (.commit .test)).phase p = .commit .test := by simp [State.move]
    simp only [here, Stage]
    refine ⟨opened.wrote, ?_⟩
    intro b
    have before := opened.logged b
    rw [blocks_split s p b, at_, blocks_op] at before
    have nobody : ¬ ∃ q, q ≠ p ∧ b ∈ (s.phase q).blocks := by
      rintro ⟨q, other, member⟩
      rw [blocks_of_not_inOp _ (alone q other)] at member
      simp at member
    simp only [nobody, or_false] at before
    change b ∈ s.log.lh.block ↔ ∃ o ∈ s.ended ++ [blocks], b ∈ o
    rw [before]
    simp only [List.mem_append, List.mem_singleton]
    constructor
    · rintro (⟨o, member, inside⟩ | inside)
      · exact ⟨o, Or.inl member, inside⟩
      · exact ⟨blocks, Or.inr rfl, inside⟩
    · rintro ⟨o, member | rfl, inside⟩
      · exact Or.inl ⟨o, member, inside⟩
      · exact Or.inr inside

theorem Closing.advance {s : State N} {p : Fin N} (closing : Closing s p) (t : State N) (phase : Phase)
    (at_ : t.phase = Function.update s.phase p phase) (flag : t.log.committing = true)
    (outstanding : t.log.outstanding = 0) (stage : Stage t phase) : Closing t p where
  flag := flag
  outstanding := outstanding
  others := by
    intro q other
    rw [at_, Function.update_of_ne other]
    exact closing.others q other
  stage := by
    rw [at_, Function.update_self]
    exact stage

theorem Closing.record {s : State N} {p : Fin N} (closing : Closing s p)
    (empty : s.log.lh.block = []) : Closing (s.record p) p :=
  closing.advance _ .finish rfl closing.flag closing.outstanding ⟨rfl, empty, rfl⟩

theorem Inv.commitStep {s : State N} (inv : Inv s) (p : Fin N) (pc : CommitPc)
    (at_ : s.phase p = .commit pc) : Inv (commitStep s p pc) := by
  have closing := inv.closing_of_inCommit p (by simp [at_, Phase.inCommit])
  have stage := closing.stage
  rw [at_] at stage
  -- a commit is recorded with exactly the blocks that its operations had logged
  have recorded (empty : s.log.lh.block = [])
      (exact_ : ∀ b, b ∈ s.wrote ↔ ∃ o ∈ s.ended, b ∈ o) : Inv (s.record p) := by
    refine ⟨Or.inr ⟨p, closing.record empty⟩, ?_, ?_⟩
    · intro c member
      simp only [State.record, List.mem_append, List.mem_singleton] at member
      rcases member with old | rfl
      · exact inv.commits c old
      · exact exact_
    · have before := inv.history
      simpa [State.record, List.flatMap_append] using before
  have moved (t : State N) (phase : Phase) (place : t.phase = Function.update s.phase p phase)
      (flag : t.log.committing = true) (outstanding : t.log.outstanding = 0)
      (kept : t.commits = s.commits ∧ t.ended = s.ended ∧ t.history = s.history)
      (reached : Stage t phase) : Inv t := by
    refine ⟨Or.inr ⟨p, closing.advance t phase place flag outstanding reached⟩, ?_, ?_⟩
    · rw [kept.1]
      exact inv.commits
    · rw [kept.1, kept.2.1, kept.2.2]
      exact inv.history
  cases pc with
  | test =>
    obtain ⟨fresh, pending⟩ := stage
    by_cases some : s.log.lh.n > 0
    · simp only [Group.commitStep, some, if_true]
      exact moved _ (.commit (.writeLog 0)) rfl closing.flag closing.outstanding ⟨rfl, rfl, rfl⟩
        ⟨fresh, pending⟩
    · simp only [Group.commitStep, some, if_false]
      have empty : s.log.lh.block = [] := by
        have zero : s.log.lh.block.length = 0 := by simpa [LogHeader.n] using some
        simpa using zero
      apply recorded empty
      intro b
      have unlogged := pending b
      rw [empty] at unlogged
      rw [fresh]
      exact unlogged
  | writeLog tail =>
    by_cases more : tail < s.log.lh.n
    · simp only [Group.commitStep, more, if_true]
      exact moved _ (.commit (.writeLog (tail + 1))) rfl closing.flag closing.outstanding
        ⟨rfl, rfl, rfl⟩ stage
    · simp only [Group.commitStep, more, if_false]
      exact moved _ (.commit .writeHead) rfl closing.flag closing.outstanding ⟨rfl, rfl, rfl⟩ stage
  | writeHead =>
    obtain ⟨fresh, pending⟩ := stage
    exact moved _ (.commit (.install 0)) rfl closing.flag closing.outstanding ⟨rfl, rfl, rfl⟩
      ⟨fresh.trans (by simp), pending⟩
  | install tail =>
    obtain ⟨installed, pending⟩ := stage
    by_cases more : tail < s.log.lh.n
    · simp only [Group.commitStep, more, if_true]
      refine moved _ (.commit (.install (tail + 1))) rfl closing.flag closing.outstanding
        ⟨rfl, rfl, rfl⟩ ⟨?_, pending⟩
      have bound : tail < s.log.lh.block.length := more
      change s.wrote ++ [s.log.lh.block.getD tail 0] = s.log.lh.block.take (tail + 1)
      rw [installed, List.getD_eq_getElem _ _ bound, List.take_append_getElem bound]
    · simp only [Group.commitStep, more, if_false]
      refine moved _ (.commit .clear) rfl closing.flag closing.outstanding ⟨rfl, rfl, rfl⟩ ⟨?_, pending⟩
      change s.wrote = s.log.lh.block
      rw [installed]
      exact List.take_of_length_le (by simpa [LogHeader.n] using more)
  | clear =>
    obtain ⟨installed, pending⟩ := stage
    refine moved _ (.commit .erase) rfl closing.flag closing.outstanding ⟨rfl, rfl, rfl⟩ ⟨rfl, ?_⟩
    intro b
    change b ∈ s.wrote ↔ _
    rw [installed]
    exact pending b
  | erase => exact recorded stage.1 stage.2

theorem Closing.finish {s : State N} {p : Fin N} (closing : Closing s p) (at_ : s.phase p = .finish) :
    Open { (s.move p .idle).wakeup with log := { s.log with committing := false } } := by
  have stage := closing.stage
  rw [at_] at stage
  obtain ⟨wrote, empty, ended⟩ := stage
  have quiet : ∀ q, ((s.move p .idle).phase q).inOp = false ∧
      ((s.move p .idle).phase q).inCommit = false := by
    intro q
    by_cases same : q = p
    · simp [State.move, same, Phase.inOp, Phase.inCommit]
    · simpa [State.move, Function.update_of_ne same] using closing.others q same
  constructor
  · rfl
  · intro q
    simpa [State.wakeup] using (quiet q).2
  · have none : ∑ q, weight ((s.move p .idle).phase q) = 0 :=
      Finset.sum_eq_zero (fun q _ => weight_of_not_inOp _ (quiet q).1)
    simpa [State.wakeup, closing.outstanding] using none.symm
  · exact wrote
  · intro b
    have nobody (q : Fin N) : b ∉ ((s.move p .idle).phase q).blocks := by
      simp [blocks_of_not_inOp _ (quiet q).1]
    have unlogged : b ∉ s.log.lh.block := by simp [empty]
    simp [State.wakeup, State.move, unlogged, ended]
    simpa [State.move] using nobody
  · intro _
    exact ⟨empty, ended⟩

theorem moves_inv (allowed : Finset Nat → Prop) (s t : State N) (p : Fin N)
    (moves : Moves allowed s p t) (inv : Inv s) : Inv t := by
  have appended (blocks : Finset Nat) :
      s.commits.flatMap (·.ops) ++ (s.ended ++ [blocks]) = s.history ++ [blocks] := by
    rw [← List.append_assoc, inv.history]
  cases moves with
  | call at_ => exact inv.quiet p .begin (by simp [at_, Phase.inOp]) (by simp [at_, Phase.inCommit]) rfl rfl
  | sleep at_ wait =>
    exact inv.quiet p .asleep (by simp [at_, Phase.inOp]) (by simp [at_, Phase.inCommit]) rfl rfl
  | enter log at_ entered =>
    refine ⟨Or.inl ?_, inv.commits, inv.history⟩
    rcases inv.mode with opened | ⟨q, closing⟩
    · exact opened.enter p log at_ entered
    · have free := (beginOp_some s.log log entered).1
      simp [closing.flag] at free
  | awake at_ => exact inv.quiet p .begin (by simp [at_, Phase.inOp]) (by simp [at_, Phase.inCommit]) rfl rfl
  | check blocks b at_ small checked =>
    have opened := inv.open_of_inOp p (by simp [at_, Phase.inOp])
    exact ⟨Or.inl (opened.check p blocks b at_), inv.commits, inv.history⟩
  | written blocks b log at_ logged =>
    have opened := inv.open_of_inOp p (by simp [at_, Phase.inOp])
    exact ⟨Or.inl (opened.written p blocks b log at_ logged), inv.commits, inv.history⟩
  | leave blocks log at_ left =>
    have opened := inv.open_of_inOp p (by simp [at_, Phase.inOp])
    exact ⟨Or.inl (opened.leave p blocks log at_ left), inv.commits, appended blocks⟩
  | last blocks log at_ left =>
    have opened := inv.open_of_inOp p (by simp [at_, Phase.inOp])
    exact ⟨Or.inr ⟨p, opened.last p blocks log at_ left⟩, inv.commits, appended blocks⟩
  | commit pc at_ => exact inv.commitStep p pc at_
  | finish at_ =>
    have closing := inv.closing_of_inCommit p (by simp [at_, Phase.inCommit])
    exact ⟨Or.inl (closing.finish at_), inv.commits, inv.history⟩

theorem initial_inv (s : State N) (initial : Initial s) : Inv s where
  mode := by
    left
    constructor
    · exact initial.committing
    · intro p
      simp [initial.idle p, Phase.inCommit]
    · simp [initial.outstanding, initial.idle]
    · exact initial.wrote
    · simp [initial.lh, LogHeader.empty, initial.ended, initial.idle]
    · simp [initial.lh, LogHeader.empty, initial.ended]
  commits := by simp [initial.commits]
  history := by simp [initial.commits, initial.ended, initial.history]

theorem next_moves (allowed : Finset Nat → Prop) [DecidablePred allowed] (s t : State N)
    (event : Fin N × Act) (moved : next allowed s event = some t) : Moves allowed s event.1 t := by
  unfold next at moved
  cases result : step allowed s event.1 event.2 with
  | refused => simp [result, Outcome.state] at moved
  | stopped why => simp [result, Outcome.state] at moved
  | next u =>
    simp only [result, Outcome.state, Option.some.injEq] at moved
    subst moved
    exact step_moves allowed s u event.1 event.2 result

theorem reachable_inv (allowed : Finset Nat → Prop) [DecidablePred allowed] (s : State N)
    (reached : Reachable allowed s) : Inv s := by
  obtain ⟨start, events, initial, run⟩ := reached
  exact Run.exec_invariant (next allowed) Inv
    (fun s event t inv moved => moves_inv allowed s t event.1 (next_moves allowed s t event moved) inv)
    start s events (initial_inv start initial) run

/-- The group-commit protocol, in every state of every interleaving: `commit` runs only with
`outstanding = 0`, nobody is inside an operation while `committing` is set, `end_op` does not panic,
every commit has written exactly the blocks logged by the operations that ended since the commit
before it, and each ended operation belongs to one commit or waits for the next. -/
theorem group_commit (s : State N) (reached : Reachable (fun _ => True) s) :
    (∀ p, (s.phase p).inCommit = true → s.log.outstanding = 0) ∧
      (∀ p, (s.phase p).inOp = true → s.log.committing = false) ∧
      (∀ p, step (fun _ => True) s p .endOp ≠ .stopped (.panic .logCommitting)) ∧
      (∀ c ∈ s.commits, ∀ b, b ∈ c.wrote ↔ ∃ o ∈ c.ops, b ∈ o) ∧
      s.commits.flatMap (·.ops) ++ s.ended = s.history := by
  have inv := reachable_inv _ s reached
  refine ⟨?_, ?_, ?_, inv.commits, inv.history⟩
  · intro p inside
    exact (inv.closing_of_inCommit p inside).outstanding
  · intro p inside
    exact (inv.open_of_inOp p inside).flag
  · intro p panicked
    cases at_ : s.phase p with
    | op blocks =>
      have free := (inv.open_of_inOp p (by simp [at_, Phase.inOp])).flag
      by_cases last : s.log.outstanding - 1 = 0 <;> simp [step, at_, endOp, free, last] at panicked
    | _ => simp [step, at_] at panicked

def solo : State 1 where
  log := ⟨2, 30, 0, false, .empty⟩
  phase := fun _ => .idle
  wrote := []
  ended := []
  commits := []
  history := []

-- One operation logs block 40 and runs its commit up to the record of the blocks written.
def soloEvents : List (Fin 1 × Act) :=
  [.beginOp, .go, .logWrite 40, .go, .endOp, .go, .go, .go, .go, .go, .go, .go, .go].map (fun act => (0, act))

theorem solo_commits :
    (Run.exec (next (fun _ => True)) solo soloEvents).map (fun s => s.commits.map (·.wrote)) =
      some [[40]] := by
  decide +kernel

theorem group_commit_solo :
    ∃ s : State 1, Reachable (fun _ => True) s ∧ s.commits.map (·.wrote) = [[40]] ∧
      ∀ c ∈ s.commits, ∀ b, b ∈ c.wrote ↔ ∃ o ∈ c.ops, b ∈ o := by
  have evaluated := solo_commits
  cases run : Run.exec (next (fun _ => True)) solo soloEvents with
  | none => simp [run] at evaluated
  | some s =>
    have initial : Initial solo := by constructor <;> simp [solo]
    have reached : Reachable (fun _ => True) s := ⟨solo, soloEvents, initial, run⟩
    exact ⟨s, reached, by simpa [run] using evaluated, (group_commit s reached).2.2.2.1⟩

end Xv6.Group
