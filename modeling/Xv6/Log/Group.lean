import Xv6.Lib.Run
import Xv6.Log.Basic

set_option autoImplicit false

/-!
# Group commit

Any number of processes run `begin_op`, `log_write` and `end_op` against one log. A section under
`log.lock` is one step. `commit` runs without the lock, so each of its loop rounds is a step of its
own that reads the log as the other processes have left it.
-/

namespace Xv6.Group

inductive CommitPc where
  | test
  | writeLog (tail : Nat)
  | writeHead
  | install (tail : Nat)
  | clear
  | erase
deriving DecidableEq

inductive Phase where
  | idle
  -- Inside `begin_op`, about to take `log.lock`, or asleep on `&log`.
  | begin
  | asleep
  -- Between `begin_op` and `end_op`, with the blocks the operation has logged so far.
  | op (blocks : Finset Nat)
  -- Inside `log_write`, past the unlocked checks.
  | logging (blocks : Finset Nat) (b : Nat)
  | commit (pc : CommitPc)
  -- `commit` has returned; about to clear `log.committing`.
  | finish
deriving DecidableEq

namespace Phase

def inOp : Phase → Bool
  | op _ | logging _ _ => true
  | _ => false

def inCommit : Phase → Bool
  | commit _ | finish => true
  | _ => false

def blocks : Phase → Finset Nat
  | op blocks | logging blocks _ => blocks
  | _ => ∅

def wake : Phase → Phase
  | asleep => begin
  | phase => phase

end Phase

-- The home blocks that a commit wrote and the operations that had ended since the commit before it.
structure Commit where
  wrote : List Nat
  ops : List (Finset Nat)

-- The last four fields only record what happened: the home blocks written by the commit in progress,
-- the operations that wait for their commit, the commits done, and all operations ever ended.
structure State (N : Nat) where
  log : Log
  phase : Fin N → Phase
  wrote : List Nat
  ended : List (Finset Nat)
  commits : List Commit
  history : List (Finset Nat)

inductive Act where
  | beginOp
  | logWrite (b : Nat)
  | endOp
  -- Continue with the next section of the call in progress.
  | go

inductive Outcome (N : Nat) where
  | refused
  | stopped (why : LogStop)
  | next (s : State N)

def Outcome.state {N : Nat} : Outcome N → Option (State N)
  | next s => some s
  | _ => none

section Model

variable {N : Nat}

def State.move (s : State N) (p : Fin N) (phase : Phase) : State N :=
  { s with phase := Function.update s.phase p phase }

def State.wakeup (s : State N) : State N :=
  { s with phase := fun p => (s.phase p).wake }

def State.record (s : State N) (p : Fin N) : State N :=
  { s with
    phase := Function.update s.phase p .finish
    wrote := []
    ended := []
    commits := s.commits ++ [⟨s.wrote, s.ended⟩] }

-- One round of `commit`, with `n` and `block` read from the log as it is now.
def commitStep (s : State N) (p : Fin N) : CommitPc → State N
  | .test => if s.log.lh.n > 0 then s.move p (.commit (.writeLog 0)) else s.record p
  | .writeLog tail =>
    if tail < s.log.lh.n then s.move p (.commit (.writeLog (tail + 1))) else s.move p (.commit .writeHead)
  | .writeHead => s.move p (.commit (.install 0))
  | .install tail =>
    if tail < s.log.lh.n then
      { s.move p (.commit (.install (tail + 1))) with wrote := s.wrote ++ [s.log.lh.block.getD tail 0] }
    else s.move p (.commit .clear)
  | .clear => { s.move p (.commit .erase) with log := { s.log with lh := .empty } }
  | .erase => s.record p

variable (allowed : Finset Nat → Prop) [DecidablePred allowed]

-- `allowed` restricts the set of blocks that one operation may log.
def step (s : State N) (p : Fin N) (act : Act) : Outcome N :=
  match s.phase p, act with
  | .idle, .beginOp => .next (s.move p .begin)
  | .begin, .go =>
    match beginOp s.log with
    | none => .next (s.move p .asleep)
    | some log => .next { s.move p (.op ∅) with log := log }
  -- a sleeper may be woken at any time, for instance by kill()
  | .asleep, .go => .next (s.move p .begin)
  | .op blocks, .logWrite b =>
    if allowed (insert b blocks) ∧ b < 2 ^ 32 then
      match logWriteCheck s.log with
      | .error why => .stopped why
      | .ok _ => .next (s.move p (.logging blocks b))
    else .refused
  | .logging blocks b, .go =>
    match logWrite s.log b with
    | .error why => .stopped why
    | .ok log => .next { s.move p (.op (insert b blocks)) with log := log }
  | .op blocks, .endOp =>
    match endOp s.log with
    | .error why => .stopped why
    | .ok (log, true) =>
      .next { s.move p (.commit .test) with
        log := log
        ended := s.ended ++ [blocks]
        history := s.history ++ [blocks] }
    | .ok (log, false) =>
      .next { (s.move p .idle).wakeup with
        log := log
        ended := s.ended ++ [blocks]
        history := s.history ++ [blocks] }
  | .commit pc, .go => .next (commitStep s p pc)
  | .finish, .go => .next { (s.move p .idle).wakeup with log := { s.log with committing := false } }
  | _, _ => .refused

-- The log after `initlog` has recovered it, with no process in the file system.
structure Initial (s : State N) : Prop where
  idle : ∀ p, s.phase p = .idle
  outstanding : s.log.outstanding = 0
  committing : s.log.committing = false
  lh : s.log.lh = .empty
  wrote : s.wrote = []
  ended : s.ended = []
  commits : s.commits = []
  history : s.history = []

def next (s : State N) (event : Fin N × Act) : Option (State N) :=
  (step allowed s event.1 event.2).state

def Reachable (s : State N) : Prop :=
  ∃ start events, Initial start ∧ Run.exec (next allowed) start events = some s

end Model

end Xv6.Group
