import Xv6.Param

set_option autoImplicit false

/-!
# The log and its sections

The in-memory state of `log.c` and the pieces of `begin_op`, `end_op` and `log_write` that run
under `log.lock`. How processes interleave them is the business of the group-commit model; what
`commit` does to the disk is the business of the crash model.
-/

namespace Xv6

-- The first `n` entries of the array `block`, which has room for `LOGSIZE` block numbers.
structure LogHeader where
  block : List Nat
  room : block.length ≤ LOGSIZE
  uint : ∀ b ∈ block, b < 2 ^ 32
deriving DecidableEq

namespace LogHeader

def n (lh : LogHeader) : Nat := lh.block.length

def empty : LogHeader := ⟨[], by decide, by simp⟩

-- The store `block[n] = b; n++`; a full header has no such array element.
def append (lh : LogHeader) (b : Nat) : Option LogHeader :=
  if fits : lh.block.length + 1 ≤ LOGSIZE ∧ b < 2 ^ 32 then
    some
      { block := lh.block ++ [b]
        room := by simpa using fits.1
        uint := by
          intro c member
          rcases List.mem_append.mp member with old | new
          · exact lh.uint c old
          · simpa [List.mem_singleton.mp new] using fits.2 }
  else none

theorem append_block (lh lh' : LogHeader) (b : Nat) (appended : lh.append b = some lh') :
    lh'.block = lh.block ++ [b] := by
  unfold append at appended
  split at appended
  · cases appended
    rfl
  · cases appended

end LogHeader

structure Log where
  start : Nat
  size : Nat
  outstanding : Int
  committing : Bool
  lh : LogHeader

inductive LogStop where
  | panic (p : Panic)
  -- A store past the end of `lh.block`.
  | overrun
deriving DecidableEq

-- The test of `begin_op` under `log.lock`; `none` puts the caller to sleep on `&log`.
def beginOp (log : Log) : Option Log :=
  if log.committing then none
  else if log.lh.n + (log.outstanding + 1) * MAXOPBLOCKS > LOGSIZE then
    -- this op might exhaust log space; wait for commit.
    none
  else some { log with outstanding := log.outstanding + 1 }

-- The first section of `end_op`. The flag is `do_commit`; without it the sleepers on `&log` are woken.
def endOp (log : Log) : Except LogStop (Log × Bool) :=
  if log.committing then .error (.panic .logCommitting)
  else if log.outstanding - 1 = 0 then
    .ok ({ log with outstanding := log.outstanding - 1, committing := true }, true)
  else .ok ({ log with outstanding := log.outstanding - 1 }, false)

-- The checks that `log_write` makes before it takes `log.lock`.
def logWriteCheck (log : Log) : Except LogStop Unit :=
  if log.lh.n ≥ LOGSIZE ∨ (log.lh.n : Int) ≥ (log.size : Int) - 1 then
    .error (.panic .tooBigTransaction)
  else if log.outstanding < 1 then .error (.panic .logWriteOutsideOfTrans)
  else .ok ()

-- The section of `log_write` under `log.lock`: a block that is logged already is absorbed.
def logWrite (log : Log) (blockno : Nat) : Except LogStop Log :=
  if blockno ∈ log.lh.block then .ok log
  else
    match log.lh.append blockno with
    | some lh => .ok { log with lh := lh }
    | none => .error .overrun

end Xv6
