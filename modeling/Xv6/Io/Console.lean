import Xv6.Lib.RingBuf
import Xv6.Lib.Run

set_option autoImplicit false

/-!
# Console input

`console.c`: the interrupt handler stores and edits characters in `input.buf`, the readers take them
out. Everything that reads or writes `input` runs under `cons.lock`. A call of `consoleintr` is one
step, and so is what a reader does from the entry of `consoleread` or from its wakeup to the next
`sleep` or to the return. The echo on the screen is left out.
-/

namespace Xv6.Console

def INPUT_BUF : Nat := 128

-- Control-x
def C (x : Char) : Nat := x.toNat - '@'.toNat

def newline : Nat := 10

def carriageReturn : Nat := 13

def DEL : Nat := 0x7f

structure Input where
  buf : Nat → UInt8
  -- Read index, write index, edit index.
  r : UInt32
  w : UInt32
  e : UInt32

namespace Input

-- `input.buf[input.e++ % INPUT_BUF] = c`
def put (i : Input) (c : UInt8) : Input :=
  { i with buf := Function.update i.buf (i.e.toNat % INPUT_BUF) c, e := i.e + 1 }

def commit (i : Input) : Input := { i with w := i.e }

def erase (i : Input) : Input := { i with e := i.e - 1 }

def next (i : Input) : UInt8 := i.buf (i.r.toNat % INPUT_BUF)

def drop (i : Input) : Input := { i with r := i.r + 1 }

def ring (i : Input) : RingBuf UInt8 := ⟨i.buf, i.r, i.e⟩

-- The committed bytes that nobody has read, and the line that is being edited.
def ready (i : Input) : List UInt8 := (RingBuf.mk i.buf i.r i.w).contents INPUT_BUF

def line (i : Input) : List UInt8 := (RingBuf.mk i.buf i.w i.e).contents INPUT_BUF

end Input

-- The loop of `^U`, which takes at most `fuel` rounds.
def killLine : Nat → Input → Input
  | 0, i => i
  | fuel + 1, i =>
    if i.e ≠ i.w ∧ i.buf ((i.e - 1).toNat % INPUT_BUF) ≠ UInt8.ofNat newline then killLine fuel i.erase else i

-- The variables of `consoleintr`. `committed` only records what the handler has handed to the readers.
structure Intr where
  input : Input
  doprocdump : Bool
  woken : Bool
  committed : List UInt8

-- One round of the loop, for the character that `getc` has returned.
def Intr.getc (s : Intr) (c : Nat) : Intr :=
  if c = C 'P' then { s with doprocdump := true }
  else if c = C 'U' then { s with input := killLine (s.input.e - s.input.w).toNat s.input }
  else if c = C 'H' ∨ c = DEL then
    if s.input.e ≠ s.input.w then { s with input := s.input.erase } else s
  else if c ≠ 0 ∧ s.input.e - s.input.r < UInt32.ofNat INPUT_BUF then
    let c := if c = carriageReturn then newline else c
    let i := s.input.put (UInt8.ofNat c)
    if c = newline ∨ c = C 'D' ∨ i.e = i.r + UInt32.ofNat INPUT_BUF then
      { s with input := i.commit, woken := true, committed := s.committed ++ i.line }
    else { s with input := i }
  else s

-- `cs` is what `getc` returns before it returns a negative number.
def consoleintr (i : Input) (cs : List Nat) : Intr := cs.foldl Intr.getc ⟨i, false, false, []⟩

/-- What a reader does between two sleeps. -/
structure Turn where
  input : Input
  n : Int
  -- What it stores at `dst`.
  bytes : List UInt8
  -- The value that the call returns; without one the reader sleeps on `&input.r`.
  result : Option Int

def readLoop (target : Int) (killed : Bool) : Nat → Input → Turn
  | 0, i => ⟨i, 0, [], some (target - 0)⟩
  | n + 1, i =>
    if i.r = i.w then ⟨i, n + 1, [], if killed then some (-1) else none⟩
    else
      let c := i.next
      let i := i.drop
      if c = UInt8.ofNat (C 'D') then
        -- Save ^D for next time, to make sure the caller gets a 0-byte result.
        let i := if (n + 1 : Int) < target then { i with r := i.r - 1 } else i
        ⟨i, n + 1, [], some (target - (n + 1))⟩
      else if c = UInt8.ofNat newline then ⟨i, n, [c], some (target - n)⟩
      else
        let later := readLoop target killed n i
        { later with bytes := c :: later.bytes }

-- `consoleread` at the head of its outer loop, with `n` bytes to go.
def consoleread (i : Input) (target n : Int) (killed : Bool) : Turn :=
  if n > 0 then readLoop target killed n.toNat i else ⟨i, n, [], some (target - n)⟩

section Machine

-- A call of `consoleread`; `id` only tells the calls apart.
structure Call where
  id : Nat
  target : Int
  n : Int
deriving DecidableEq

-- The last three fields only record what happened: the number of calls made, the bytes that have been
-- committed, and the bytes that have been delivered, each with its call.
structure State (P : Type) where
  input : Input
  call : P → Option Call
  asleep : P → Bool
  killed : P → Bool
  started : Nat
  committed : List UInt8
  taken : List (Nat × UInt8)

inductive Action (P : Type) where
  | consoleintr (cs : List Nat)
  | consoleread (p : P) (n : Int)
  | run (p : P)
  | kill (p : P)

variable {P : Type}

def State.turn (s : State P) (p : P) (call : Call) : Turn :=
  consoleread s.input call.target call.n (s.killed p)

/-- What the call has delivered so far. -/
def State.delivered (s : State P) (id : Nat) : List UInt8 :=
  (s.taken.filter (fun byte => byte.1 = id)).map Prod.snd

variable [DecidableEq P]

def step (s : State P) : Action P → Option (State P)
  | .consoleintr cs =>
    let intr := consoleintr s.input cs
    some { s with
      input := intr.input
      asleep := fun p => s.asleep p && !intr.woken
      committed := s.committed ++ intr.committed }
  | .consoleread p n =>
    match s.call p with
    | none => some { s with call := Function.update s.call p (some ⟨s.started, n, n⟩), started := s.started + 1 }
    | some _ => none
  | .run p =>
    match s.call p with
    | none => none
    | some call =>
      if s.asleep p then none
      else
        let t := s.turn p call
        some { s with
          input := t.input
          call := Function.update s.call p (if t.result = none then some { call with n := t.n } else none)
          asleep := Function.update s.asleep p t.result.isNone
          taken := s.taken ++ t.bytes.map fun b => (call.id, b) }
  -- kill() wakes a sleeper whatever it sleeps on
  | .kill p =>
    some { s with killed := Function.update s.killed p true, asleep := Function.update s.asleep p false }

-- Nothing has been typed, and nobody reads.
structure Initial (s : State P) : Prop where
  w : s.input.w = s.input.r
  e : s.input.e = s.input.r
  call : ∀ p, s.call p = none
  started : s.started = 0
  committed : s.committed = []
  taken : s.taken = []

def Reachable (s : State P) : Prop := ∃ start actions, Initial start ∧ Run.exec step start actions = some s

end Machine

end Xv6.Console
