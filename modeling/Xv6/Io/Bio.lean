import Xv6.Io.Memide
import Xv6.Lib.Circle

set_option autoImplicit false

/-!
# The buffer cache

`bio.c`, with any number of processes. A section under `bcache.lock`, from the entry of `bget` or from
a wakeup to the next `sleep` or to the return, is one step. A transfer by `iderw` is a step of the
process that holds the buffer. The clients are the callers of `bread`: they change buffers that they
hold, and do not release a changed one before they have passed it to `log_write` or `bwrite`.
-/

namespace Xv6.Bio

open Io

-- `none` is `&bcache.head`.
abbrev Node := Option BufId

structure Bcache where
  buf : BufId → Buf
  links : Links Node

-- The device number -1 of a buffer that has not been used.
abbrev NODEV : Nat := 2 ^ 32 - 1

def zeroBuf : Buf := ⟨false, false, false, 0, 0, fun _ => 0⟩

def Bcache.add (c : Bcache) (b : BufId) : Bcache where
  buf := Function.update c.buf b { c.buf b with dev := NODEV }
  links := c.links.insertFront none (some b)

def binit (links : Links Node) : Bcache :=
  (List.finRange NBUF).foldl Bcache.add
    { buf := fun _ => zeroBuf, links := (links.setPrev none none).setNext none none }

section Bget

-- The loops of `bget`. There is one turn for each buffer and one at the head.
def find (link : Node → Node) (p : BufId → Bool) : Option (Option BufId) :=
  (Links.scan link none (fun n => n.any p) (NBUF + 1) (link none)).map Option.join

inductive Outcome where
  | returned (b : BufId)
  | sleeps (b : BufId)
  | panics

def Bcache.setBuf (c : Bcache) (b : BufId) (v : Buf) : Bcache := { c with buf := Function.update c.buf b v }

-- Nothing is returned if a loop does not end.
def bget (c : Bcache) (dev blockno : Nat) : Option (Outcome × Bcache) := do
  -- Is the block already cached?
  match ← find c.links.next fun b => (c.buf b).dev = dev ∧ (c.buf b).blockno = blockno with
  | some b =>
    if (c.buf b).busy = false then pure (.returned b, c.setBuf b { c.buf b with busy := true })
    else pure (.sleeps b, c)
  | none =>
    -- Not cached; recycle some non-busy and clean buffer.
    match ← find c.links.prev fun b => (c.buf b).busy = false ∧ (c.buf b).dirty = false with
    | some b =>
      pure
        (.returned b,
          c.setBuf b
            { c.buf b with dev := dev, blockno := blockno, busy := true, valid := false, dirty := false })
    | none => pure (.panics, c)

end Bget

def breadRest (disksize : Nat) (m : Memory) (b : BufId) : Except Panic Memory :=
  if (m.buf b).valid = false then Memide.iderw disksize m b else .ok m

def bwrite (disksize : Nat) (m : Memory) (b : BufId) : Except Panic Memory :=
  if (m.buf b).busy = false then .error .bwrite
  else Memide.iderw disksize (m.setBuf b { m.buf b with dirty := true }) b

def brelse (c : Bcache) (b : BufId) : Except Panic Bcache :=
  if (c.buf b).busy = false then .error .brelse
  else
    .ok
      { buf := Function.update c.buf b { c.buf b with busy := false }
        links := (c.links.remove (some b)).insertFront none (some b) }

inductive Pc where
  | idle
  | getting (dev blockno : Nat)
  -- `bget` has returned `b`.
  | reading (dev blockno : Nat) (b : BufId)
deriving DecidableEq

-- `written` is the last write of a block, `touched` says that a buffer has been changed and not yet been
-- written, and `released` is the time of its last release, or 0.
structure State (P : Type) where
  cache : Bcache
  disk : Disk
  pc : P → Pc
  chan : P → Option BufId
  holds : P → BufId → Bool
  panic : Option Panic
  written : Nat → Nat → Option Block
  touched : BufId → Bool
  clock : Nat
  released : BufId → Nat

inductive Action (P : Type) where
  | bread (p : P) (dev blockno : Nat)
  | run (p : P)
  -- Something else wakes `p` up: a request on the same buffer has finished, or `kill`.
  | awaken (p : P)
  | modify (p : P) (b : BufId) (data : Block)
  | logWrite (p : P) (b : BufId)
  | bwrite (p : P) (b : BufId)
  | brelse (p : P) (b : BufId)

section Steps

variable {P : Type}

def init (links : Links Node) (disk : Disk) : State P where
  cache := binit links
  disk := disk
  pc _ := .idle
  chan _ := none
  holds _ _ := false
  panic := none
  written _ _ := none
  touched _ := false
  clock := 0
  released _ := 0

namespace State

variable (s : State P)

def buf (b : BufId) : Buf := s.cache.buf b

def memory : Memory := ⟨s.cache.buf, s.disk⟩

def setMemory (m : Memory) : State P := { s with cache := { s.cache with buf := m.buf }, disk := m.memdisk }

-- The bytes of the buffer are what has been written last to its block.
def write (b : BufId) : State P :=
  let v := s.buf b
  { s with
    written := fun dev n => if dev = v.dev ∧ n = v.blockno then some v.data else s.written dev n
    touched := Function.update s.touched b false }

end State

variable [DecidableEq P]

def State.hold (s : State P) (p : P) (b : BufId) (held : Bool) : State P :=
  { s with holds := fun q c => if q = p ∧ c = b then held else s.holds q c }

-- A client that is not in a call, with a buffer that it holds.
def State.Owns (s : State P) (p : P) (b : BufId) : Prop := s.pc p = .idle ∧ s.holds p b = true

instance (s : State P) (p : P) (b : BufId) : Decidable (s.Owns p b) := inferInstanceAs (Decidable (_ ∧ _))

def get (s : State P) (p : P) (dev blockno : Nat) : Option (State P) :=
  (bget s.cache dev blockno).map fun r =>
    match r.1 with
    | .returned b =>
      { s.hold p b true with cache := r.2, pc := Function.update s.pc p (.reading dev blockno b) }
    | .sleeps b => { s with chan := Function.update s.chan p (some b) }
    | .panics => { s with panic := some .bgetNoBuffers }

def step (disksize : Nat) (s : State P) (a : Action P) : Option (State P) :=
  if s.panic ≠ none then none
  else
    match a with
    | .bread p dev blockno =>
      if s.pc p = .idle then some { s with pc := Function.update s.pc p (.getting dev blockno) } else none
    | .run p =>
      if s.chan p ≠ none then none
      else
        match s.pc p with
        | .idle => none
        | .getting dev blockno => get s p dev blockno
        | .reading _ _ b =>
          match breadRest disksize s.memory b with
          | .error e => some { s with panic := some e }
          | .ok m => some { s.setMemory m with pc := Function.update s.pc p .idle }
    | .awaken p => some { s with chan := Function.update s.chan p none }
    | .modify p b data =>
      if s.Owns p b then
        some
          { s with
            cache := s.cache.setBuf b { s.buf b with data := data }
            touched := Function.update s.touched b true }
      else none
    | .logWrite p b =>
      if s.Owns p b then some { s.write b with cache := s.cache.setBuf b { s.buf b with dirty := true } } else none
    | .bwrite p b =>
      if s.Owns p b then
        match bwrite disksize s.memory b with
        | .error e => some { s with panic := some e }
        | .ok m => some ((s.write b).setMemory m)
      else none
    | .brelse p b =>
      if s.Owns p b ∧ s.touched b = false then
        match brelse s.cache b with
        | .error e => some { s with panic := some e }
        | .ok c =>
          some
            { s.hold p b false with
              cache := c
              chan := fun q => if s.chan q = some b then none else s.chan q
              clock := s.clock + 1
              released := Function.update s.released b (s.clock + 1) }
      else none

end Steps

end Xv6.Bio
