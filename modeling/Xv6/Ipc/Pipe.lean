import Xv6.Lib.RingBuf
import Xv6.Lib.Run
import Xv6.Param

set_option autoImplicit false

/-!
# Pipes

`pipe.c`, with any number of processes. What a process does under `p->lock`, from the entry of a
call or from its wakeup to the next `sleep` or to the return, is one step. `kill` takes another
lock and comes between such steps.
-/

namespace Xv6.Ipc

structure Pipe where
  data : Nat → UInt8
  nread : UInt32
  nwrite : UInt32
  readopen : Bool
  writeopen : Bool

namespace Pipe

def ring (q : Pipe) : RingBuf UInt8 := ⟨q.data, q.nread, q.nwrite⟩

def Empty (q : Pipe) : Prop := q.nread = q.nwrite

def Full (q : Pipe) : Prop := q.nwrite = q.nread + UInt32.ofNat PIPESIZE

instance (q : Pipe) : Decidable q.Empty := inferInstanceAs (Decidable (_ = _))

instance (q : Pipe) : Decidable q.Full := inferInstanceAs (Decidable (_ = _))

-- The bytes in the buffer, the next one to be read first.
def contents (q : Pipe) : List UInt8 := q.ring.contents PIPESIZE

-- The store `p->data[p->nwrite++ % PIPESIZE] = b`.
def put (q : Pipe) (b : UInt8) : Pipe :=
  { q with data := Function.update q.data (q.nwrite.toNat % PIPESIZE) b, nwrite := q.nwrite + 1 }

-- The load `p->data[p->nread++ % PIPESIZE]`.
def next (q : Pipe) : UInt8 := q.data (q.nread.toNat % PIPESIZE)

def drop (q : Pipe) : Pipe := { q with nread := q.nread + 1 }

end Pipe

-- The loop of `pipewrite` as far as there is room, with what is left to write.
def copyIn : List UInt8 → Pipe → List UInt8 × Pipe
  | [], q => ([], q)
  | b :: rest, q => if q.Full then (b :: rest, q) else copyIn rest (q.put b)

def copyOut : Nat → Pipe → List UInt8 × Pipe
  | 0, q => ([], q)
  | n + 1, q =>
    if q.Empty then ([], q)
    else
      let later := copyOut n q.drop
      (q.next :: later.1, later.2)

inductive Chan where
  | nread
  | nwrite
deriving DecidableEq

/-- What a process does between two sleeps. -/
structure Turn where
  -- The value that the call returns; without one the process sleeps.
  result : Option Int
  woken : Option Chan
  -- What is left to write, or what has been read.
  bytes : List UInt8
  pipe : Pipe

-- `rest` is what is left of the `n` bytes.
def pipewrite (q : Pipe) (rest : List UInt8) (n : Int) (killed : Bool) : Turn :=
  let copied := copyIn rest q
  if copied.1 = [] then ⟨some n, some .nread, copied.1, copied.2⟩
  else if q.readopen = false ∨ killed then ⟨some (-1), none, copied.1, copied.2⟩
  else ⟨none, some .nread, copied.1, copied.2⟩

def piperead (q : Pipe) (n : Int) (killed : Bool) : Turn :=
  if q.Empty ∧ q.writeopen then
    if killed then ⟨some (-1), none, [], q⟩ else ⟨none, none, [], q⟩
  else
    let copied := copyOut n.toNat q
    ⟨some copied.1.length, some .nwrite, copied.1, copied.2⟩

inductive Pc where
  | idle
  | reading (n : Int)
  | writing (rest : List UInt8) (n : Int)

-- `chan p` is the channel that `p` sleeps on. `stored` and `taken` are all bytes that went in and out.
structure State (P : Type) where
  pipe : Pipe
  pc : P → Pc
  chan : P → Option Chan
  killed : P → Bool
  freed : Bool
  stored : List UInt8
  taken : List UInt8

inductive Action (P : Type) where
  | piperead (p : P) (n : Int)
  | pipewrite (p : P) (addr : Nat → UInt8) (n : Int)
  | run (p : P)
  | pipeclose (writable : Bool)
  | kill (p : P)

section Steps

variable {P : Type}

def wakeup (c : Option Chan) (chan : P → Option Chan) (p : P) : Option Chan :=
  if chan p = c then none else chan p

-- The state after `pipealloc`, in a page with any contents.
def init (data : Nat → UInt8) : State P where
  pipe := ⟨data, 0, 0, true, true⟩
  pc _ := .idle
  chan _ := none
  killed _ := false
  freed := false
  stored := []
  taken := []

def close (q : Pipe) (writable : Bool) : Pipe :=
  if writable then { q with writeopen := false } else { q with readopen := false }

variable [DecidableEq P]

-- Process `p` has had its turn. It sleeps on `ch` with `pc` left to do, or has returned.
def State.after (s : State P) (p : P) (t : Turn) (pc : Pc) (ch : Chan) : State P :=
  { s with
    pipe := t.pipe
    pc := Function.update s.pc p (if t.result = none then pc else .idle)
    chan := Function.update (wakeup t.woken s.chan) p (if t.result = none then some ch else none) }

def step (s : State P) : Action P → Option (State P)
  | .piperead p n =>
    match s.pc p with
    | .idle => some { s with pc := Function.update s.pc p (.reading n) }
    | _ => none
  | .pipewrite p addr n =>
    match s.pc p with
    | .idle => some { s with pc := Function.update s.pc p (.writing ((List.range n.toNat).map addr) n) }
    | _ => none
  | .run p =>
    -- A page that has been freed is no pipe any more.
    if s.chan p ≠ none ∨ s.freed then none
    else
      match s.pc p with
      | .idle => none
      | .reading n =>
        let t := piperead s.pipe n (s.killed p)
        some { s.after p t (.reading n) .nread with taken := s.taken ++ t.bytes }
      | .writing rest n =>
        let t := pipewrite s.pipe rest n (s.killed p)
        some
          { s.after p t (.writing t.bytes n) .nwrite with
            stored := s.stored ++ rest.take (rest.length - t.bytes.length) }
  | .pipeclose writable =>
    if s.freed then none
    else
      let q := close s.pipe writable
      some
        { s with
          pipe := q
          chan := wakeup (some (if writable then .nread else .nwrite)) s.chan
          freed := !q.readopen && !q.writeopen }
  | .kill p =>
    some { s with killed := Function.update s.killed p true, chan := Function.update s.chan p none }

end Steps

section Ring

variable (q : Pipe)

theorem pipesize_divides : PIPESIZE ∣ 2 ^ 32 := by decide

theorem Pipe.empty_iff : q.Empty ↔ q.ring.count = 0 := (q.ring.count_eq_zero_iff).symm

theorem Pipe.full_iff : q.Full ↔ q.ring.count = PIPESIZE := (q.ring.count_eq_size_iff PIPESIZE (by decide)).symm

theorem Pipe.put_contents (b : UInt8) (bound : q.ring.count ≤ PIPESIZE) (room : ¬ q.Full) :
    (q.put b).ring.count ≤ PIPESIZE ∧ (q.put b).contents = q.contents ++ [b] := by
  rw [q.full_iff] at room
  have pushed := q.ring.push_contents pipesize_divides (by decide) b (by omega)
  exact ⟨pushed.1.trans_le (by omega), pushed.2⟩

theorem Pipe.drop_contents (bound : q.ring.count ≤ PIPESIZE) (some_ : ¬ q.Empty) :
    q.drop.ring.count ≤ PIPESIZE ∧ q.contents = q.next :: q.drop.contents := by
  rw [q.empty_iff] at some_
  have popped := q.ring.pop_contents pipesize_divides (by omega)
  have fewer : q.drop.ring.count + 1 = q.ring.count := popped.1
  exact ⟨by omega, popped.2⟩

end Ring

section Loops

theorem copyIn_spec (rest : List UInt8) (q : Pipe) (bound : q.ring.count ≤ PIPESIZE) :
    (copyIn rest q).2.ring.count ≤ PIPESIZE ∧
      (copyIn rest q).2.contents = q.contents ++ rest.take (rest.length - (copyIn rest q).1.length) ∧
      ((copyIn rest q).1 ≠ [] → (copyIn rest q).2.Full) ∧ (copyIn rest q).1.length ≤ rest.length := by
  induction rest generalizing q with
  | nil => simp [copyIn, bound]
  | cons b rest ih =>
    rw [copyIn]
    split
    next full => simp [bound, full]
    next room =>
      obtain ⟨bound', contents⟩ := q.put_contents b bound room
      obtain ⟨bound'', later, stops, shorter⟩ := ih (q.put b) bound'
      refine ⟨bound'', ?_, stops, by simp only [List.length_cons]; omega⟩
      rw [later, contents, List.length_cons, Nat.sub_add_comm shorter, List.take_succ_cons, List.append_assoc]
      rfl

theorem copyOut_spec (n : Nat) (q : Pipe) (bound : q.ring.count ≤ PIPESIZE) :
    (copyOut n q).2.ring.count ≤ PIPESIZE ∧ q.contents = (copyOut n q).1 ++ (copyOut n q).2.contents := by
  induction n generalizing q with
  | zero => exact ⟨bound, rfl⟩
  | succ n ih =>
    rw [copyOut]
    split
    next => exact ⟨bound, rfl⟩
    next some_ =>
      obtain ⟨bound', contents⟩ := q.drop_contents bound some_
      obtain ⟨bound'', later⟩ := ih q.drop bound'
      refine ⟨bound'', ?_⟩
      rw [contents, later]
      rfl

end Loops

section Fifo

variable {P : Type}

/-- What has been stored and not taken is in the buffer. -/
structure Fifo (s : State P) : Prop where
  bound : s.pipe.ring.count ≤ PIPESIZE
  stored : s.stored = s.taken ++ s.pipe.contents

theorem init_fifo (data : Nat → UInt8) : Fifo (init data : State P) := by
  have empty : (init data : State P).pipe.ring.count = 0 := (Pipe.empty_iff _).mp rfl
  refine ⟨by rw [empty]; decide, ?_⟩
  rw [Pipe.contents, RingBuf.contents, empty]
  rfl

theorem Fifo.read {s : State P} (fifo : Fifo s) (n : Int) (killed : Bool) :
    (piperead s.pipe n killed).pipe.ring.count ≤ PIPESIZE ∧
      s.pipe.contents = (piperead s.pipe n killed).bytes ++ (piperead s.pipe n killed).pipe.contents := by
  unfold piperead
  split
  next => split <;> exact ⟨fifo.bound, rfl⟩
  next => exact copyOut_spec n.toNat s.pipe fifo.bound

theorem Fifo.write {s : State P} (fifo : Fifo s) (rest : List UInt8) (n : Int) (killed : Bool) :
    (pipewrite s.pipe rest n killed).pipe.ring.count ≤ PIPESIZE ∧
      (pipewrite s.pipe rest n killed).pipe.contents =
        s.pipe.contents ++ rest.take (rest.length - (pipewrite s.pipe rest n killed).bytes.length) := by
  obtain ⟨bound, contents, -, -⟩ := copyIn_spec rest s.pipe fifo.bound
  simp only [pipewrite]
  split
  next => exact ⟨bound, contents⟩
  next => split <;> exact ⟨bound, contents⟩

theorem close_ring (q : Pipe) (writable : Bool) : (close q writable).ring = q.ring := by
  cases writable <;> rfl

variable [DecidableEq P]

theorem Fifo.step {s s' : State P} {a : Action P} (fifo : Fifo s) (moved : step s a = some s') : Fifo s' := by
  cases a with
  | piperead p n =>
    simp only [Ipc.step] at moved
    split at moved <;> cases moved
    exact ⟨fifo.bound, fifo.stored⟩
  | pipewrite p addr n =>
    simp only [Ipc.step] at moved
    split at moved <;> cases moved
    exact ⟨fifo.bound, fifo.stored⟩
  | run p =>
    simp only [Ipc.step] at moved
    split at moved
    next => cases moved
    next =>
      split at moved <;> cases moved
      next n _ =>
        obtain ⟨bound, contents⟩ := fifo.read n (s.killed p)
        refine ⟨bound, ?_⟩
        rw [List.append_assoc, State.after, ← contents]
        exact fifo.stored
      next rest n _ =>
        obtain ⟨bound, contents⟩ := fifo.write rest n (s.killed p)
        refine ⟨bound, ?_⟩
        rw [State.after, contents, ← List.append_assoc, ← fifo.stored]
  | pipeclose writable =>
    simp only [Ipc.step] at moved
    split at moved <;> cases moved
    refine ⟨?_, ?_⟩
    · rw [close_ring]
      exact fifo.bound
    · rw [Pipe.contents, close_ring]
      exact fifo.stored
  | kill p =>
    cases moved
    exact ⟨fifo.bound, fifo.stored⟩

theorem piperead_zero (q : Pipe) (n : Int) (killed : Bool) (some_ : 0 < n)
    (zero : (piperead q n killed).result = some 0) : q.Empty ∧ q.writeopen = false := by
  unfold piperead at zero
  split at zero
  next => split at zero <;> simp at zero
  next open_ =>
    obtain ⟨m, size⟩ : ∃ m, n.toNat = m + 1 := ⟨n.toNat - 1, by omega⟩
    simp only [size, copyOut] at zero
    split at zero
    next empty =>
      refine ⟨empty, ?_⟩
      simpa using fun writeopen => open_ ⟨empty, writeopen⟩
    next =>
      simp only [List.length_cons, Option.some.injEq, Nat.cast_add, Nat.cast_one] at zero
      omega

/-- A pipe is a bounded FIFO of bytes. -/
theorem bounded_fifo (data : Nat → UInt8) (actions : List (Action P)) (s : State P)
    (run : Run.exec step (init data) actions = some s) :
    (s.pipe.nwrite - s.pipe.nread).toNat ≤ PIPESIZE ∧
      s.stored = s.taken ++ s.pipe.contents ∧
      s.pipe.contents.length = (s.pipe.nwrite - s.pipe.nread).toNat ∧
      ∀ n killed, 0 < n → (piperead s.pipe n killed).result = some 0 →
        s.pipe.Empty ∧ s.pipe.writeopen = false := by
  have fifo : Fifo s := Run.exec_invariant step Fifo (fun _ _ _ before moved => before.step moved)
    (init data) s actions (init_fifo data) run
  exact ⟨fifo.bound, fifo.stored, RingBuf.contents_length PIPESIZE s.pipe.ring,
    fun n killed some_ zero => piperead_zero s.pipe n killed some_ zero⟩

theorem bounded_fifo_three :
    ∃ s : State (Fin 2),
      Run.exec step (init fun _ => 0)
          [.piperead 1 2, .run 1, .pipewrite 0 (fun i => UInt8.ofNat (i + 7)) 3, .run 0, .run 1] = some s ∧
        s.taken = [7, 8] ∧ s.stored = s.taken ++ s.pipe.contents := by
  have reached : (Run.exec step (init fun _ => 0)
      [.piperead 1 2, .run 1, .pipewrite 0 (fun i => UInt8.ofNat (i + 7)) 3, .run 0, .run (1 : Fin 2)]).any
      (fun s => decide (s.taken = [7, 8])) = true := by decide +kernel
  obtain ⟨s, run, taken⟩ := (Option.any_eq_true _ _).mp reached
  exact ⟨s, run, of_decide_eq_true taken, (bounded_fifo _ _ s run).2.1⟩

end Fifo

end Xv6.Ipc
