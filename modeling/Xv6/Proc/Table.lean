import Xv6.Lib.Run
import Xv6.Param

set_option autoImplicit false

/-!
# The process table

`ptable` and the code of `proc.c` that changes it, in the build without the state lists. A section
under `ptable.lock` is one step. `fork` releases the lock between `allocproc` and the store of
`RUNNABLE`, so it takes several steps and its local `np` is part of the state.
-/

namespace Xv6.Ptable

-- The bytes that `safestrcpy(s, t, n)` stores from `s` on. A copied NUL is followed by a second one,
-- because `s` has already moved past the first.
def safestrcpy : List UInt8 → Nat → List UInt8
  | _, 0 => []
  | _, 1 => [0]
  | [], _ + 2 => [0]
  | c :: t, n + 2 => if c = 0 then [0, 0] else c :: safestrcpy t (n + 1)

theorem safestrcpy_length (t : List UInt8) (n : Nat) : (safestrcpy t n).length ≤ n := by
  fun_induction safestrcpy t n with
  | case1 => simp
  | case2 => simp
  | case3 => simp
  | case4 => simp
  | case5 c t n nonzero ih =>
    rw [List.length_cons]
    omega

theorem safestrcpy_text (t : List UInt8) (n : Nat) :
    (safestrcpy t n).takeWhile (· ≠ 0) = (t.take (n - 1)).takeWhile (· ≠ 0) := by
  fun_induction safestrcpy t n with
  | case1 => simp
  | case2 => simp
  | case3 => simp
  | case4 => simp
  | case5 c t n nonzero ih =>
    have shorter : n + 2 - 1 = (n + 1 - 1) + 1 := by omega
    rw [shorter, List.take_succ_cons, List.takeWhile_cons, List.takeWhile_cons, ih]

theorem zero_mem_safestrcpy (t : List UInt8) (n : Nat) : 0 ∈ safestrcpy t (n + 1) := by
  induction n generalizing t with
  | zero => simp [safestrcpy]
  | succ n ih =>
    cases t with
    | nil => simp [safestrcpy]
    | cons c t =>
      by_cases zero : c = 0
      · simp [safestrcpy, zero]
      · rw [safestrcpy, if_neg zero]
        exact List.mem_cons_of_mem c (ih t)

theorem safestrcpy_last (t : List UInt8) (n : Nat) : (safestrcpy t (n + 1)).getD n 0 = 0 := by
  induction n generalizing t with
  | zero => simp [safestrcpy]
  | succ n ih =>
    cases t with
    | nil => simp [safestrcpy]
    | cons c t =>
      by_cases zero : c = 0
      · cases n <;> simp [safestrcpy, zero]
      · rw [safestrcpy, if_neg zero, List.getD_cons_succ]
        exact ih t

/-- A process name: every writer of `name` leaves the last byte zero. -/
structure Name where
  bytes : Bytes.Buf 16
  terminated : bytes 15 = 0

def Name.text (name : Name) : List UInt8 := (List.ofFn name.bytes).takeWhile (· ≠ 0)

theorem Name.text_take (name : Name) : ((List.ofFn name.bytes).take 15).takeWhile (· ≠ 0) = name.text := by
  have split : List.ofFn name.bytes = (List.ofFn name.bytes).take 15 ++ [0] := by
    have last := name.terminated
    simp [List.ofFn_succ] at last ⊢
    exact last
  rw [Name.text]
  conv_rhs => rw [split]
  rw [List.takeWhile_append]
  split
  next all => simpa using (List.takeWhile_prefix _).eq_of_length all
  next => rfl

-- `safestrcpy` into a name: what lies behind the copied bytes stays.
def Name.copy (name : Name) (t : List UInt8) : Name where
  bytes := fun i =>
    if i.val < (safestrcpy t 16).length then (safestrcpy t 16).getD i.val 0 else name.bytes i
  terminated := by
    split
    · exact safestrcpy_last t 15
    · exact name.terminated

def Name.clear (name : Name) : Name where
  bytes := Function.update name.bytes 0 0
  terminated := by simpa [Function.update] using name.terminated

abbrev Slot := Fin NPROC

inductive ProcState where
  | unused
  | embryo
  | sleeping
  | runnable
  | running
  | zombie
deriving DecidableEq, Repr

-- A sleep channel is an address; `wait` sleeps on the address of the caller's slot.
inductive Chan where
  | proc (p : Slot)
  | other (address : Nat)
deriving DecidableEq

-- `pgdir` and `kstack` say whether the slot owns the memory, not what the pointer holds: `wait` frees
-- the page table and leaves the pointer.
structure Proc where
  sz : UInt32
  pgdir : Bool
  kstack : Bool
  state : ProcState
  pid : UInt32
  parent : Option Slot
  chan : Option Chan
  killed : Bool
  name : Name
  startTicks : UInt32
  uid : UInt32
  gid : UInt32
  cpuTicksTotal : UInt32
  cpuTicksIn : UInt32

structure Table where
  proc : Slot → Proc
  nextpid : UInt32
  initproc : Slot
  ticks : UInt32

def Table.set (t : Table) (i : Slot) (p : Proc) : Table :=
  { t with proc := Function.update t.proc i p }

-- The first slot in table order that a scan stops at.
def Table.first (t : Table) (found : Proc → Bool) : Option Slot :=
  (List.finRange NPROC).find? (fun i => found (t.proc i))

-- `allocproc` up to where it releases the lock.
def allocproc (t : Table) : Option (Slot × Table) :=
  (t.first (fun p => p.state = .unused)).map fun i =>
    (i, { t.set i { t.proc i with state := .embryo, pid := t.nextpid } with
      nextpid := t.nextpid + 1 })

-- The rest of `allocproc` is not under the lock: the kernel stack, then the counters one by one.
def allocStack (t : Table) (np : Slot) (kalloc : Bool) : Table :=
  if kalloc then t.set np { t.proc np with kstack := true }
  else t.set np { t.proc np with kstack := false, state := .unused }

-- `start_ticks`, `cpu_ticks_total` and `cpu_ticks_in`, in the order of their stores.
inductive Counter where
  | start
  | total
  | since
deriving DecidableEq

def allocTime (t : Table) (np : Slot) : Counter → Table
  | .start => t.set np { t.proc np with startTicks := t.ticks }
  | .total => t.set np { t.proc np with cpuTicksTotal := 0 }
  | .since => t.set np { t.proc np with cpuTicksIn := 0 }

-- The unlocked middle of `fork`: `copyuvm` and the copies from the parent.
def forkCopy (t : Table) (p np : Slot) (copyuvm : Bool) : Table :=
  if copyuvm then
    t.set np { t.proc np with
      pgdir := true
      sz := (t.proc p).sz
      parent := some p
      uid := (t.proc p).uid
      gid := (t.proc p).gid
      name := (t.proc np).name.copy (List.ofFn (t.proc p).name.bytes) }
  else t.set np { t.proc np with pgdir := false, kstack := false, state := .unused }

def forkRun (t : Table) (np : Slot) : Table :=
  t.set np { t.proc np with state := .runnable }

def wakeup1 (t : Table) (chan : Option Chan) : Table :=
  { t with proc := fun i =>
      if (t.proc i).state = .sleeping ∧ (t.proc i).chan = chan then
        { t.proc i with state := .runnable }
      else t.proc i }

-- Pass abandoned children to init. The source wakes init at each zombie among them; waking it twice
-- is waking it once, and neither store changes what the scan tests.
def reparent (t : Table) (p : Slot) : Table :=
  let adopted : Table :=
    { t with proc := fun i =>
        if (t.proc i).parent = some p then { t.proc i with parent := some t.initproc } else t.proc i }
  if (List.finRange NPROC).any (fun i => (t.proc i).parent = some p ∧ (t.proc i).state = .zombie) then
    wakeup1 adopted (some (.proc t.initproc))
  else adopted

-- `sched`, entered in the state that the caller has stored: the burst is charged.
def sched (t : Table) (p : Slot) (state : ProcState) : Table :=
  t.set p { t.proc p with
    state := state
    cpuTicksTotal := (t.proc p).cpuTicksTotal + (t.ticks - (t.proc p).cpuTicksIn) }

def sleep (t : Table) (p : Slot) (chan : Chan) : Table :=
  sched (t.set p { t.proc p with chan := some chan }) p .sleeping

-- `scheduler` switches to a runnable process. One that comes back from `sleep` clears its channel
-- before it releases the lock; any other has none.
def dispatch (t : Table) (p : Slot) : Table :=
  t.set p { t.proc p with state := .running, chan := none, cpuTicksIn := t.ticks }

-- The section of `exit` under `ptable.lock`, and the panic before it.
def exit (t : Table) (p : Slot) : Except Panic Table :=
  if p = t.initproc then .error .initExiting
  else .ok (sched (reparent (wakeup1 t ((t.proc p).parent.map .proc)) p) p .zombie)

inductive WaitResult where
  | reaped (pid : UInt32)
  | childless
  | sleeps
deriving DecidableEq

-- One scan of `wait`. A scan that does not return sleeps on the caller's slot and is made again.
def wait (t : Table) (p : Slot) : WaitResult × Table :=
  match t.first (fun q => q.parent = some p ∧ q.state = .zombie) with
  | some i =>
    (.reaped (t.proc i).pid,
      t.set i { t.proc i with
        kstack := false
        pgdir := false
        state := .unused
        pid := 0
        parent := none
        name := (t.proc i).name.clear
        killed := false })
  | none =>
    if (t.first (fun q => q.parent = some p)).isNone ∨ (t.proc p).killed then (.childless, t)
    else (.sleeps, sleep t p (.proc p))

-- The slots are compared by pid alone, whatever their state, and as unsigned words; `none` is the
-- return value -1.
def kill (t : Table) (pid : UInt32) : Option Table :=
  (t.first (fun p => p.pid = pid)).map fun i =>
    t.set i { t.proc i with
      killed := true
      state := if (t.proc i).state = .sleeping then .runnable else (t.proc i).state }

-- How far a process is inside `fork`; `times` names the counter that is stored next.
inductive ForkPc where
  | out
  | alloc (np : Slot)
  | times (np : Slot) (next : Counter)
  | stack (np : Slot)
  | copied (np : Slot)
deriving DecidableEq

def Counter.after (np : Slot) : Counter → ForkPc
  | .start => .times np .total
  | .total => .times np .since
  | .since => .stack np

structure Kernel where
  table : Table
  fork : Slot → ForkPc

inductive Event where
  | dispatch (p : Slot)
  | yield (p : Slot)
  | sleep (p : Slot) (address : Nat)
  | wakeup (chan : Chan)
  | tick
  | forkAlloc (p : Slot)
  | forkStack (p : Slot) (kalloc : Bool)
  | forkTime (p : Slot)
  | forkCopy (p : Slot) (copyuvm : Bool)
  | forkRun (p : Slot)
  | exit (p : Slot)
  | wait (p : Slot)
  | kill (p : Slot) (pid : UInt32)

def Kernel.running (k : Kernel) (p : Slot) : Bool := (k.table.proc p).state = .running

-- A running process outside `fork` may start any call.
def Kernel.free (k : Kernel) (p : Slot) : Bool := k.running p && decide (k.fork p = .out)

-- The timer preempts a process anywhere outside the lock, so `yield` is possible inside `fork` too.
-- A panic leaves no next state.
def step (k : Kernel) : Event → Option Kernel
  | .dispatch p =>
    if (k.table.proc p).state = .runnable then some { k with table := dispatch k.table p } else none
  | .yield p => if k.running p then some { k with table := sched k.table p .runnable } else none
  | .sleep p address =>
    if k.free p then some { k with table := sleep k.table p (.other address) } else none
  | .wakeup chan => some { k with table := wakeup1 k.table (some chan) }
  | .tick => some { k with table := { k.table with ticks := k.table.ticks + 1 } }
  | .forkAlloc p =>
    if k.free p then
      match allocproc k.table with
      | some (np, t) => some { table := t, fork := Function.update k.fork p (.alloc np) }
      | none => some k
    else none
  | .forkStack p kalloc =>
    match k.fork p with
    | .alloc np =>
      if k.running p then
        some
          { table := allocStack k.table np kalloc
            fork := Function.update k.fork p (if kalloc then .times np .start else .out) }
      else none
    | _ => none
  | .forkTime p =>
    match k.fork p with
    | .times np next =>
      if k.running p then
        some { table := allocTime k.table np next, fork := Function.update k.fork p (next.after np) }
      else none
    | _ => none
  | .forkCopy p copyuvm =>
    match k.fork p with
    | .stack np =>
      if k.running p then
        some
          { table := forkCopy k.table p np copyuvm
            fork := Function.update k.fork p (if copyuvm then .copied np else .out) }
      else none
    | _ => none
  | .forkRun p =>
    match k.fork p with
    | .copied np =>
      if k.running p then some { table := forkRun k.table np, fork := Function.update k.fork p .out } else none
    | _ => none
  | .exit p =>
    if k.free p then
      match exit k.table p with
      | .ok t => some { k with table := t }
      | .error _ => none
    else none
  | .wait p => if k.free p then some { k with table := (wait k.table p).2 } else none
  | .kill p pid => if k.free p then some { k with table := (kill k.table pid).getD k.table } else none

def noName : Name where
  bytes := fun _ => 0
  terminated := rfl

def zeroProc : Proc where
  sz := 0
  pgdir := false
  kstack := false
  state := .unused
  pid := 0
  parent := none
  chan := none
  killed := false
  name := noName
  startTicks := 0
  uid := 0
  gid := 0
  cpuTicksTotal := 0
  cpuTicksIn := 0

def ascii (s : String) : List UInt8 := s.toList.map fun c => UInt8.ofNat c.toNat

-- What `userinit` leaves: the first slot is init, its own parent.
def userinit : Kernel where
  table :=
    { proc := fun i =>
        if i = 0 then
          { zeroProc with
            sz := UInt32.ofNat PGSIZE
            pgdir := true
            kstack := true
            state := .runnable
            pid := 1
            parent := some 0
            name := noName.copy (ascii "initcode")
            uid := DEFAULT_UID
            gid := DEFAULT_GID }
        else zeroProc
      nextpid := 2
      initproc := 0
      ticks := 0 }
  fork := fun _ => .out

-- A `fork` that nothing fails, up to the store of `RUNNABLE`.
def forkSteps (p : Slot) : List Event :=
  [.forkAlloc p, .forkStack p true, .forkTime p, .forkTime p, .forkTime p, .forkCopy p true]

def Reachable (k : Kernel) : Prop := ∃ events, Run.exec step userinit events = some k

end Xv6.Ptable
