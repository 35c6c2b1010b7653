import Xv6.Io.Memide
import Xv6.Lib.LinkQueue

set_option autoImplicit false

/-!
# The interrupt-driven disk driver

`ide.c`, with any number of processes in `iderw`. What runs under `idelock`, from the entry of a call
or from a wakeup to the next `sleep` or to the return, is one step; the interrupt handler is one step.
The device carries out one command at a time and then raises an interrupt.
-/

namespace Xv6.Io

section Device

abbrev SECTOR_SIZE : Nat := 512
abbrev IDE_DF : UInt8 := 0x20
abbrev IDE_ERR : UInt8 := 0x01

-- The registers 0x1f2 to 0x1f6.
structure Taskfile where
  nsectors : Nat
  lba0 : Nat
  lba1 : Nat
  lba2 : Nat
  select : Nat

-- How the device reads the registers.
def Taskfile.sector (t : Taskfile) : Nat :=
  t.lba0 + 2 ^ 8 * t.lba1 + 2 ^ 16 * t.lba2 + 2 ^ 24 * (t.select % 16)

def Taskfile.drive (t : Taskfile) : Fin 2 := Fin.ofNat 2 (t.select / 16)

inductive Command where
  | read (drive : Fin 2) (sector : Nat)
  | write (drive : Fin 2) (sector : Nat) (data : Block)
deriving DecidableEq

-- `port` is what the last read has made available; `irq` is an interrupt that has not been taken.
structure Device where
  disks : Fin 2 → Disk
  command : Option Command
  port : Block
  irq : Bool

def Device.finish (d : Device) : Option Device :=
  match d.command with
  | none => none
  | some (.read drive sector) => some { d with command := none, port := d.disks drive sector, irq := true }
  | some (.write drive sector data) =>
    some
      { d with
        command := none
        disks := Function.update d.disks drive (Function.update (d.disks drive) sector data)
        irq := true }

def taskfile (dev blockno : Nat) : Taskfile :=
  let sectorPerBlock := BSIZE / SECTOR_SIZE
  let sector := blockno * sectorPerBlock
  { nsectors := sectorPerBlock
    lba0 := sector &&& 0xff
    lba1 := sector >>> 8 &&& 0xff
    lba2 := sector >>> 16 &&& 0xff
    select := 0xe0 ||| (dev &&& 1) <<< 4 ||| (sector >>> 24 &&& 0x0f) }

def request (v : Buf) : Command :=
  let t := taskfile v.dev v.blockno
  if v.dirty then .write t.drive t.sector v.data else .read t.drive t.sector

def idestart (d : Device) (v : Buf) : Except Panic Device :=
  if v.blockno ≥ FSSIZE then .error .incorrectBlockno
  else .ok { d with command := some (request v) }

-- `status` is the value that ends the loop.
def idewait (status : UInt8) (checkerr : Bool) : Int :=
  if checkerr ∧ status &&& (IDE_DF ||| IDE_ERR) ≠ 0 then -1 else 0

theorem taskfile_spec (blockno : Nat) (range : blockno < FSSIZE) :
    (taskfile 1 blockno).sector = blockno ∧ (taskfile 1 blockno).drive = 1 := by
  simp only [FSSIZE] at range
  have one : BSIZE / SECTOR_SIZE = 1 := by decide
  have high : blockno >>> 24 = 0 := by
    rw [Nat.shiftRight_eq_div_pow]
    omega
  have select : (0xe0 ||| (1 &&& 1) <<< 4 ||| 0 &&& 0x0f) = 0xf0 := by decide
  have byte : ∀ n, n &&& 0xff = n % 256 := fun n => Nat.and_two_pow_sub_one_eq_mod n 8
  simp only [taskfile, one, mul_one, high, select, Taskfile.sector, Taskfile.drive, byte,
    Nat.shiftRight_eq_div_pow]
  refine ⟨by omega, by decide⟩

theorem request_spec (v : Buf) (dev : v.dev = 1) (range : v.blockno < FSSIZE) :
    request v = if v.dirty then .write 1 v.blockno v.data else .read 1 v.blockno := by
  obtain ⟨sector, drive⟩ := taskfile_spec v.blockno range
  simp only [request, dev, sector, drive]

end Device

-- `pc p` is the buffer of the call that `p` is in. The lists are all requests so far.
structure State (P : Type) where
  buf : BufId → Buf
  idequeue : LinkQueue BufId
  device : Device
  havedisk1 : Bool
  pc : P → Option BufId
  asleep : P → Bool
  panic : Option Panic
  arrived : List BufId
  started : List BufId
  finished : List BufId

inductive Action (P : Type) where
  | iderw (p : P) (b : BufId)
  -- A process in `iderw` gets to run.
  | run (p : P)
  -- Something else wakes `p` up: a sleeper of `bget` has the same channel, and there is `kill`.
  | awaken (p : P)
  | finish
  | ideintr (status : UInt8)
  -- Whoever holds the buffer changes it.
  | modify (b : BufId) (v : Buf)

section Steps

variable {P : Type}

def init (buf : BufId → Buf) (disks : Fin 2 → Disk) (qnext : BufId → Option BufId) (port : Block) : State P where
  buf := buf
  idequeue := ⟨none, qnext⟩
  device := ⟨disks, none, port, false⟩
  havedisk1 := true
  pc _ := none
  asleep _ := false
  panic := none
  arrived := []
  started := []
  finished := []

def State.start (s : State P) (b : BufId) : State P :=
  match idestart s.device (s.buf b) with
  | .error e => { s with panic := some e }
  | .ok d => { s with device := d, started := s.started ++ [b] }

def wakeup (pc : P → Option BufId) (b : BufId) (asleep : P → Bool) (p : P) : Bool :=
  if pc p = some b then false else asleep p

def ideintr (s : State P) (status : UInt8) : State P :=
  let s := { s with device := { s.device with irq := false } }
  match s.idequeue.head with
  | none => s
  | some b =>
    let v := s.buf b
    let data := if v.dirty = false ∧ idewait status true ≥ 0 then s.device.port else v.data
    let s :=
      { s with
        idequeue := ⟨s.idequeue.next b, s.idequeue.next⟩
        buf := Function.update s.buf b { v with data := data, valid := true, dirty := false }
        asleep := wakeup s.pc b s.asleep
        finished := s.finished ++ [b] }
    match s.idequeue.head with
    | none => s
    | some c => s.start c

variable [DecidableEq P]

-- The test of the loop at the end of `iderw`.
def settle (s : State P) (p : P) (b : BufId) : State P :=
  if (s.buf b).Synced then
    { s with pc := Function.update s.pc p none, asleep := Function.update s.asleep p false }
  else
    { s with pc := Function.update s.pc p (some b), asleep := Function.update s.asleep p true }

-- The walk along the queue ends after at most one turn for each buffer.
def iderw (s : State P) (p : P) (b : BufId) : Option (State P) :=
  let v := s.buf b
  if v.busy = false then some { s with panic := some .iderwNotBusy }
  else if v.Synced then some { s with panic := some .iderwNothingToDo }
  else if v.dev ≠ 0 ∧ s.havedisk1 = false then some { s with panic := some .iderwNoDisk1 }
  else
    (s.idequeue.enqueue NBUF b).map fun queue =>
      let s := { s with idequeue := queue, arrived := s.arrived ++ [b] }
      settle (if queue.head = some b then s.start b else s) p b

def step (s : State P) (a : Action P) : Option (State P) :=
  if s.panic ≠ none then none
  else
    match a with
    | .iderw p b => if s.pc p = none then iderw s p b else none
    | .run p =>
      if s.asleep p then none
      else (s.pc p).map (settle s p)
    | .awaken p => some { s with asleep := Function.update s.asleep p false }
    | .finish => s.device.finish.map fun d => { s with device := d }
    | .ideintr status => some (ideintr s status)
    | .modify b v => some { s with buf := Function.update s.buf b v }

end Steps

namespace Memide

structure State extends Memory where
  panic : Option Panic

-- The same run with the synchronous driver. Its interrupt handler does nothing.
def step {P : Type} (disksize : Nat) (m : State) (a : Action P) : Option State :=
  if m.panic ≠ none then none
  else
    match a with
    | .iderw _ b =>
      match iderw disksize m.toMemory b with
      | .error e => some { m with panic := some e }
      | .ok m' => some ⟨m', none⟩
    | .modify b v => some ⟨m.toMemory.setBuf b v, none⟩
    | .run _ | .awaken _ | .finish | .ideintr _ => some m

end Memide

section Refinement

variable {P : Type}

theorem start_eq (s : State P) (b : BufId) (range : (s.buf b).blockno < FSSIZE) :
    s.start b =
      { s with
        device := { s.device with command := some (request (s.buf b)) }
        started := s.started ++ [b] } := by
  simp only [State.start, idestart, if_neg (Nat.not_le.mpr range)]

/-- The assumptions on the callers and on the device. -/
def Allowed (disksize : Nat) (s : State P) : Action P → Prop
  | .iderw _ b =>
    ((s.buf b).busy = true ∧ (s.buf b).dev = 1) ∧
      ((s.buf b).blockno < disksize ∧ (s.buf b).blockno < FSSIZE) ∧ ∀ q, s.pc q ≠ some b
  | .ideintr status =>
    status &&& (IDE_DF ||| IDE_ERR) = 0 ∧ (s.device.irq = true ∨ s.idequeue.head = none)
  | .modify b _ => ∀ q, s.pc q ≠ some b
  | _ => True

instance [Fintype P] (disksize : Nat) (s : State P) : (a : Action P) → Decidable (Allowed disksize s a)
  | .iderw _ _ => inferInstanceAs (Decidable ((_ ∧ _) ∧ (_ ∧ _) ∧ ∀ _, _))
  | .ideintr _ => inferInstanceAs (Decidable (_ ∧ (_ ∨ _)))
  | .modify _ _ => inferInstanceAs (Decidable (∀ _, _))
  | .run _ => isTrue trivial
  | .awaken _ => isTrue trivial
  | .finish => isTrue trivial

/-- The device works on the request for `v`, or has done so and nobody has noticed yet. -/
def Device.Given (d : Device) (v : Buf) : Prop :=
  (d.command = some (request v) ∧ d.irq = false) ∨
    (d.command = none ∧ d.irq = true ∧
      if v.dirty then d.disks 1 v.blockno = v.data else d.port = d.disks 1 v.blockno)

/-- `queue` is what there is to do, and `m` is where the synchronous driver is: it has done it. -/
structure Driven (s : State P) (m : Memide.State) (queue : List BufId) : Prop where
  holds : s.idequeue.Holds queue
  distinct : queue.Nodup
  arrived : s.arrived = s.finished ++ queue
  started : s.started = s.finished ++ queue.head?.toList
  waiting : ∀ b ∈ queue, ¬ (s.buf b).Synced ∧ (s.buf b).dev = 1 ∧ (s.buf b).blockno < FSSIZE
  called : ∀ b ∈ queue, ∃ p, s.pc p = some b
  done : ∀ p b, s.pc p = some b → b ∉ queue → (s.buf b).Synced
  sleepers : ∀ p, s.asleep p = true → ∃ b ∈ queue, s.pc p = some b
  given : ∀ b, queue.head? = some b → s.device.Given (s.buf b)
  idle : queue = [] → s.device.command = none ∧ s.device.irq = false
  disk1 : s.havedisk1 = true
  memory : m.toMemory = queue.foldl Memory.transfer ⟨s.buf, s.device.disks 1⟩
  panic : s.panic = m.panic

section Parts

variable {s : State P} {m : Memide.State} {queue : List BufId} {b : BufId} (driven : Driven s m queue)

include driven

theorem Driven.not_called (away : ∀ q, s.pc q ≠ some b) : b ∉ queue := by
  intro member
  obtain ⟨p, calls⟩ := driven.called b member
  exact away p calls

theorem Driven.memory_buf (away : b ∉ queue) : m.buf b = s.buf b := by
  rw [driven.memory]
  exact Memory.foldl_transfer_buf _ b queue away

theorem Driven.modify (v : Buf) (away : ∀ q, s.pc q ≠ some b) :
    Driven { s with buf := Function.update s.buf b v } ⟨m.toMemory.setBuf b v, m.panic⟩ queue := by
  have absent := driven.not_called away
  have same : ∀ c, c ∈ queue → Function.update s.buf b v c = s.buf c := by
    intro c member
    have other : c ≠ b := fun equal => absent (equal ▸ member)
    exact Function.update_of_ne other _ _
  refine ⟨driven.holds, driven.distinct, driven.arrived, driven.started, ?_, driven.called, ?_, driven.sleepers,
    ?_, driven.idle, driven.disk1, ?_, driven.panic⟩
  · intro c member
    simp only [same c member]
    exact driven.waiting c member
  · intro p c calls outside
    have other : c ≠ b := fun equal => away p (equal ▸ calls)
    simp only [Function.update_of_ne other]
    exact driven.done p c calls outside
  · intro c head
    simp only [same c (List.mem_of_mem_head? head)]
    exact driven.given c head
  · simp only [driven.memory]
    exact (Memory.foldl_transfer_setBuf _ b queue v absent).symm

theorem Driven.finish {d : Device} (finished : s.device.finish = some d) : Driven { s with device := d } m queue := by
  cases queue with
  | nil => simp [Device.finish, (driven.idle rfl).1] at finished
  | cons b rest =>
    obtain ⟨-, dev, range⟩ := driven.waiting b List.mem_cons_self
    obtain ⟨given, -⟩ | ⟨none_, -, -⟩ := driven.given b rfl
    · rw [request_spec (s.buf b) dev range] at given
      have now : d.Given (s.buf b) ∧
          Memory.transfer ⟨s.buf, d.disks 1⟩ b = Memory.transfer ⟨s.buf, s.device.disks 1⟩ b := by
        by_cases dirty : (s.buf b).dirty = true
        · simp only [Device.finish, given, dirty, if_true, Option.some.injEq] at finished
          subst finished
          simp [Device.Given, Memory.transfer, dirty]
        · simp only [Device.finish, given, if_neg dirty, Option.some.injEq] at finished
          subst finished
          simp [Device.Given, Memory.transfer, dirty]
      refine ⟨driven.holds, driven.distinct, driven.arrived, driven.started, driven.waiting, driven.called,
        driven.done, driven.sleepers, ?_, by simp, driven.disk1, ?_, driven.panic⟩
      · intro c head
        cases head
        exact now.1
      · rw [driven.memory, List.foldl_cons, List.foldl_cons, now.2]
    · simp [Device.finish, none_] at finished

theorem Driven.ideintr {status : UInt8} (fine : status &&& (IDE_DF ||| IDE_ERR) = 0)
    (raised : s.device.irq = true ∨ s.idequeue.head = none) :
    ∃ queue', Driven (ideintr s status) m queue' := by
  cases queue with
  | nil =>
    have empty : s.idequeue.head = none := driven.holds
    refine ⟨[], ?_⟩
    simp only [Io.ideintr, empty]
    exact ⟨driven.holds, driven.distinct, driven.arrived, driven.started, driven.waiting, driven.called, driven.done,
      driven.sleepers, by simp, fun _ => ⟨(driven.idle rfl).1, rfl⟩, driven.disk1, driven.memory, driven.panic⟩
  | cons b rest =>
    obtain ⟨head, later⟩ := driven.holds
    obtain ⟨absent, distinct⟩ := List.nodup_cons.mp driven.distinct
    have finished : s.device.irq = true := raised.resolve_right (by simp [head])
    have awaited : ∀ p, wakeup s.pc b s.asleep p = true → ∃ c ∈ rest, s.pc p = some c := by
      intro p asleep
      unfold wakeup at asleep
      split at asleep
      next => cases asleep
      next other =>
        obtain ⟨c, member, calls⟩ := driven.sleepers p asleep
        cases member with
        | head => exact absurd calls other
        | tail _ member => exact ⟨c, member, calls⟩
    obtain ⟨-, busy⟩ | ⟨-, -, copied⟩ := driven.given b rfl
    · simp [finished] at busy
    · -- What the handler makes of the buffer is what the synchronous driver does.
      have error : idewait status true ≥ 0 := by simp [idewait, fine]
      simp only [Io.ideintr, head, error, and_true]
      generalize data_eq : (if (s.buf b).dirty = false then s.device.port else (s.buf b).data) = data
      have transfer : Memory.transfer ⟨s.buf, s.device.disks 1⟩ b =
          ⟨Function.update s.buf b { s.buf b with data := data, valid := true, dirty := false },
            s.device.disks 1⟩ := by
        cases dirty : (s.buf b).dirty with
        | true =>
          simp only [dirty, if_true] at copied data_eq
          simp [Memory.transfer, dirty, ← data_eq, ← copied]
        | false =>
          simp only [dirty, Bool.false_eq_true, if_false, if_true] at copied data_eq
          simp [Memory.transfer, dirty, ← data_eq, copied]
      generalize buffer : Function.update s.buf b { s.buf b with data := data, valid := true, dirty := false } = buf
        at transfer ⊢
      have same : ∀ c ∈ rest, buf c = s.buf c := by
        intro c member
        have other : c ≠ b := fun equal => absent (equal ▸ member)
        rw [← buffer, Function.update_of_ne other]
      have waiting : ∀ c ∈ rest, ¬ (buf c).Synced ∧ (buf c).dev = 1 ∧ (buf c).blockno < FSSIZE := by
        intro c member
        rw [same c member]
        exact driven.waiting c (List.mem_cons_of_mem b member)
      have called : ∀ c ∈ rest, ∃ p, s.pc p = some c := fun c member =>
        driven.called c (List.mem_cons_of_mem b member)
      have done : ∀ p c, s.pc p = some c → c ∉ rest → (buf c).Synced := by
        intro p c calls outside
        rw [← buffer]
        by_cases equal : c = b
        · subst equal
          rw [Function.update_self]
          exact ⟨rfl, rfl⟩
        · rw [Function.update_of_ne equal]
          exact driven.done p c calls (by simp [equal, outside])
      have memory : m.toMemory = rest.foldl Memory.transfer ⟨buf, s.device.disks 1⟩ := by
        rw [driven.memory, List.foldl_cons, transfer]
      have arrived : s.arrived = s.finished ++ [b] ++ rest := by
        rw [driven.arrived, List.append_assoc, List.singleton_append]
      have started : s.started = s.finished ++ [b] := driven.started
      refine ⟨rest, ?_⟩
      cases rest with
      | nil =>
        have empty : s.idequeue.next b = none := later
        simp only [empty]
        exact ⟨empty ▸ later, distinct, arrived, by simpa using started, waiting, called, done, awaited, by simp,
          fun _ => ⟨(driven.given b rfl).elim (fun given => by simp [finished] at given) And.left, rfl⟩,
          driven.disk1, memory, driven.panic⟩
      | cons c rest =>
        have next : s.idequeue.next b = some c := later.1
        have range := (waiting c List.mem_cons_self).2.2
        simp only [next]
        rw [start_eq _ c range]
        refine ⟨next ▸ later, distinct, arrived, by simp [started], waiting, called, done, awaited, ?_, by simp,
          driven.disk1, memory, driven.panic⟩
        intro d first
        cases first
        exact Or.inl ⟨rfl, rfl⟩

variable [DecidableEq P]

theorem Driven.iderw {disksize : Nat} {p : P} (idle : s.pc p = none) (panic : s.panic = none)
    (allowed : Allowed disksize s (.iderw p b)) :
    ∃ s' m' queue', iderw s p b = some s' ∧ Memide.step disksize m (.iderw p b) = some m' ∧
      Driven s' m' queue' := by
  obtain ⟨⟨busy, dev⟩, ⟨size, range⟩, away⟩ := allowed
  have absent := driven.not_called away
  have buf := driven.memory_buf absent
  have running : m.panic = none := driven.panic ▸ panic
  by_cases synced : (s.buf b).Synced
  · refine ⟨{ s with panic := some .iderwNothingToDo }, { m with panic := some .iderwNothingToDo }, queue, ?_, ?_, ?_⟩
    · simp [Io.iderw, busy, synced]
    · simp [Memide.step, Memide.iderw, running, buf, busy, synced]
    · exact ⟨driven.holds, driven.distinct, driven.arrived, driven.started, driven.waiting, driven.called,
        driven.done, driven.sleepers, driven.given, driven.idle, driven.disk1, driven.memory, rfl⟩
  · have bound : queue.length ≤ NBUF := by simpa using driven.distinct.length_le_card
    obtain ⟨q, enqueued, holds⟩ := LinkQueue.enqueue_holds NBUF b driven.holds driven.distinct absent bound
    have distinct : (queue ++ [b]).Nodup :=
      List.nodup_append_comm.mp (List.nodup_cons.mpr ⟨absent, driven.distinct⟩)
    have sync : Memide.step disksize m (.iderw p b) = some ⟨m.toMemory.transfer b, none⟩ := by
      simp [Memide.step, Memide.iderw, running, buf, busy, synced, dev, Nat.not_le.mpr size]
    have memory : m.toMemory.transfer b = (queue ++ [b]).foldl Memory.transfer ⟨s.buf, s.device.disks 1⟩ := by
      rw [List.foldl_append, driven.memory, List.foldl_cons, List.foldl_nil]
    have waiting : ∀ c ∈ queue ++ [b], ¬ (s.buf c).Synced ∧ (s.buf c).dev = 1 ∧ (s.buf c).blockno < FSSIZE := by
      intro c member
      rcases List.mem_append.mp member with old | new
      · exact driven.waiting c old
      · cases List.mem_singleton.mp new
        exact ⟨synced, dev, range⟩
    have called : ∀ c ∈ queue ++ [b], ∃ q, Function.update s.pc p (some b) q = some c := by
      intro c member
      rcases List.mem_append.mp member with old | new
      · obtain ⟨q, calls⟩ := driven.called c old
        have other : q ≠ p := fun same => by simp [same, idle] at calls
        exact ⟨q, (Function.update_of_ne other _ _).trans calls⟩
      · cases List.mem_singleton.mp new
        exact ⟨p, Function.update_self ..⟩
    have done : ∀ q c, Function.update s.pc p (some b) q = some c → c ∉ queue ++ [b] → (s.buf c).Synced := by
      intro q c calls outside
      by_cases same : q = p
      · subst same
        rw [Function.update_self] at calls
        cases calls
        exact absurd (List.mem_append_right queue (List.mem_singleton_self b)) outside
      · rw [Function.update_of_ne same] at calls
        exact driven.done q c calls fun member => outside (List.mem_append_left _ member)
    have sleepers : ∀ q, Function.update s.asleep p true q = true →
        ∃ c ∈ queue ++ [b], Function.update s.pc p (some b) q = some c := by
      intro q asleep
      by_cases same : q = p
      · subst same
        exact ⟨b, List.mem_append_right queue (List.mem_singleton_self b), Function.update_self ..⟩
      · rw [Function.update_of_ne same] at asleep ⊢
        obtain ⟨c, member, calls⟩ := driven.sleepers q asleep
        exact ⟨c, List.mem_append_left _ member, calls⟩
    have arrived : s.arrived ++ [b] = s.finished ++ (queue ++ [b]) := by
      rw [driven.arrived, List.append_assoc]
    cases queue with
    | nil =>
      -- The device is idle, and the request is given to it at once.
      have first : q.head = some b := holds.1
      refine ⟨{ s with
        idequeue := q
        device := { s.device with command := some (request (s.buf b)) }
        pc := Function.update s.pc p (some b)
        asleep := Function.update s.asleep p true
        arrived := s.arrived ++ [b]
        started := s.started ++ [b] }, _, [b], ?_, sync, ?_⟩
      · simp only [Io.iderw, enqueued, first, Option.map_some, if_true]
        rw [start_eq { s with idequeue := q, arrived := s.arrived ++ [b] } b range]
        simp [busy, synced, dev, driven.disk1, Io.settle]
      · refine ⟨holds, distinct, arrived, ?_, waiting, called, done, sleepers, ?_, by simp, driven.disk1,
          memory, panic⟩
        · simp [driven.started]
        · intro c head
          cases head
          exact Or.inl ⟨rfl, (driven.idle rfl).2⟩
    | cons a rest =>
      have first : q.head = some a := holds.1
      have other : a ≠ b := fun same => absent (same ▸ List.mem_cons_self)
      refine ⟨{ s with
        idequeue := q
        pc := Function.update s.pc p (some b)
        asleep := Function.update s.asleep p true
        arrived := s.arrived ++ [b] }, _, a :: rest ++ [b], ?_, sync, ?_⟩
      · simp [Io.iderw, busy, synced, dev, driven.disk1, enqueued, first, other, Io.settle]
      · exact ⟨holds, distinct, arrived, driven.started, waiting, called, done, sleepers, driven.given,
          by simp, driven.disk1, memory, panic⟩

theorem Driven.settle {p : P} (calls : s.pc p = some b) : Driven (settle s p b) m queue := by
  unfold Io.settle
  split
  next synced =>
    have absent : b ∉ queue := fun member => (driven.waiting b member).1 synced
    refine ⟨driven.holds, driven.distinct, driven.arrived, driven.started, driven.waiting, ?_, ?_, ?_, driven.given,
      driven.idle, driven.disk1, driven.memory, driven.panic⟩
    · intro c member
      obtain ⟨q, called⟩ := driven.called c member
      have other : q ≠ p := by
        rintro rfl
        exact absent (Option.some.inj (calls.symm.trans called) ▸ member)
      exact ⟨q, (Function.update_of_ne other _ _).trans called⟩
    · intro q c called outside
      by_cases same : q = p
      · simp [same] at called
      · exact driven.done q c ((Function.update_of_ne same _ _).symm.trans called) outside
    · intro q asleep
      by_cases same : q = p
      · simp [same] at asleep
      · simp only [Function.update_of_ne same] at asleep ⊢
        exact driven.sleepers q asleep
  next unsynced =>
    have member : b ∈ queue := by
      by_contra outside
      exact unsynced (driven.done p b calls outside)
    have same : Function.update s.pc p (some b) = s.pc := by rw [← calls, Function.update_eq_self]
    rw [same]
    refine ⟨driven.holds, driven.distinct, driven.arrived, driven.started, driven.waiting, driven.called, driven.done,
      ?_, driven.given, driven.idle, driven.disk1, driven.memory, driven.panic⟩
    intro q asleep
    by_cases same : q = p
    · exact ⟨b, member, same ▸ calls⟩
    · exact driven.sleepers q ((Function.update_of_ne same _ _).symm.trans asleep)

theorem Driven.step {disksize : Nat} {s' : State P} {a : Action P} (allowed : Allowed disksize s a)
    (moved : step s a = some s') :
    ∃ m' queue', Memide.step disksize m a = some m' ∧ Driven s' m' queue' := by
  unfold Io.step at moved
  split at moved
  next => cases moved
  next running =>
    have panic : s.panic = none := not_not.mp running
    have sync : m.panic = none := driven.panic ▸ panic
    cases a with
    | iderw p b =>
      simp only at moved
      split at moved
      next idle =>
        obtain ⟨t, m', queue', called, synced, driven'⟩ := driven.iderw idle panic allowed
        cases called.symm.trans moved
        exact ⟨m', queue', synced, driven'⟩
      next => cases moved
    | run p =>
      simp only at moved
      split at moved
      next => cases moved
      next =>
        obtain ⟨b, calls, rfl⟩ := Option.map_eq_some_iff.mp moved
        exact ⟨m, queue, by simp [Memide.step, sync], driven.settle calls⟩
    | awaken p =>
      cases moved
      refine ⟨m, queue, by simp [Memide.step, sync], ?_⟩
      refine ⟨driven.holds, driven.distinct, driven.arrived, driven.started, driven.waiting, driven.called,
        driven.done, ?_, driven.given, driven.idle, driven.disk1, driven.memory, driven.panic⟩
      intro q asleep
      by_cases same : q = p
      · simp [same] at asleep
      · exact driven.sleepers q ((Function.update_of_ne same _ _).symm.trans asleep)
    | finish =>
      obtain ⟨d, finished, rfl⟩ := Option.map_eq_some_iff.mp moved
      exact ⟨m, queue, by simp [Memide.step, sync], driven.finish finished⟩
    | ideintr status =>
      cases moved
      obtain ⟨queue', driven'⟩ := driven.ideintr allowed.1 allowed.2
      exact ⟨m, queue', by simp [Memide.step, sync], driven'⟩
    | modify b v =>
      cases moved
      refine ⟨⟨m.toMemory.setBuf b v, m.panic⟩, queue, by simp [Memide.step, sync], driven.modify v allowed⟩

end Parts

variable [DecidableEq P]

/-- The interrupt-driven driver does what the synchronous one does, only later. -/
theorem ide_refines_memide (disksize : Nat) (buf : BufId → Buf) (disks : Fin 2 → Disk)
    (qnext : BufId → Option BufId) (port : Block) (actions : List (Action P)) (s : State P)
    (run : Run.exec step (init buf disks qnext port) actions = some s)
    (meets : Run.Meets step (Allowed disksize) (init buf disks qnext port) actions) :
    ∃ m queue, Run.exec (Memide.step disksize) ⟨⟨buf, disks 1⟩, none⟩ actions = some m ∧ s.panic = m.panic ∧
      s.idequeue.Holds queue ∧ queue.Nodup ∧
      (∀ b, b ∈ queue ↔ ¬ (s.buf b).Synced ∧ ∃ p, s.pc p = some b) ∧
      s.arrived = s.finished ++ queue ∧ s.started = s.finished ++ queue.head?.toList ∧
      (∀ b, queue.head? = some b → s.device.Given (s.buf b)) ∧
      (∀ p, s.asleep p = true → ∃ b ∈ queue, s.pc p = some b) ∧
      (∀ p b, s.panic = none → s.pc p = none → Allowed disksize s (.iderw p b) →
        (step s (.iderw p b)).isSome = true) ∧
      ((∀ p, s.pc p = none) → s.buf = m.buf ∧ s.device.disks 1 = m.memdisk) := by
  have start : ∃ queue, Driven (init buf disks qnext port : State P) ⟨⟨buf, disks 1⟩, none⟩ queue :=
    ⟨[], rfl, List.nodup_nil, rfl, rfl, by simp, by simp, by simp [init], by simp [init], by simp,
      fun _ => ⟨rfl, rfl⟩, rfl, rfl, rfl⟩
  obtain ⟨m, exec, queue, driven⟩ := Run.exec_simulation_of_meets step (Memide.step disksize) (Allowed disksize)
    (fun s m => ∃ queue, Driven s m queue)
    (fun s m a t related allowed moved => by
      obtain ⟨queue, driven⟩ := related
      obtain ⟨m', queue', synced, driven'⟩ := driven.step allowed moved
      exact ⟨m', synced, queue', driven'⟩)
    _ s _ actions start run meets
  refine ⟨m, queue, exec, driven.panic, driven.holds, driven.distinct, ?_, driven.arrived, driven.started,
    driven.given, driven.sleepers, ?_, ?_⟩
  · intro b
    constructor
    · exact fun member => ⟨(driven.waiting b member).1, driven.called b member⟩
    · rintro ⟨unsynced, p, calls⟩
      by_contra outside
      exact unsynced (driven.done p b calls outside)
  · intro p b panic idle allowed
    obtain ⟨s', -, -, called, -, -⟩ := driven.iderw idle panic allowed
    simp [step, panic, idle, called]
  · intro returned
    have empty : queue = [] := by
      cases queue with
      | nil => rfl
      | cons b rest =>
        obtain ⟨p, calls⟩ := driven.called b List.mem_cons_self
        simp [returned p] at calls
    subst empty
    have same : m.toMemory = ⟨s.buf, s.device.disks 1⟩ := driven.memory
    rw [same]
    exact ⟨rfl, rfl⟩

private def requestOf (b : BufId) : Buf := ⟨true, false, b = 0, 1, 7, fun _ => UInt8.ofNat b.val⟩

-- One process writes block 7, and another one has queued a read of the same block behind it.
private def twoRequests : List (Action (Fin 2)) :=
  [.ideintr 0x40, .iderw 0 0, .iderw 1 1, .finish, .ideintr 0x40, .awaken 1, .run 1, .finish, .ideintr 0x40,
    .run 0, .run 1]

theorem ide_refines_memide_two :
    ∃ s m, Run.exec step (init requestOf (fun _ _ _ => 9) (fun _ => none) fun _ => 9) twoRequests = some s ∧
      Run.exec (Memide.step 1000) ⟨⟨requestOf, fun _ _ => 9⟩, none⟩ twoRequests = some m ∧
        s.finished = [0, 1] ∧ s.buf = m.buf ∧ s.device.disks 1 = m.memdisk := by
  have reached : (Run.exec step (init requestOf (fun _ _ _ => 9) (fun _ => none) fun _ => 9) twoRequests).any
      (fun s => decide ((∀ p, s.pc p = none) ∧ s.finished = [0, 1])) = true := by decide +kernel
  obtain ⟨s, run, final⟩ := (Option.any_eq_true _ _).mp reached
  obtain ⟨returned, finished⟩ := of_decide_eq_true final
  have meets : Run.Meets step (Allowed 1000) (init requestOf (fun _ _ _ => 9) (fun _ => none) fun _ => 9)
      twoRequests := by decide +kernel
  obtain ⟨m, -, exec, -, -, -, -, -, -, -, -, -, same⟩ :=
    ide_refines_memide 1000 requestOf (fun _ _ _ => 9) (fun _ => none) (fun _ => 9) twoRequests s run meets
  exact ⟨s, m, run, exec, finished, same returned⟩

end Refinement

end Xv6.Io
