import Xv6.Lib.Chunk
import Xv6.Sys.Args

set_option autoImplicit false

/-!
# `sys_read`

The path of a read from the system call to the three kinds of open file, with every store into user
memory. What a reader finds each time it wakes up is given by the environment.
-/

namespace Xv6.Sys

open Memory

structure Pipe where
  data : Bytes.Buf PIPESIZE
  nread : UInt32
  nwrite : UInt32
  writeopen : Bool

-- What `consoleread` finds when it looks for the next character: one, or that it has been killed.
inductive ConsoleEvent where
  | char (c : UInt8)
  | killed

/-- An inode with the contents of its blocks; no file is longer than `MAXFILE` blocks. -/
structure Inode where
  type : Int
  major : Int
  size : UInt32
  fits : size.toNat ≤ MAXFILE * BSIZE
  block : Nat → Block

-- A pipe comes with what each test of the wait loop sees: the pipe, and whether the reader is killed.
inductive Target where
  | none
  | pipe (seen : List (Pipe × Bool))
  | inode (ip : Inode) (console : List ConsoleEvent)

structure File where
  readable : Bool
  target : Target
  off : UInt32

inductive Ret where
  | value (v : Int)
  | asleep
  | panic (p : Panic)

structure ReadResult where
  ret : Ret
  off : UInt32
  stores : List Store

-- The copy loop of `piperead`: `left` more bytes, the next one to `addr`.
def pipeCopy (p : Pipe) (addr : Nat) : Nat → UInt32 → List Store
  | 0, _ => []
  | left + 1, nread =>
    if nread = p.nwrite then []
    else ⟨addr, [Bytes.getByte p.data (nread.toNat % PIPESIZE)]⟩ :: pipeCopy p (addr + 1) left (nread + 1)

def piperead (addr : Nat) (n : Int) : List (Pipe × Bool) → Ret × List Store
  | [] => (.asleep, [])
  | (p, killed) :: seen =>
    if p.nread = p.nwrite ∧ p.writeopen then
      if killed then (.value (-1), []) else piperead addr n seen
    else
      let copied := pipeCopy p addr n.toNat p.nread
      (.value copied.length, copied)

-- The loop of `consoleread`, with the count of bytes stored so far. Control-D ends it, and so does
-- a newline, which is stored.
def consoleLoop (dst : Nat) (n : Int) (done : Nat) : List ConsoleEvent → Ret × List Store
  | [] => if n > 0 then (.asleep, []) else (.value done, [])
  | event :: events =>
    if n > 0 then
      match event with
      | .killed => (.value (-1), [])
      | .char c =>
        if c = 4 then (.value done, [])
        else if c = 10 then (.value (done + 1), [⟨dst, [c]⟩])
        else
          let rest := consoleLoop (dst + 1) (n - 1) (done + 1) events
          (rest.1, ⟨dst, [c]⟩ :: rest.2)
    else (.value done, [])

def consoleread (dst : Nat) (n : Int) (events : List ConsoleEvent) : Ret × List Store :=
  consoleLoop dst n 0 events

-- The bytes of one chunk, stored where the chunk belongs in the buffer.
def chunkStore (ip : Inode) (dst : Nat) (c : Split.Chunk) : Store :=
  ⟨dst + c.done, (List.range c.len).map fun k => Bytes.getByte (ip.block c.block) (c.offset + k)⟩

-- `n` is unsigned here. The console is the only device with a read function.
def readi (ip : Inode) (console : List ConsoleEvent) (dst : Nat) (off n : UInt32) : Ret × List Store :=
  if ip.type = T_DEV then
    if ip.major = CONSOLE then consoleread dst (int n) console else (.value (-1), [])
  else if off > ip.size ∨ off + n < off then (.value (-1), [])
  else
    let n := if off + n > ip.size then ip.size - off else n
    (.value (int n), (Split.chunks BSIZE off.toNat n.toNat).map (chunkStore ip dst))

def fileread (f : File) (addr : Nat) (n : UInt32) : ReadResult :=
  if f.readable = false then ⟨.value (-1), f.off, []⟩
  else
    match f.target with
    | .pipe seen => ⟨(piperead addr (int n) seen).1, f.off, (piperead addr (int n) seen).2⟩
    | .inode ip console =>
      let r := readi ip console addr f.off n
      let off :=
        match r.1 with
        | .value v => if v > 0 then f.off + UInt32.ofNat v.toNat else f.off
        | _ => f.off
      ⟨r.1, off, r.2⟩
    | .none => ⟨.panic .fileread, f.off, []⟩

def argfd (c : Caller) (ofile : Fin NOFILE → Option File) (n : UInt32) : Option File :=
  match argint c n with
  | none => none
  | some fd =>
    if 0 ≤ int fd ∧ int fd < NOFILE then ofile (Fin.ofNat NOFILE (int fd).toNat) else none

def sysRead (c : Caller) (ofile : Fin NOFILE → Option File) : Ret × List Store :=
  match argfd c ofile 0, argint c 2 with
  | some f, some n =>
    match argptr c 1 n with
    | some p => ((fileread f p.toNat n).ret, (fileread f p.toNat n).stores)
    | none => (.value (-1), [])
  | _, _ => (.value (-1), [])

/-- Every byte stored is one of the `limit` bytes at `a`. -/
def Within (l : List Store) (a limit : Nat) : Prop := ∀ s ∈ l, a ≤ s.addr ∧ s.stop ≤ a + limit

theorem pipeCopy_within (p : Pipe) (addr left : Nat) (nread : UInt32) :
    Within (pipeCopy p addr left nread) addr left := by
  induction left generalizing addr nread with
  | zero => simp [pipeCopy, Within]
  | succ left ih =>
    rw [pipeCopy]
    split
    next => simp [Within]
    next =>
      intro s member
      rcases List.mem_cons.mp member with rfl | later
      · simp [Store.stop]
      · have inside := ih (addr + 1) (nread + 1) s later
        omega

theorem piperead_within (addr : Nat) (n : Int) (seen : List (Pipe × Bool)) :
    Within (piperead addr n seen).2 addr n.toNat := by
  induction seen with
  | nil => simp [piperead, Within]
  | cons first seen ih =>
    obtain ⟨p, killed⟩ := first
    rw [piperead]
    split
    next =>
      cases killed
      · exact ih
      · simp [Within]
    next => exact pipeCopy_within p addr n.toNat p.nread

theorem consoleLoop_within (dst : Nat) (n : Int) (done : Nat) (events : List ConsoleEvent) :
    Within (consoleLoop dst n done events).2 dst n.toNat := by
  induction events generalizing dst n done with
  | nil =>
    rw [consoleLoop]
    split <;> simp [Within]
  | cons event events ih =>
    cases event with
    | killed =>
      rw [consoleLoop]
      split <;> simp [Within]
    | char c =>
      rw [consoleLoop]
      split
      next positive =>
        split
        next => simp [Within]
        next =>
          split
          next =>
            intro s member
            rw [List.mem_singleton] at member
            subst member
            simp [Store.stop]
            omega
          next =>
            intro s member
            rcases List.mem_cons.mp member with rfl | later
            · simp [Store.stop]
              omega
            · have inside := ih (dst + 1) (n - 1) (done + 1) s later
              omega
      next => simp [Within]

theorem chunkStores_within (ip : Inode) (dst off n : Nat) :
    Within ((Split.chunks BSIZE off n).map (chunkStore ip dst)) dst n := by
  intro s member
  obtain ⟨c, chunk, rfl⟩ := List.mem_map.mp member
  have inside := Split.chunks_inside BSIZE off n c chunk
  simp [chunkStore, Store.stop]
  omega

theorem int_of_nonneg (n : UInt32) (nonneg : 0 ≤ int n) : (int n).toNat = n.toNat := by
  have bound := n.toNat_lt
  rw [int_eq] at nonneg ⊢
  by_cases small : n.toNat < 2 ^ 31
  · rw [if_pos small, Int.toNat_natCast]
  · rw [if_neg small] at nonneg
    omega

theorem fileread_within (f : File) (addr : Nat) (n : UInt32) (nonneg : 0 ≤ int n) :
    Within (fileread f addr n).stores addr n.toNat := by
  have same := int_of_nonneg n nonneg
  rw [fileread]
  split
  next => simp [Within]
  next =>
    cases f.target with
    | none => simp [Within]
    | pipe seen => exact same ▸ piperead_within addr (int n) seen
    | inode ip console =>
      change Within (readi ip console addr f.off n).2 addr n.toNat
      rw [readi]
      split
      next =>
        split
        next => exact same ▸ consoleLoop_within addr (int n) 0 console
        next => simp [Within]
      next =>
        split
        next => simp [Within]
        next allowed =>
          have copied := chunkStores_within ip addr f.off.toNat
            (if f.off + n > ip.size then ip.size - f.off else n).toNat
          have less : (if f.off + n > ip.size then ip.size - f.off else n).toNat ≤ n.toNat := by
            simp only [gt_iff_lt, UInt32.lt_iff_toNat_lt, not_or, not_lt, UInt32.toNat_add] at allowed ⊢
            split
            next longer =>
              rw [UInt32.toNat_sub_of_le _ _ (by rw [UInt32.le_iff_toNat_le]; omega)]
              omega
            next => exact Nat.le_refl _
          intro s member
          have inside := copied s member
          omega

/-- The file has data at its offset, and the sum with the unsigned count does not wrap. -/
def Overreads (f : File) (n : UInt32) : Prop :=
  f.readable = true ∧ ∃ ip console, f.target = .inode ip console ∧ ip.type ≠ T_DEV ∧
    f.off.toNat < ip.size.toNat ∧ f.off.toNat + n.toNat < 2 ^ 32

theorem toNat_of_negative (n : UInt32) (negative : int n < 0) : 2 ^ 31 ≤ n.toNat := by
  rw [int_eq] at negative
  by_contra small
  rw [if_pos (by omega)] at negative
  omega

theorem readi_negative (ip : Inode) (console : List ConsoleEvent) (dst : Nat) (off n : UInt32)
    (regular : ip.type ≠ T_DEV) (negative : int n < 0) :
    (readi ip console dst off n).2 =
      if off.toNat < ip.size.toNat ∧ off.toNat + n.toNat < 2 ^ 32 then
        (Split.chunks BSIZE off.toNat (ip.size.toNat - off.toNat)).map (chunkStore ip dst)
      else [] := by
  have large := toNat_of_negative n negative
  have short := ip.fits
  have bound := n.toNat_lt
  simp only [MAXFILE, NDIRECT, NINDIRECT, BSIZE] at short
  rw [readi, if_neg regular]
  simp only [gt_iff_lt, UInt32.lt_iff_toNat_lt, UInt32.toNat_add]
  by_cases refused : ip.size.toNat < off.toNat ∨ (off.toNat + n.toNat) % 2 ^ 32 < off.toNat
  · rw [if_pos refused, if_neg (by omega)]
  · have long : ip.size.toNat < (off.toNat + n.toNat) % 2 ^ 32 := by omega
    have rest : (ip.size - off).toNat = ip.size.toNat - off.toNat :=
      UInt32.toNat_sub_of_le _ _ (by rw [UInt32.le_iff_toNat_le]; omega)
    rw [if_neg refused, if_pos long]
    dsimp only
    rw [rest]
    by_cases data : off.toNat < ip.size.toNat
    · rw [if_pos ⟨data, by omega⟩]
    · rw [if_neg (by omega), show ip.size.toNat - off.toNat = 0 by omega]
      rfl

-- A negative count stops the loops of pipes and of the console before their first store.
theorem fileread_negative_within (f : File) (addr : Nat) (n : UInt32) (negative : int n < 0)
    (harmless : ¬ Overreads f n) : Within (fileread f addr n).stores addr 0 := by
  have zero : (int n).toNat = 0 := by omega
  rw [fileread]
  split
  next => simp [Within]
  next readable =>
    cases target : f.target with
    | none => simp [Within]
    | pipe seen => exact zero ▸ piperead_within addr (int n) seen
    | inode ip console =>
      change Within (readi ip console addr f.off n).2 addr 0
      by_cases device : ip.type = T_DEV
      · rw [readi, if_pos device]
        split
        next => exact zero ▸ consoleLoop_within addr (int n) 0 console
        next => simp [Within]
      · have nothing : ¬ (f.off.toNat < ip.size.toNat ∧ f.off.toNat + n.toNat < 2 ^ 32) :=
          fun data => harmless ⟨by simpa using readable, ip, console, target, device, data⟩
        rw [readi_negative ip console addr f.off n device negative, if_neg nothing]
        simp [Within]

theorem fileread_overreads (f : File) (addr : Nat) (n : UInt32) (negative : int n < 0)
    (harm : Overreads f n) : ∃ s ∈ (fileread f addr n).stores, s.addr = addr ∧ addr < s.stop := by
  obtain ⟨readable, ip, console, target, regular, data⟩ := harm
  have stored : (fileread f addr n).stores =
      (Split.chunks BSIZE f.off.toNat (ip.size.toNat - f.off.toNat)).map (chunkStore ip addr) := by
    have read := readi_negative ip console addr f.off n regular negative
    rw [if_pos data] at read
    rw [← read, fileread, if_neg (by simp [readable]), target]
  obtain ⟨c, member, start, long⟩ :=
    Split.chunks_first BSIZE f.off.toNat (ip.size.toNat - f.off.toNat) (by decide) (by omega)
  refine ⟨chunkStore ip addr c, ?_, ?_, ?_⟩
  · rw [stored]
    exact List.mem_map_of_mem member
  · simp [chunkStore, start]
  · simp [chunkStore, Store.stop, start]
    omega

/-- What the call may do with a buffer and a count that it could fetch. -/
def InBuffer (c : Caller) (l : List Store) (p n : UInt32) : Prop :=
  ∀ s ∈ l, ∀ a, s.addr ≤ a → a < s.stop →
    p.toNat ≤ a ∧ (a : Int) < p.toNat + max (int n) 0 ∧ a < c.sz.toNat

theorem inBuffer_of_within (c : Caller) (l : List Store) (p n : UInt32) (limit : Nat)
    (within : Within l p.toNat limit) (short : (limit : Int) ≤ max (int n) 0)
    (below : p.toNat + limit ≤ c.sz.toNat) : InBuffer c l p n := by
  intro s member a low high
  have inside := within s member
  omega

theorem fileread_inBuffer_iff (c : Caller) (f : File) (p n : UInt32) (inside : p.toNat < c.sz.toNat)
    (checked : (p.toNat + n.toNat) % 2 ^ 32 ≤ c.sz.toNat) :
    InBuffer c (fileread f p.toNat n).stores p n ↔ ¬ (int n < 0 ∧ Overreads f n) := by
  have user := c.user
  simp only [KERNBASE] at user
  by_cases negative : int n < 0
  · by_cases harm : Overreads f n
    · obtain ⟨s, member, start, long⟩ := fileread_overreads f p.toNat n negative harm
      constructor
      · intro confined
        have bounds := confined s member p.toNat (by omega) long
        omega
      · exact fun safe => (safe ⟨negative, harm⟩).elim
    · have within := fileread_negative_within f p.toNat n negative harm
      have confined := inBuffer_of_within c _ p n 0 within (by omega) (by omega)
      exact ⟨fun _ both => harm both.2, fun _ => confined⟩
  · have same := int_of_nonneg n (by omega)
    have small : n.toNat < 2 ^ 31 := by
      by_contra large
      rw [int_eq, if_neg large] at negative
      have bound := n.toNat_lt
      omega
    have within := fileread_within f p.toNat n (by omega)
    have confined := inBuffer_of_within c _ p n n.toNat within (by omega) (by omega)
    exact ⟨fun _ both => negative both.1, fun _ => confined⟩

/-- Only the caller's buffer is written. -/
def BufferOnly (c : Caller) (ofile : Fin NOFILE → Option File) : Prop :=
  (argint c 1 = none ∨ argint c 2 = none → (sysRead c ofile).2 = []) ∧
    ∀ p n, argint c 1 = some p → argint c 2 = some n → InBuffer c (sysRead c ofile).2 p n

/-- A descriptor, a pointer and a count with which the call reads past its buffer. -/
def Escapes (c : Caller) (f : File) (p n : UInt32) : Prop :=
  p.toNat < c.sz.toNat ∧ (p.toNat + n.toNat) % 2 ^ 32 ≤ c.sz.toNat ∧ int n < 0 ∧ Overreads f n

theorem sysRead_unfetched (c : Caller) (ofile : Fin NOFILE → Option File)
    (missing : argint c 1 = none ∨ argint c 2 = none) : (sysRead c ofile).2 = [] := by
  rcases missing with pointer | count
  · rw [sysRead]
    split
    next => simp [argptr, pointer]
    next => rfl
  · cases opened : argfd c ofile 0 <;> simp [sysRead, opened, count]

theorem sysRead_inBuffer_iff (c : Caller) (ofile : Fin NOFILE → Option File) (p n : UInt32)
    (pointer : argint c 1 = some p) (count : argint c 2 = some n) :
    InBuffer c (sysRead c ofile).2 p n ↔ ∀ f, argfd c ofile 0 = some f → ¬ Escapes c f p n := by
  cases opened : argfd c ofile 0 with
  | none => simp [sysRead, opened, InBuffer]
  | some f =>
    have check := argptr_eq_some_iff c 1 n p p pointer
    by_cases accepted : p.toNat < c.sz.toNat ∧ (p.toNat + n.toNat) % 2 ^ 32 ≤ c.sz.toNat
    · have run : (sysRead c ofile).2 = (fileread f p.toNat n).stores := by
        simp [sysRead, opened, count, check.mpr ⟨rfl, accepted⟩]
      rw [run, fileread_inBuffer_iff c f p n accepted.1 accepted.2]
      constructor
      · intro safe g same
        cases same
        exact fun escapes => safe ⟨escapes.2.2.1, escapes.2.2.2⟩
      · intro safe both
        exact safe f rfl ⟨accepted.1, accepted.2, both.1, both.2⟩
    · have refused : argptr c 1 n = none := by
        by_contra given
        obtain ⟨q, got⟩ := Option.ne_none_iff_exists'.mp given
        exact accepted ((argptr_eq_some_iff c 1 n p q pointer).mp got).2
      have run : (sysRead c ofile).2 = [] := by simp [sysRead, opened, count, refused]
      rw [run]
      constructor
      · intro _ g same
        cases same
        exact fun escapes => accepted ⟨escapes.1, escapes.2.1⟩
      · simp [InBuffer]

theorem sys_read_buffer_only_iff (c : Caller) (ofile : Fin NOFILE → Option File) :
    BufferOnly c ofile ↔
      ∀ f p n, argfd c ofile 0 = some f → argint c 1 = some p → argint c 2 = some n →
        ¬ Escapes c f p n := by
  constructor
  · intro only f p n opened pointer count
    exact (sysRead_inBuffer_iff c ofile p n pointer count).mp (only.2 p n pointer count) f opened
  · intro safe
    refine ⟨sysRead_unfetched c ofile, ?_⟩
    intro p n pointer count
    exact (sysRead_inBuffer_iff c ofile p n pointer count).mpr fun f opened => safe f p n opened pointer count

-- read(0, 4095, -1) at the start of a file of one block, by a process of one page.
def negativeRead : Caller where
  sz := 4096
  user := onePage_user
  esp := 0
  mem := stores (fun _ => 0) [wordStore 8 4095, wordStore 12 0xffffffff]

def oneBlock : File where
  readable := true
  target := .inode ⟨T_FILE, 0, 512, by decide, fun _ _ => 0⟩ []
  off := 0

theorem sys_read_overruns : ¬ BufferOnly negativeRead (fun _ => some oneBlock) := by
  intro only
  have opened : argint negativeRead 0 = some 0 := by decide +kernel
  have pointer : argint negativeRead 1 = some 4095 := by decide +kernel
  have count : argint negativeRead 2 = some 0xffffffff := by decide +kernel
  have file : argfd negativeRead (fun _ => some oneBlock) 0 = some oneBlock := by
    rw [argfd, opened]
    rfl
  have safe := (sysRead_inBuffer_iff negativeRead _ 4095 0xffffffff pointer count).mp
    (only.2 _ _ pointer count) oneBlock file
  exact safe ⟨by decide, by decide, by decide, rfl, _, _, rfl, by decide, by decide, by decide⟩

end Xv6.Sys
