import Xv6.Lib.Run
import Xv6.Fs.Dir

set_option autoImplicit false

/-!
# System calls on files

`file.c`, `pipe.c`, `sysfile.c` and the parts of `fork`, `exit` and `wait` that concern files. A
system call runs from start to end before the next one; its arguments have been fetched.
-/

namespace Xv6.Fs

-- A pipe is the page that holds it. `serial` counts the calls of `pipealloc`, which reuse pages.
inductive FileType where
  | none
  | pipe (page serial : Nat)
  | inode (ip : Slot)
deriving DecidableEq

structure File where
  type : FileType
  ref : Int
  readable : Bool
  writable : Bool
  off : UInt32
deriving DecidableEq

abbrev Pid := Fin NPROC
abbrev FileId := Fin NFILE
abbrev Fd := Fin NOFILE

inductive ProcState where
  | unused
  | running
  | zombie
deriving DecidableEq

structure Proc where
  state : ProcState
  parent : Option Pid
  cwd : Option Slot
  ofile : Fd → Option FileId

structure Pipe where
  readopen : Bool
  writeopen : Bool

structure Tables where
  file : FileId → File
  proc : Pid → Proc
  pipe : Nat → Pipe
  -- The free pages, and those that page tables, memory and stacks of processes have.
  kmem : List Nat
  others : List Nat
  -- How many pipes have been made, and how often `pipeclose` has freed the page of each.
  pipes : Nat
  freed : Nat → Nat

structure Kernel (σ : Type) extends Tables where
  fs : σ

section Lifting

variable {σ α : Type}

def onFs (m : Op σ α) : Op (Kernel σ) α := fun k =>
  match m k.fs with
  | .ok (a, fs) => .ok (a, { k with fs := fs })
  | .error e => .error e

def tables : Op (Kernel σ) Tables := do return (← get).toTables

def setTables (f : Tables → Tables) : Op (Kernel σ) Unit :=
  modify fun k => { k with toTables := f k.toTables }

def setFile (f : FileId) (file : File → File) : Op (Kernel σ) Unit :=
  setTables fun t => { t with file := Function.update t.file f (file (t.file f)) }

def setProc (p : Pid) (proc : Proc → Proc) : Op (Kernel σ) Unit :=
  setTables fun t => { t with proc := Function.update t.proc p (proc (t.proc p)) }

def setOfile (p : Pid) (fd : Fd) (f : Option FileId) : Op (Kernel σ) Unit :=
  setProc p fun proc => { proc with ofile := Function.update proc.ofile fd f }

def setCwd (p : Pid) (cwd : Option Slot) : Op (Kernel σ) Unit :=
  setProc p fun proc => { proc with cwd := cwd }

def setPipe (page : Nat) (pipe : Pipe) : Op (Kernel σ) Unit :=
  setTables fun t => { t with pipe := Function.update t.pipe page pipe }

def kalloc : Op (Kernel σ) (Option Nat) := do
  let t ← tables
  match t.kmem with
  | [] => return none
  | page :: kmem => do
    setTables fun t => { t with kmem := kmem }
    return some page

def kfree (page : Nat) : Op (Kernel σ) Unit :=
  setTables fun t => { t with kmem := page :: t.kmem }

end Lifting

section Calls

variable {σ : Type} (ops : Ops σ)

def filealloc : Op (Kernel σ) (Option FileId) := do
  let t ← tables
  match (List.finRange NFILE).find? fun f => (t.file f).ref = 0 with
  | none => return none
  | some f => do
    setFile f fun file => { file with ref := 1 }
    return some f

def fdalloc (p : Pid) (f : FileId) : Op (Kernel σ) (Option Fd) := do
  let t ← tables
  match (List.finRange NOFILE).find? fun fd => (t.proc p).ofile fd = none with
  | none => return none
  | some fd => do
    setOfile p fd (some f)
    return some fd

def filedup (f : FileId) : Op (Kernel σ) Unit := do
  let t ← tables
  if (t.file f).ref < 1 then throw (.panic .filedup)
  else setFile f fun file => { file with ref := file.ref + 1 }

def pipeclose (page serial : Nat) (writable : Bool) : Op (Kernel σ) Unit := do
  let t ← tables
  let pipe := t.pipe page
  let pipe := if writable then { pipe with writeopen := false } else { pipe with readopen := false }
  setPipe page pipe
  if pipe.readopen = false ∧ pipe.writeopen = false then do
    setTables fun t => { t with freed := Function.update t.freed serial (t.freed serial + 1) }
    kfree page
  else return ()

def fileclose (f : FileId) : Op (Kernel σ) Unit := do
  let t ← tables
  let ff := t.file f
  if ff.ref < 1 then throw (.panic .fileclose)
  else if ff.ref - 1 > 0 then setFile f fun file => { file with ref := file.ref - 1 }
  else do
    setFile f fun file => { file with ref := 0, type := .none }
    match ff.type with
    | .pipe page serial => pipeclose page serial ff.writable
    | .inode ip => onFs do
      ops.beginOp
      ops.iput ip
      ops.endOp
    | .none => return ()

def filestat (f : FileId) : Op (Kernel σ) Int := do
  let t ← tables
  match (t.file f).type with
  | .inode ip => do
    onFs (ops.ilock ip)
    let _ ← onFs (ops.stati ip)
    onFs (ops.iunlock ip)
    return 0
  | _ => return -1

-- The offset moves by the number of bytes copied, if any.
def advance (f : FileId) (r : Int) : Op (Kernel σ) Unit :=
  if r > 0 then setFile f fun file => { file with off := file.off + UInt32.ofNat r.toNat } else return ()

-- `other` is what `piperead` or the console returns.
def fileread (f : FileId) (n : UInt32) (other : Int) : Op (Kernel σ) Int := do
  let t ← tables
  let ff := t.file f
  if ff.readable = false then return -1
  else
    match ff.type with
    | .pipe _ _ => return other
    | .inode ip => do
      onFs (ops.ilock ip)
      let r ← onFs (ops.readi ip ff.off n other)
      advance f r.1
      onFs (ops.iunlock ip)
      return r.1
    | .none => throw (.panic .fileread)

-- One turn of the loop of `filewrite`, in a transaction of its own.
def writeTurn (f : FileId) (ip : Slot) (src : Nat → UInt8) (n : Nat) : Op (Kernel σ) Int := do
  onFs ops.beginOp
  onFs (ops.ilock ip)
  let t ← tables
  let r ← onFs (ops.writei ip src (t.file f).off (UInt32.ofNat n))
  advance f r
  onFs (ops.iunlock ip)
  onFs ops.endOp
  return r

abbrev maxWrite : Nat := (LOGSIZE - 1 - 1 - 2) / 2 * 512

-- `left` more turns at most, with `i` of `n` bytes written. Each turn writes at least one byte.
def writeLoop (f : FileId) (ip : Slot) (src : Nat → UInt8) (n : Nat) : Nat → Nat → Op (Kernel σ) Int
  | 0, i => return if i = n then n else -1
  | left + 1, i =>
    if i < n then do
      let n1 := min (n - i) maxWrite
      let r ← writeTurn ops f ip (fun k => src (i + k)) n1
      if r < 0 then return -1
      else if r ≠ n1 then throw (.panic .shortFilewrite)
      else writeLoop f ip src n left (i + n1)
    else return if i = n then n else -1

-- `n` is negative or a number of bytes below 2 ^ 31.
def filewrite (f : FileId) (src : Nat → UInt8) (n : Int) (other : Int) : Op (Kernel σ) Int := do
  let t ← tables
  if (t.file f).writable = false then return -1
  else
    match (t.file f).type with
    | .pipe _ _ => return other
    | .inode ip => if n < 0 then return -1 else writeLoop ops f ip src n.toNat n.toNat 0
    | .none => throw (.panic .filewrite)

def sysDup (p : Pid) (f : FileId) : Op (Kernel σ) Int := do
  let fd ← fdalloc p f
  match fd with
  | none => return -1
  | some fd => do
    filedup f
    return fd.val

def sysClose (p : Pid) (fd : Fd) (f : FileId) : Op (Kernel σ) Int := do
  setOfile p fd none
  fileclose ops f
  return 0

-- The descriptor is found before the call is made.
def argfd (p : Pid) (fd : Fd) (call : FileId → Op (Kernel σ) Int) : Op (Kernel σ) Int := do
  let t ← tables
  match (t.proc p).ofile fd with
  | none => return -1
  | some f => call f

def linkBad (ip : Slot) : Op σ Int := do
  ops.ilock ip
  ops.iupdate ip fun a => { a with nlink := a.nlink - 1 }
  iunlockput ops ip
  ops.endOp
  return -1

def sysLink (cwd : Slot) (old new : List UInt8) : Op σ Int := do
  ops.beginOp
  let found ← namei ops cwd old
  match found with
  | none => do
    ops.endOp
    return -1
  | some ip => do
    ops.ilock ip
    let st ← ops.stati ip
    if st.type = tDir then do
      iunlockput ops ip
      ops.endOp
      return -1
    else do
      ops.iupdate ip fun a => { a with nlink := a.nlink + 1 }
      ops.iunlock ip
      let parent ← nameiparent ops cwd new
      match parent with
      | none => linkBad ops ip
      | some (dp, name) => do
        ops.ilock dp
        let dst ← ops.stati dp
        if dst.dev ≠ st.dev then do
          iunlockput ops dp
          linkBad ops ip
        else do
          let linked ← dirlink ops dp name st.ino
          if linked then do
            iunlockput ops dp
            ops.iput ip
            ops.endOp
            return 0
          else do
            iunlockput ops dp
            linkBad ops ip

def unlinkBad (dp : Slot) : Op σ Int := do
  iunlockput ops dp
  ops.endOp
  return -1

-- The parent of a directory loses the link for "..".
def unlinkDir (dp : Slot) (type : Int16) : Op σ Unit :=
  if type = tDir then ops.iupdate dp fun a => { a with nlink := a.nlink - 1 } else return ()

-- Remove the entry at `off` of `dp`, the name of `ip`. Both are locked.
def unlinkEntry (dp ip : Slot) (off : Nat) (type : Int16) : Op σ Int := do
  writeDirent ops dp ⟨0, List.replicate DIRSIZ 0⟩ off .unlinkWritei
  unlinkDir ops dp type
  iunlockput ops dp
  ops.iupdate ip fun a => { a with nlink := a.nlink - 1 }
  iunlockput ops ip
  ops.endOp
  return 0

def removable (ip : Slot) (type : Int16) : Op σ Bool :=
  if type = tDir then isdirempty ops ip else return true

def sysUnlink (cwd : Slot) (path : List UInt8) : Op σ Int := do
  ops.beginOp
  let parent ← nameiparent ops cwd path
  match parent with
  | none => do
    ops.endOp
    return -1
  | some (dp, name) => do
    ops.ilock dp
    -- Cannot unlink "." or "..".
    if namecmp name dot = 0 ∨ namecmp name dotdot = 0 then unlinkBad ops dp
    else do
      let found ← dirlookup ops dp name
      match found with
      | none => unlinkBad ops dp
      | some (ip, off) => do
        ops.ilock ip
        let st ← ops.stati ip
        if st.nlink < 1 then throw (.panic .unlinkNlink)
        else do
          let empty ← removable ops ip st.type
          if empty then unlinkEntry ops dp ip off st.type
          else do
            iunlockput ops ip
            unlinkBad ops dp

-- The inode that `sys_open` opens, locked.
def openInode (cwd : Slot) (path : List UInt8) (omode : UInt32) : Op σ (Option Slot) := do
  if omode &&& O_CREATE ≠ 0 then create ops cwd path tFile 0 0
  else do
    let found ← namei ops cwd path
    match found with
    | none => return none
    | some ip => do
      ops.ilock ip
      let st ← ops.stati ip
      if st.type = tDir ∧ omode ≠ O_RDONLY then do
        iunlockput ops ip
        return none
      else return some ip

def openBad (ip : Slot) : Op σ Int := do
  iunlockput ops ip
  ops.endOp
  return -1

def sysOpen (p : Pid) (cwd : Slot) (path : List UInt8) (omode : UInt32) : Op (Kernel σ) Int := do
  onFs ops.beginOp
  let found ← onFs (openInode ops cwd path omode)
  match found with
  | none => do
    onFs ops.endOp
    return -1
  | some ip => do
    let f ← filealloc
    match f with
    | none => onFs (openBad ops ip)
    | some f => do
      let fd ← fdalloc p f
      match fd with
      | none => do
        fileclose ops f
        onFs (openBad ops ip)
      | some fd => do
        onFs (ops.iunlock ip)
        onFs ops.endOp
        setFile f fun file =>
          { file with
            type := .inode ip
            readable := decide (omode &&& O_WRONLY = 0)
            writable := decide (omode &&& O_WRONLY ≠ 0 ∨ omode &&& O_RDWR ≠ 0)
            off := 0 }
        return fd.val

-- `sys_mkdir` and `sys_mknod` differ in what they create.
def sysMake (cwd : Slot) (path : List UInt8) (type major minor : Int16) : Op σ Int := do
  ops.beginOp
  let made ← create ops cwd path type major minor
  match made with
  | none => do
    ops.endOp
    return -1
  | some ip => do
    iunlockput ops ip
    ops.endOp
    return 0

def sysMkdir (cwd : Slot) (path : List UInt8) : Op σ Int := sysMake ops cwd path tDir 0 0

-- The device numbers are passed as `short`.
def sysMknod (cwd : Slot) (path : List UInt8) (major minor : Int) : Op σ Int :=
  sysMake ops cwd path tDev (.ofInt major) (.ofInt minor)

def chdirTo (cwd : Slot) (path : List UInt8) : Op σ (Option Slot) := do
  ops.beginOp
  let found ← namei ops cwd path
  match found with
  | none => do
    ops.endOp
    return none
  | some ip => do
    ops.ilock ip
    let st ← ops.stati ip
    if st.type ≠ tDir then do
      iunlockput ops ip
      ops.endOp
      return none
    else do
      ops.iunlock ip
      ops.iput cwd
      ops.endOp
      return some ip

def sysChdir (p : Pid) (cwd : Slot) (path : List UInt8) : Op (Kernel σ) Int := do
  let found ← onFs (chdirTo ops cwd path)
  match found with
  | none => return -1
  | some ip => do
    setCwd p (some ip)
    return 0

def readAll (ip : Slot) (console : Int) : List (UInt32 × UInt32) → Op σ Unit
  | [] => return ()
  | (off, n) :: reads => do
    let _ ← ops.readi ip off n console
    readAll ip console reads

-- What `exec` does to the file system: `reads` are the ranges that the headers ask for.
def execFile (cwd : Slot) (path : List UInt8) (reads : List (UInt32 × UInt32)) (console : Int) :
    Op σ Unit := do
  ops.beginOp
  let found ← namei ops cwd path
  match found with
  | none => ops.endOp
  | some ip => do
    ops.ilock ip
    readAll ops ip console reads
    iunlockput ops ip
    ops.endOp

def pipealloc : Op (Kernel σ) (Option (FileId × FileId)) := do
  let f0 ← filealloc
  match f0 with
  | none => return none
  | some f0 => do
    let f1 ← filealloc
    match f1 with
    | none => do
      fileclose ops f0
      return none
    | some f1 => do
      let page ← kalloc
      match page with
      | none => do
        fileclose ops f0
        fileclose ops f1
        return none
      | some page => do
        setPipe page ⟨true, true⟩
        let t ← tables
        setTables fun t => { t with pipes := t.pipes + 1 }
        setFile f0 fun file => { file with type := .pipe page t.pipes, readable := true, writable := false }
        setFile f1 fun file => { file with type := .pipe page t.pipes, readable := false, writable := true }
        return some (f0, f1)

def sysPipe (p : Pid) : Op (Kernel σ) Int := do
  let files ← pipealloc ops
  match files with
  | none => return -1
  | some (rf, wf) => do
    let fd0 ← fdalloc p rf
    match fd0 with
    | none => do
      fileclose ops rf
      fileclose ops wf
      return -1
    | some fd0 => do
      let fd1 ← fdalloc p wf
      match fd1 with
      | none => do
        setOfile p fd0 none
        fileclose ops rf
        fileclose ops wf
        return -1
      | some _ => return 0

def forkFiles (p child : Pid) : List Fd → Op (Kernel σ) Unit
  | [] => return ()
  | fd :: fds => do
    let t ← tables
    match (t.proc p).ofile fd with
    | none => forkFiles p child fds
    | some f => do
      filedup f
      setOfile child fd (some f)
      forkFiles p child fds

-- `memory` says whether there are pages for the stack and the memory of the new process.
def fork (p : Pid) (cwd : Slot) (memory : Bool) : Op (Kernel σ) Int := do
  let t ← tables
  match (List.finRange NPROC).find? fun np => (t.proc np).state = .unused with
  | none => return -1
  | some np =>
    if memory then do
      setProc np fun proc => { proc with parent := some p }
      forkFiles p np (List.finRange NOFILE)
      let ip ← onFs (ops.idup cwd)
      setCwd np (some ip)
      setProc np fun proc => { proc with state := .running }
      return np.val
    else return -1

def closeAll (p : Pid) : List Fd → Op (Kernel σ) Unit
  | [] => return ()
  | fd :: fds => do
    let t ← tables
    match (t.proc p).ofile fd with
    | none => closeAll p fds
    | some f => do
      fileclose ops f
      setOfile p fd none
      closeAll p fds

def initproc : Pid := 0

-- Pass abandoned children to init.
def abandon (p : Pid) (proc : Proc) : Proc :=
  if proc.parent = some p then { proc with parent := some initproc } else proc

def exit (p : Pid) (cwd : Slot) : Op (Kernel σ) Int := do
  if p = initproc then throw (.panic .initExiting)
  else do
    closeAll ops p (List.finRange NOFILE)
    onFs ops.beginOp
    onFs (ops.iput cwd)
    onFs ops.endOp
    setCwd p none
    setTables fun t => { t with proc := fun q => abandon p (t.proc q) }
    setProc p fun proc => { proc with state := .zombie }
    return 0

-- `killed` is the flag of the caller, which would sleep without it.
def wait (p : Pid) (killed : Bool) : Op (Kernel σ) Int := do
  let t ← tables
  match (List.finRange NPROC).find? fun q => (t.proc q).parent = some p ∧ (t.proc q).state = .zombie with
  | some q => do
    setProc q fun proc => { proc with state := .unused, parent := none }
    return q.val
  | none =>
    if (∀ q, (t.proc q).parent ≠ some p) ∨ killed then return -1
    else throw .asleep

end Calls

inductive Call where
  | «open» (path : List UInt8) (omode : UInt32)
  | read (fd : Fd) (n : UInt32) (other : Int)
  | write (fd : Fd) (src : Nat → UInt8) (n other : Int)
  | close (fd : Fd)
  | dup (fd : Fd)
  | fstat (fd : Fd)
  | mkdir (path : List UInt8)
  | mknod (path : List UInt8) (major minor : Int)
  | link (old new : List UInt8)
  | unlink (path : List UInt8)
  | chdir (path : List UInt8)
  | exec (path : List UInt8) (reads : List (UInt32 × UInt32)) (console : Int)
  | pipe
  | fork (memory : Bool)
  | exit
  | wait (killed : Bool)

section Runs

variable {σ : Type} (ops : Ops σ)

def perform (p : Pid) (cwd : Slot) : Call → Op (Kernel σ) Int
  | .open path omode => sysOpen ops p cwd path omode
  | .read fd n other => argfd p fd fun f => fileread ops f n other
  | .write fd src n other => argfd p fd fun f => filewrite ops f src n other
  | .close fd => argfd p fd fun f => sysClose ops p fd f
  | .dup fd => argfd p fd fun f => sysDup p f
  | .fstat fd => argfd p fd fun f => filestat ops f
  | .mkdir path => onFs (sysMkdir ops cwd path)
  | .mknod path major minor => onFs (sysMknod ops cwd path major minor)
  | .link old new => onFs (sysLink ops cwd old new)
  | .unlink path => onFs (sysUnlink ops cwd path)
  | .chdir path => sysChdir ops p cwd path
  | .exec path reads console => do
    onFs (execFile ops cwd path reads console)
    return 0
  | .pipe => sysPipe ops p
  | .fork memory => fork ops p cwd memory
  | .exit => exit ops p cwd
  | .wait killed => wait p killed

-- Process `p` makes a call; a slot without a running process has no current directory and makes none.
def syscall (p : Pid) (call : Call) : Op (Kernel σ) Int := do
  let t ← tables
  match (t.proc p).cwd with
  | none => return -1
  | some cwd => perform ops p cwd call

-- Besides the calls, pages go to the memory of processes and come back.
inductive Event where
  | call (p : Pid) (call : Call)
  | kalloc
  | kfree (page : Nat)

-- The state after an event. A call that does not complete has none.
def next (k : Kernel σ) : Event → Option (Kernel σ)
  | .call p call =>
    match syscall ops p call k with
    | .ok (_, k') => some k'
    | .error _ => none
  | .kalloc =>
    match k.kmem with
    | [] => some k
    | page :: kmem => some { k with kmem := kmem, others := page :: k.others }
  | .kfree page =>
    if page ∈ k.others then some { k with kmem := page :: k.kmem, others := k.others.erase page } else none

end Runs

section Boot

-- The tables when the first process starts, with the given free pages.
def bootTables (kmem : List Nat) : Tables where
  file _ := ⟨.none, 0, false, false, 0⟩
  proc p := if p = initproc then ⟨.running, some initproc, some 0, fun _ => none⟩
    else ⟨.unused, none, none, fun _ => none⟩
  pipe _ := ⟨false, false⟩
  kmem := kmem
  others := []
  pipes := 0
  freed _ := 0

-- The cache holds the current directory of the first process, the log has been recovered.
def bootFs (disk : Disk) : State where
  disk := disk
  log := ⟨(readsb disk).logstart, (readsb disk).nlog, 0, false, .empty⟩
  sb := readsb disk
  icache ip := if ip = 0 then ⟨⟨ROOTDEV, ROOTINO, 1, false, false⟩, .zero⟩ else ⟨⟨0, 0, 0, false, false⟩, .zero⟩

def boot (disk : Disk) (kmem : List Nat) : Kernel State := ⟨bootTables kmem, bootFs disk⟩

end Boot

end Xv6.Fs
