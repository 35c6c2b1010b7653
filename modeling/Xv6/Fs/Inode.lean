import Xv6.Lib.Chunk
import Xv6.Lib.Prog
import Xv6.Log.Basic
import Xv6.Sys.Args
import Xv6.Fs.Disk

set_option autoImplicit false

/-!
# Blocks and inodes

The lower half of `fs.c`: the block allocator, the inode cache and the contents of inodes. One call
runs at a time, so `disk` is what a `bread` returns: the latest contents that were passed to
`log_write`. A process that would sleep has nobody left to wake it up.
-/

namespace Xv6.Fs

open Bytes

inductive Stop where
  | panic (p : Panic)
  -- A store past the end of the log header.
  | overrun
  -- Waits for a lock it holds, or for the log.
  | asleep
  -- Outside the contract of the operations below; the code of the kernel has no such stop.
  | misuse
deriving DecidableEq

def Stop.ofLog : LogStop → Stop
  | .panic p => .panic p
  | .overrun => .overrun

abbrev Op (σ : Type) := StateT σ (Except Stop)

abbrev Slot := Fin NINODE

-- What an entry of the inode cache holds besides its copy of the inode.
structure Entry where
  dev : Nat
  inum : Nat
  ref : Int
  busy : Bool
  valid : Bool
deriving DecidableEq

structure Inode extends Entry, Dinode
deriving DecidableEq

structure State where
  disk : Disk
  log : Log
  sb : Superblock
  icache : Slot → Inode

abbrev M := Op State

def bread (b : Nat) : M Block := do return (← get).disk b

-- The buffer of block `b` has been changed to `data`.
def logWrite (b : Nat) (data : Block) : M Unit := do
  let s ← get
  match logWriteCheck s.log with
  | .error why => throw (.ofLog why)
  | .ok _ =>
    match Xv6.logWrite s.log b with
    | .error why => throw (.ofLog why)
    | .ok log => set { s with log := log, disk := Function.update s.disk b data }

def beginOp : M Unit := do
  let s ← get
  match Xv6.beginOp s.log with
  | none => throw .asleep
  | some log => set { s with log := log }

-- The commit of the last outstanding operation empties the header.
def endOp : M Unit := do
  let s ← get
  match Xv6.endOp s.log with
  | .error why => throw (.ofLog why)
  | .ok (log, true) => set { s with log := { log with committing := false, lh := .empty } }
  | .ok (log, false) => set { s with log := log }

def bzero (b : Nat) : M Unit := logWrite b fun _ => 0

-- The bits are looked at in the order of the blocks.
def balloc : M Nat := do
  let s ← get
  match (List.range s.sb.size).find? fun b => !bitAt s.sb s.disk b with
  | none => throw (.panic .ballocOutOfBlocks)
  | some b => do
    let data ← bread (bblock s.sb b)
    logWrite (bblock s.sb b) (setBit data (b % BPB))
    bzero b
    return b

def bfree (b : Nat) : M Unit := do
  modify fun s => { s with sb := readsb s.disk }
  let s ← get
  let data ← bread (bblock s.sb b)
  if getBit data (b % BPB) then logWrite (bblock s.sb b) (clearBit data (b % BPB))
  else throw (.panic .freeingFreeBlock)

def inodeOf (ip : Slot) : M Inode := do return (← get).icache ip

def setInode (ip : Slot) (f : Inode → Inode) : M Unit :=
  modify fun s => { s with icache := Function.update s.icache ip (f (s.icache ip)) }

def iget (dev inum : Nat) : M Slot := do
  let s ← get
  match (List.finRange NINODE).find? fun ip =>
      0 < (s.icache ip).ref ∧ (s.icache ip).dev = dev ∧ (s.icache ip).inum = inum with
  | some ip => do
    setInode ip fun i => { i with ref := i.ref + 1 }
    return ip
  | none =>
    match (List.finRange NINODE).find? fun ip => (s.icache ip).ref = 0 with
    | none => throw (.panic .igetNoInodes)
    | some ip => do
      setInode ip fun i => { i with dev := dev, inum := inum, ref := 1, busy := false, valid := false }
      return ip

def idup (ip : Slot) : M Slot := do
  setInode ip fun i => { i with ref := i.ref + 1 }
  return ip

def ialloc (dev : Nat) (type : Int16) : M Slot := do
  let s ← get
  match (List.range' 1 (s.sb.ninodes - 1)).find? fun i => (dinodeAt s.sb s.disk i).type = 0 with
  | none => throw (.panic .iallocNoInodes)
  | some i => do
    let data ← bread (iblock s.sb i)
    logWrite (iblock s.sb i) (putDinode data (i % IPB) { Dinode.zero with type := type })
    iget dev i

def iupdate (ip : Slot) : M Unit := do
  let s ← get
  let i ← inodeOf ip
  let data ← bread (iblock s.sb i.inum)
  logWrite (iblock s.sb i.inum) (putDinode data (i.inum % IPB) i.toDinode)

def ilock (ip : Slot) : M Unit := do
  let s ← get
  let i ← inodeOf ip
  if i.ref < 1 then throw (.panic .ilock)
  else if i.busy then throw .asleep
  else do
    setInode ip fun i => { i with busy := true }
    if i.valid then return ()
    else do
      let data ← bread (iblock s.sb i.inum)
      let d := getDinode data (i.inum % IPB)
      setInode ip fun i => { i with toDinode := d, valid := true }
      if d.type = 0 then throw (.panic .ilockNoType) else return ()

def iunlock (ip : Slot) : M Unit := do
  let i ← inodeOf ip
  if i.busy = false ∨ i.ref < 1 then throw (.panic .iunlock)
  else setInode ip fun i => { i with busy := false }

-- Address `k` of the inode, allocating a block if there is none.
def loadAddr (ip : Slot) (k : Fin (NDIRECT + 1)) : M Nat := do
  let i ← inodeOf ip
  if i.addrs k = 0 then do
    let addr ← balloc
    setInode ip fun i => { i with addrs := Function.update i.addrs k (UInt32.ofNat addr) }
    return addr
  else return (i.addrs k).toNat

def bmap (ip : Slot) (bn : Nat) : M Nat := do
  if bn < NDIRECT then loadAddr ip (Fin.ofNat (NDIRECT + 1) bn)
  else if bn - NDIRECT < NINDIRECT then do
    -- Load indirect block, allocating if necessary.
    let ind ← loadAddr ip (Fin.last NDIRECT)
    let a ← bread ind
    if entryAt a (bn - NDIRECT) = 0 then do
      let addr ← balloc
      -- The buffer has been held since the read above.
      let a ← bread ind
      logWrite ind (putEntry a (bn - NDIRECT) addr)
      return addr
    else return entryAt a (bn - NDIRECT)
  else throw (.panic .bmapOutOfRange)

def truncDirect (ip : Slot) : List (Fin (NDIRECT + 1)) → M Unit
  | [] => return ()
  | k :: ks => do
    let i ← inodeOf ip
    if i.addrs k = 0 then truncDirect ip ks
    else do
      bfree (i.addrs k).toNat
      setInode ip fun i => { i with addrs := Function.update i.addrs k 0 }
      truncDirect ip ks

def truncEntries (a : Block) : List (Fin NINDIRECT) → M Unit
  | [] => return ()
  | j :: js =>
    if entryAt a j = 0 then truncEntries a js
    else do
      bfree (entryAt a j)
      truncEntries a js

def truncIndirect (ip : Slot) : M Unit := do
  let i ← inodeOf ip
  if i.addrs (Fin.last NDIRECT) = 0 then return ()
  else do
    let a ← bread (i.addrs (Fin.last NDIRECT)).toNat
    truncEntries a (List.finRange NINDIRECT)
    bfree (i.addrs (Fin.last NDIRECT)).toNat
    setInode ip fun i => { i with addrs := Function.update i.addrs (Fin.last NDIRECT) 0 }

def itrunc (ip : Slot) : M Unit := do
  truncDirect ip ((List.finRange NDIRECT).map Fin.castSucc)
  truncIndirect ip
  setInode ip fun i => { i with size := 0 }
  iupdate ip

-- Truncate and free an inode that has no links and no other references.
def ifree (ip : Slot) : M Unit := do
  setInode ip fun i => { i with busy := true }
  itrunc ip
  setInode ip fun i => { i with type := 0 }
  iupdate ip
  setInode ip fun i => { i with busy := false, valid := false }

def iput (ip : Slot) : M Unit := do
  let i ← inodeOf ip
  if i.ref = 1 ∧ i.valid ∧ i.nlink = 0 then
    if i.busy then throw (.panic .iputBusy)
    else do
      ifree ip
      setInode ip fun i => { i with ref := i.ref - 1 }
  else setInode ip fun i => { i with ref := i.ref - 1 }

def readChunks (ip : Slot) : List Split.Chunk → M (List UInt8)
  | [] => return []
  | c :: cs => do
    let b ← bmap ip c.block
    let data ← bread b
    let rest ← readChunks ip cs
    return (List.range c.len).map (fun k => getByte data (c.offset + k)) ++ rest

-- The console is the only device with a read function; `console` is what it returns.
def readi (ip : Slot) (off n : UInt32) (console : Int) : M (Int × List UInt8) := do
  let i ← inodeOf ip
  if i.type = tDev then
    if i.major.toInt = CONSOLE then return (console, []) else return (-1, [])
  else if off > i.size ∨ off + n < off then return (-1, [])
  else
    let n := if off + n > i.size then i.size - off else n
    let bytes ← readChunks ip (Split.chunks BSIZE off.toNat n.toNat)
    return (Sys.int n, bytes)

def writeChunks (ip : Slot) (src : Nat → UInt8) : List Split.Chunk → M Unit
  | [] => return ()
  | c :: cs => do
    let b ← bmap ip c.block
    let data ← bread b
    logWrite b (putBytes data c.offset c.len fun k => src (c.done + k))
    writeChunks ip src cs

-- A write to the console takes everything.
def writei (ip : Slot) (src : Nat → UInt8) (off n : UInt32) : M Int := do
  let i ← inodeOf ip
  if i.type = tDev then
    if i.major.toInt = CONSOLE then return Sys.int n else return -1
  else if off > i.size ∨ off + n < off then return -1
  else if (off + n).toNat > MAXFILE * BSIZE then return -1
  else do
    writeChunks ip src (Split.chunks BSIZE off.toNat n.toNat)
    if n > 0 ∧ off + n > i.size then do
      setInode ip fun i => { i with size := off + n }
      iupdate ip
      return Sys.int n
    else return Sys.int n

end Xv6.Fs
