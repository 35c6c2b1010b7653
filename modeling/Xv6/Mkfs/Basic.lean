import Xv6.Fs.Dir

set_option autoImplicit false

/-!
# mkfs

`mkfs.c`: the image of a file system with a root directory and a list of files. Sectors that are not
in the image yet cannot be read; the host has no other failures. `freeblock` and `freeinode` only
grow, and the free map is written at the end.
-/

namespace Xv6.Mkfs

open Bytes Fs

abbrev NINODES : Nat := 200

abbrev nbitmap : Nat := FSSIZE / (BSIZE * 8) + 1
abbrev ninodeblocks : Nat := NINODES / IPB + 1
abbrev nlog : Nat := LOGSIZE
abbrev nmeta : Nat := 2 + nlog + ninodeblocks + nbitmap
abbrev nblocks : Nat := FSSIZE - nmeta

def sb : Superblock where
  size := FSSIZE
  nblocks := nblocks
  ninodes := NINODES
  nlog := nlog
  logstart := 2
  inodestart := 2 + nlog
  bmapstart := 2 + nlog + ninodeblocks

-- Ends of the program other than `exit(0)`.
inductive Abort where
  | assertion
  | exit1
deriving DecidableEq

-- `length` counts the sectors of the image.
structure Image where
  disk : Disk
  length : Nat
  freeinode : Nat
  freeblock : Nat

abbrev M := StateT Image (Except Abort)

def wsect (sec : Nat) (buf : Block) : M Unit :=
  modify fun s => { s with disk := Function.update s.disk sec buf, length := max s.length (sec + 1) }

def rsect (sec : Nat) : M Block := do
  let s ← get
  if sec < s.length then return s.disk sec else throw .exit1

def winode (inum : Nat) (din : Dinode) : M Unit := do
  let buf ← rsect (iblock sb inum)
  wsect (iblock sb inum) (putDinode buf (inum % IPB) din)

def rinode (inum : Nat) : M Dinode := do
  let buf ← rsect (iblock sb inum)
  return getDinode buf (inum % IPB)

-- The new value of `freeinode` or `freeblock` is stored, and the old one returned.
def newInode : M Nat := do
  let s ← get
  set { s with freeinode := s.freeinode + 1 }
  return s.freeinode

def newBlock : M Nat := do
  let s ← get
  set { s with freeblock := s.freeblock + 1 }
  return s.freeblock

def ialloc (type : Int16) : M Nat := do
  let inum ← newInode
  winode inum { Dinode.zero with type := type, nlink := 1 }
  return inum

def balloc (used : Nat) : M Unit := do
  if used < BSIZE * 8 then wsect sb.bmapstart ((List.range used).foldl setBit fun _ => 0)
  else throw .assertion

section Append

-- Address `k` of `din`, a new block if there is none.
def loadAddr (din : Dinode) (k : Fin (NDIRECT + 1)) : M (Dinode × Nat) := do
  if din.addrs k = 0 then do
    let b ← newBlock
    return ({ din with addrs := Function.update din.addrs k (UInt32.ofNat b) }, b)
  else return (din, (din.addrs k).toNat)

def loadEntry (ind j : Nat) : M Nat := do
  let indirect ← rsect ind
  if entryAt indirect j = 0 then do
    let b ← newBlock
    wsect ind (putEntry indirect j b)
    return b
  else return entryAt indirect j

-- The block `x` of the loop in `iappend`.
def blockOf (din : Dinode) (fbn : Nat) : M (Dinode × Nat) := do
  if fbn < NDIRECT then loadAddr din (Fin.ofNat (NDIRECT + 1) fbn)
  else do
    let r ← loadAddr din (Fin.last NDIRECT)
    let x ← loadEntry r.2 (fbn - NDIRECT)
    return (r.1, x)

def appendChunk (p : Nat → UInt8) (din : Dinode) (c : Split.Chunk) : M Dinode := do
  if c.block < MAXFILE then do
    let r ← blockOf din c.block
    let buf ← rsect r.2
    wsect r.2 (putBytes buf c.offset c.len fun k => p (c.done + k))
    return r.1
  else throw .assertion

def appendChunks (p : Nat → UInt8) : Dinode → List Split.Chunk → M Dinode
  | din, [] => return din
  | din, c :: cs => do
    let din ← appendChunk p din c
    appendChunks p din cs

def iappend (inum : Nat) (p : List UInt8) : M Unit := do
  let din ← rinode inum
  let off := din.size.toNat
  let din ← appendChunks (fun k => p.getD k 0) din (Split.chunks BSIZE off p.length)
  winode inum { din with size := UInt32.ofNat (off + p.length) }

end Append

def superBytes : Block :=
  putLE (putLE (putLE (putLE (putLE (putLE (putLE (fun _ => 0) 0 4 sb.size) 4 4 sb.nblocks) 8 4 sb.ninodes)
    12 4 sb.nlog) 16 4 sb.logstart) 20 4 sb.inodestart) 24 4 sb.bmapstart

-- An argument, and what the calls of `read` return for it up to the end of the file.
structure File where
  argv : List UInt8
  reads : List (List UInt8)
  string : 0 ∉ argv

def underscore : UInt8 := 95

-- Skip leading _ in name when writing to file system.
def File.name (f : File) : List UInt8 := if f.argv.head? = some underscore then f.argv.tail else f.argv

def File.bytes (f : File) : List UInt8 := f.reads.flatten

def dirent (inum : Nat) (name : List UInt8) : Dirent := ⟨inum, strncpy DIRSIZ name⟩

def appendReads (inum : Nat) : List (List UInt8) → M Unit
  | [] => return ()
  | buf :: rest => do
    iappend inum buf
    appendReads inum rest

def addFiles : List File → M Unit
  | [] => return ()
  | f :: fs => do
    if slash ∈ f.argv then throw .assertion
    else do
      let inum ← ialloc tFile
      iappend ROOTINO (dirent inum f.name).bytes
      appendReads inum f.reads
      addFiles fs

-- The root directory with its first two entries.
def makeRoot : M Unit := do
  let rootino ← ialloc tDir
  if rootino ≠ ROOTINO then throw .assertion
  else do
    iappend rootino (dirent rootino dot).bytes
    iappend rootino (dirent rootino dotdot).bytes

def fixRoot : M Unit := do
  let din ← rinode ROOTINO
  let off := din.size
  winode ROOTINO { din with size := (off / UInt32.ofNat BSIZE + 1) * UInt32.ofNat BSIZE }

def zeroSectors : List Nat → M Unit
  | [] => return ()
  | i :: is => do
    wsect i fun _ => 0
    zeroSectors is

-- The sectors that are cleared at the start, all of the image.
@[irreducible] def sectors : List Nat := List.range FSSIZE

theorem mem_sectors {i : Nat} : i ∈ sectors ↔ i < FSSIZE := by
  unfold sectors
  exact List.mem_range

def main (files : List File) : M Unit := do
  zeroSectors sectors
  wsect 1 superBytes
  makeRoot
  addFiles files
  fixRoot
  balloc (← get).freeblock

-- The image that is left after `exit(0)`.
def mkfs (files : List File) : Except Abort Image :=
  (main files ⟨fun _ _ => 0, 0, 1, nmeta⟩).map Prod.snd

end Xv6.Mkfs
