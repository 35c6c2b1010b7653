import Mathlib
import Xv6.Lib.Bytes

set_option autoImplicit false

/-!
# Parameters

The constants of `param.h`, `mmu.h`, `memlayout.h`, `stat.h`, `file.h`, `fcntl.h` and `fs.h`, and the
panics of the modelled kernel code.
-/

namespace Xv6

abbrev NPROC : Nat := 64
abbrev NOFILE : Nat := 16
abbrev NFILE : Nat := 100
abbrev NINODE : Nat := 50
abbrev ROOTDEV : Nat := 1
abbrev MAXOPBLOCKS : Nat := 10
abbrev LOGSIZE : Nat := MAXOPBLOCKS * 3
abbrev NBUF : Nat := MAXOPBLOCKS * 3
abbrev FSSIZE : Nat := 2000

abbrev DEFAULT_UID : UInt32 := 69
abbrev DEFAULT_GID : UInt32 := 420
abbrev PGSIZE : Nat := 4096
abbrev NPDENTRIES : Nat := 1024
abbrev NPTENTRIES : Nat := 1024
abbrev PTE_P : Nat := 1
abbrev PTE_W : Nat := 2
abbrev PTE_U : Nat := 4
abbrev EXTMEM : Nat := 0x100000
abbrev PHYSTOP : Nat := 0xE000000
abbrev DEVSPACE : Nat := 0xFE000000
abbrev KERNBASE : Nat := 0x80000000
abbrev KERNLINK : Nat := KERNBASE + EXTMEM

abbrev ROOTINO : Nat := 1
abbrev BSIZE : Nat := 512
abbrev NDIRECT : Nat := 12
abbrev NINDIRECT : Nat := BSIZE / 4
abbrev MAXFILE : Nat := NDIRECT + NINDIRECT
abbrev T_DIR : Int := 1
abbrev T_FILE : Int := 2
abbrev T_DEV : Int := 3
abbrev CONSOLE : Int := 1
abbrev PIPESIZE : Nat := 512
abbrev IPB : Nat := BSIZE / 64
abbrev BPB : Nat := BSIZE * 8
abbrev DIRSIZ : Nat := 14
abbrev O_RDONLY : UInt32 := 0x000
abbrev O_WRONLY : UInt32 := 0x001
abbrev O_RDWR : UInt32 := 0x002
abbrev O_CREATE : UInt32 := 0x200

-- The numerals of the index types.
instance neZero_NPROC : NeZero NPROC := ⟨by decide⟩
instance neZero_NOFILE : NeZero NOFILE := ⟨by decide⟩
instance neZero_NINODE : NeZero NINODE := ⟨by decide⟩
instance (priority := 2000) neZero_addrs : NeZero (NDIRECT + 1) := ⟨by decide⟩
instance neZero_two : NeZero 2 := ⟨by decide⟩
instance neZero_one : NeZero 1 := ⟨by decide⟩

abbrev Block := Bytes.Buf BSIZE

abbrev Disk := Nat → Block

inductive Panic where
  | tooBigTransaction
  | logWriteOutsideOfTrans
  | logCommitting
  | initExiting
  | schedRunning
  | fileread
  | remap
  | kfree
  | inituvm
  | trap
  | loaduvmAligned
  | loaduvmExist
  | clearpteu
  | copyuvmPte
  | copyuvmPresent
  | ballocOutOfBlocks
  | freeingFreeBlock
  | iallocNoInodes
  | igetNoInodes
  | ilock
  | ilockNoType
  | iunlock
  | iputBusy
  | bmapOutOfRange
  | dirlookupNotDIR
  | dirlinkRead
  | dirlink
  | isdiremptyReadi
  | unlinkNlink
  | unlinkWritei
  | createDots
  | createDirlink
  | filedup
  | fileclose
  | filewrite
  | shortFilewrite
  | iderwNotBusy
  | iderwNothingToDo
  | iderwNoDisk1
  | iderwNotForDisk1
  | iderwOutOfRange
  | incorrectBlockno
  | bgetNoBuffers
  | bwrite
  | brelse
deriving DecidableEq, Repr

end Xv6
