import Xv6.Lib.Bits
import Xv6.Param

set_option autoImplicit false

/-!
# The disk layout

The on-disk format of `fs.h`: boot block, super block, log, inode blocks, free bit map and data
blocks. Every access goes through the bytes of a block, so an access that misses its region would
read or write something else.
-/

namespace Xv6.Fs

open Bytes

structure Superblock where
  size : Nat
  nblocks : Nat
  ninodes : Nat
  nlog : Nat
  logstart : Nat
  inodestart : Nat
  bmapstart : Nat
deriving DecidableEq

def readsb (disk : Disk) : Superblock where
  size := getLE (disk 1) 0 4
  nblocks := getLE (disk 1) 4 4
  ninodes := getLE (disk 1) 8 4
  nlog := getLE (disk 1) 12 4
  logstart := getLE (disk 1) 16 4
  inodestart := getLE (disk 1) 20 4
  bmapstart := getLE (disk 1) 24 4

abbrev tDir : Int16 := .ofInt T_DIR
abbrev tFile : Int16 := .ofInt T_FILE
abbrev tDev : Int16 := .ofInt T_DEV

structure Dinode where
  type : Int16
  major : Int16
  minor : Int16
  nlink : Int16
  size : UInt32
  addrs : Fin (NDIRECT + 1) → UInt32
deriving DecidableEq

def Dinode.zero : Dinode := ⟨0, 0, 0, 0, 0, fun _ => 0⟩

-- The bytes of a `struct dinode`: four shorts, the size and the addresses.
def Dinode.byte (d : Dinode) (k : Nat) : UInt8 :=
  if k < 2 then UInt8.ofNat (d.type.toUInt16.toNat / 256 ^ k)
  else if k < 4 then UInt8.ofNat (d.major.toUInt16.toNat / 256 ^ (k - 2))
  else if k < 6 then UInt8.ofNat (d.minor.toUInt16.toNat / 256 ^ (k - 4))
  else if k < 8 then UInt8.ofNat (d.nlink.toUInt16.toNat / 256 ^ (k - 6))
  else if k < 12 then UInt8.ofNat (d.size.toNat / 256 ^ (k - 8))
  else UInt8.ofNat ((d.addrs (Fin.ofNat (NDIRECT + 1) ((k - 12) / 4))).toNat / 256 ^ ((k - 12) % 4))

def getShort (b : Block) (off : Nat) : Int16 := (UInt16.ofNat (getLE b off 2)).toInt16

def getUint (b : Block) (off : Nat) : UInt32 := UInt32.ofNat (getLE b off 4)

-- The dinode with index `k` in an inode block.
def getDinode (b : Block) (k : Nat) : Dinode where
  type := getShort b (64 * k)
  major := getShort b (64 * k + 2)
  minor := getShort b (64 * k + 4)
  nlink := getShort b (64 * k + 6)
  size := getUint b (64 * k + 8)
  addrs := fun j => getUint b (64 * k + 12 + 4 * j.val)

def putDinode (b : Block) (k : Nat) (d : Dinode) : Block := putBytes b (64 * k) 64 d.byte

theorem getShort_digits (b : Block) (off : Nat) (x : Int16)
    (digits : ∀ i, off ≤ i → i < off + 2 → getByte b i = UInt8.ofNat (x.toUInt16.toNat / 256 ^ (i - off))) :
    getShort b off = x := by
  rw [getShort, getLE_digits b off 2 _ digits]
  have small : x.toUInt16.toNat < 256 ^ 2 := x.toUInt16.toNat_lt
  rw [Nat.mod_eq_of_lt small, UInt16.ofNat_toNat]
  rfl

theorem getUint_digits (b : Block) (off : Nat) (x : UInt32)
    (digits : ∀ i, off ≤ i → i < off + 4 → getByte b i = UInt8.ofNat (x.toNat / 256 ^ (i - off))) :
    getUint b off = x := by
  rw [getUint, getLE_digits b off 4 _ digits]
  have small : x.toNat < 256 ^ 4 := x.toNat_lt
  rw [Nat.mod_eq_of_lt small, UInt32.ofNat_toNat]

theorem getDinode_putDinode_same (b : Block) (k : Nat) (d : Dinode) (inside : k < IPB) :
    getDinode (putDinode b k d) k = d := by
  have room : 64 * k + 64 ≤ BSIZE := by
    simp only [IPB, BSIZE] at inside ⊢
    omega
  have byte : ∀ r, r < 64 → getByte (putDinode b k d) (64 * k + r) = d.byte r := by
    intro r small
    rw [putDinode, getByte_putBytes, if_pos (by omega)]
    congr 1
    omega
  have at_ : ∀ i, 64 * k ≤ i → i < 64 * k + 64 → getByte (putDinode b k d) i = d.byte (i - 64 * k) := by
    intro i low high
    have := byte (i - 64 * k) (by omega)
    rwa [show 64 * k + (i - 64 * k) = i by omega] at this
  cases d
  simp only [getDinode, Dinode.mk.injEq]
  refine ⟨?_, ?_, ?_, ?_, ?_, ?_⟩
  · apply getShort_digits
    intro i low high
    rw [at_ i (by omega) (by omega), Dinode.byte, if_pos (by omega)]
  · apply getShort_digits
    intro i low high
    rw [at_ i (by omega) (by omega), Dinode.byte, if_neg (by omega), if_pos (by omega),
      show i - 64 * k - 2 = i - (64 * k + 2) by omega]
  · apply getShort_digits
    intro i low high
    rw [at_ i (by omega) (by omega), Dinode.byte, if_neg (by omega), if_neg (by omega), if_pos (by omega),
      show i - 64 * k - 4 = i - (64 * k + 4) by omega]
  · apply getShort_digits
    intro i low high
    rw [at_ i (by omega) (by omega), Dinode.byte, if_neg (by omega), if_neg (by omega), if_neg (by omega),
      if_pos (by omega), show i - 64 * k - 6 = i - (64 * k + 6) by omega]
  · apply getUint_digits
    intro i low high
    rw [at_ i (by omega) (by omega), Dinode.byte, if_neg (by omega), if_neg (by omega), if_neg (by omega),
      if_neg (by omega), if_pos (by omega), show i - 64 * k - 8 = i - (64 * k + 8) by omega]
  · funext j
    have bound : j.val < 13 := j.isLt
    apply getUint_digits
    intro i low high
    have index : (i - 64 * k - 12) / 4 = j.val := by omega
    have digit : (i - 64 * k - 12) % 4 = i - (64 * k + 12 + 4 * j.val) := by omega
    rw [at_ i (by omega) (by omega), Dinode.byte, if_neg (by omega), if_neg (by omega), if_neg (by omega),
      if_neg (by omega), if_neg (by omega), index, digit]
    simp

theorem getDinode_putDinode_other (b : Block) (k j : Nat) (d : Dinode) (other : j ≠ k) :
    getDinode (putDinode b k d) j = getDinode b j := by
  have apart : ∀ off w, 64 * j ≤ off → off + w ≤ 64 * j + 64 →
      getLE (putDinode b k d) off w = getLE b off w := by
    intro off w low high
    apply getLE_putBytes_disjoint
    omega
  simp only [getDinode, getShort, getUint, Dinode.mk.injEq]
  refine ⟨?_, ?_, ?_, ?_, ?_, ?_⟩
  case refine_6 =>
    funext i
    have bound : i.val < 13 := i.isLt
    rw [apart _ _ (by omega) (by omega)]
  all_goals rw [apart _ _ (by omega) (by omega)]

def iblock (sb : Superblock) (i : Nat) : Nat := i / IPB + sb.inodestart

def bblock (sb : Superblock) (b : Nat) : Nat := b / BPB + sb.bmapstart

def dinodeAt (sb : Superblock) (disk : Disk) (i : Nat) : Dinode := getDinode (disk (iblock sb i)) (i % IPB)

def bitAt (sb : Superblock) (disk : Disk) (b : Nat) : Bool := getBit (disk (bblock sb b)) (b % BPB)

def entryAt (b : Block) (j : Nat) : Nat := getLE b (4 * j) 4

def putEntry (b : Block) (j a : Nat) : Block := putLE b (4 * j) 4 a

def Superblock.Log (sb : Superblock) (b : Nat) : Prop := sb.logstart ≤ b ∧ b < sb.logstart + sb.nlog

def Superblock.Inodes (sb : Superblock) (b : Nat) : Prop :=
  sb.inodestart ≤ b ∧ b < sb.inodestart + (sb.ninodes / IPB + 1)

def Superblock.Bitmap (sb : Superblock) (b : Nat) : Prop :=
  sb.bmapstart ≤ b ∧ b < sb.bmapstart + (sb.size / BPB + 1)

/-- The metadata blocks: boot, super, log, inode and bitmap blocks. -/
def Superblock.Meta (sb : Superblock) (b : Nat) : Prop :=
  b = 0 ∨ b = 1 ∨ sb.Log b ∨ sb.Inodes b ∨ sb.Bitmap b

instance (sb : Superblock) (b : Nat) : Decidable (sb.Meta b) := by
  unfold Superblock.Meta Superblock.Log Superblock.Inodes Superblock.Bitmap
  infer_instance

/-- The layout that `mkfs` computes. Block numbers are used as `int`, and a directory entry holds an
inode number in 16 bits. -/
structure Layout (sb : Superblock) : Prop where
  logstart : sb.logstart = 2
  inodestart : sb.inodestart = 2 + sb.nlog
  bmapstart : sb.bmapstart = 2 + sb.nlog + (sb.ninodes / IPB + 1)
  nblocks : sb.bmapstart + (sb.size / BPB + 1) + sb.nblocks = sb.size
  size : sb.size < 2 ^ 31
  root : ROOTINO < sb.ninodes
  ninodes : sb.ninodes ≤ 2 ^ 16

section Layout

variable {sb : Superblock}

theorem data_ne_one (b : Nat) (data : ¬ sb.Meta b) : b ≠ 1 := by
  simp only [Superblock.Meta] at data
  omega

theorem iblock_inodes (i : Nat) (inode : i < sb.ninodes) : sb.Inodes (iblock sb i) := by
  simp only [Superblock.Inodes, iblock, IPB, BSIZE, Nat.reduceDiv]
  omega

theorem bblock_bitmap (b : Nat) (block : b < sb.size) : sb.Bitmap (bblock sb b) := by
  simp only [Superblock.Bitmap, bblock, BPB, BSIZE, Nat.reduceMul]
  omega

variable (layout : Layout sb)

include layout

theorem Layout.meta_iff (b : Nat) : sb.Meta b ↔ b < sb.bmapstart + (sb.size / BPB + 1) := by
  have log := layout.logstart
  have inodes := layout.inodestart
  have bitmap := layout.bmapstart
  simp only [Superblock.Meta, Superblock.Log, Superblock.Inodes, Superblock.Bitmap]
  generalize sb.ninodes / IPB = m at *
  generalize sb.size / BPB = k at *
  omega

theorem Layout.inodes_ne_bitmap (b c : Nat) (inodes : sb.Inodes b) (bitmap : sb.Bitmap c) : b ≠ c := by
  have := layout.inodestart
  have := layout.bmapstart
  simp only [Superblock.Inodes, Superblock.Bitmap] at inodes bitmap
  generalize sb.ninodes / IPB = m at *
  omega

theorem Layout.inodes_ne_one (b : Nat) (inodes : sb.Inodes b) : b ≠ 1 := by
  have := layout.inodestart
  simp only [Superblock.Inodes] at inodes
  omega

theorem Layout.bitmap_ne_one (b : Nat) (bitmap : sb.Bitmap b) : b ≠ 1 := by
  have := layout.bmapstart
  simp only [Superblock.Bitmap] at bitmap
  generalize sb.ninodes / IPB = m at *
  omega

end Layout

end Xv6.Fs
