import Xv6.Mkfs.Main

set_option autoImplicit false

/-!
# Holes of an image

`iappend` takes a block only when a byte goes there, while the size of the root directory is rounded
up at the end to a block that is not full. When the last block is full there is no block for what is
added, and the kernel, which relies on having one, runs into the hole.
-/

namespace Xv6.Mkfs

open Bytes Fs Prog

/-- Every block within the size of an inode has an address, is marked, and has no other place. -/
def HoleFree (disk : Disk) : Prop :=
  ∀ i k, i < NINODES → (dinodeAt sb disk i).type ≠ 0 → k < dataBlocks (dinodeAt sb disk i).size.toNat →
    ptr disk (dinodeAt sb disk i) (dataPos k) ≠ 0 ∧
    bitAt sb disk (ptr disk (dinodeAt sb disk i) (dataPos k)) = true ∧
    ∀ j q, j < NINODES → (dinodeAt sb disk j).type ≠ 0 →
      ptr disk (dinodeAt sb disk j) q = ptr disk (dinodeAt sb disk i) (dataPos k) → j = i ∧ q = dataPos k

theorem rounded_size (d : Dinode) (fits : d.size.toNat ≤ MAXFILE * BSIZE) :
    (rounded d).size.toNat = (d.size.toNat / BSIZE + 1) * BSIZE := by
  simp only [MAXFILE, NDIRECT, NINDIRECT, BSIZE, Nat.reduceDiv, Nat.reduceAdd, Nat.reduceMul] at fits
  simp only [rounded, UInt32.toNat_mul, UInt32.toNat_add, UInt32.toNat_div, UInt32.toNat_ofNat', BSIZE,
    UInt32.toNat_one, Nat.reducePow, Nat.reduceMod]
  omega

section Finished

variable {disk : Disk} {s : Image} {v : View} {files : List File} (finished : Finished disk s v (nodes files))

include finished

theorem Finished.mapped : Mapped sb v v.ino := by
  have mapped := (finished.during ROOTINO).mapped
  rwa [Function.update_eq_self] at mapped

theorem Finished.type (i : Nat) (inode : i < NINODES) : (dinodeAt sb disk i).type = (v.ino i).type := by
  rw [finished.shows.ino i inode, View.setIno_ino, Function.update_apply]
  split
  next same => rw [same, rounded]
  next => rfl

theorem Finished.ptr (i : Nat) (q : Pos) (inode : i < NINODES) (typed : (v.ino i).type ≠ 0) :
    ptr disk (dinodeAt sb disk i) q = Fs.ptr v.blk (v.ino i) q := by
  have addrs : (dinodeAt sb disk i).addrs = (v.ino i).addrs := by
    rw [finished.shows.ino i inode, View.setIno_ino, Function.update_apply]
    split
    next same => rw [same, rounded]
    next => rfl
  rw [ptr_addrs addrs]
  refine ptr_congr _ _ _ _ fun some_ => ?_
  have held := owner_of_ptr sb.ninodes v.blk v.ino i .indirect inode typed some_
  exact finished.shows.blk _ (finished.mapped.inside _ _ held).2

theorem Finished.owner (key : Nat × Pos) :
    owner sb.ninodes disk (dinodeAt sb disk) key = Fs.owner sb.ninodes v.blk v.ino key := by
  have type (inode : key.1 < sb.ninodes) := finished.type key.1 inode
  have ptr (inode : key.1 < sb.ninodes) := finished.ptr key.1 key.2 inode
  simp only [Fs.owner]
  grind

theorem Finished.size_root : (v.ino ROOTINO).type ≠ 0 ∧ (v.ino ROOTINO).size.toNat = 16 * (files.length + 2) := by
  have root := finished.nodes ROOTINO (by decide)
  have typed : (v.ino ROOTINO).type ≠ 0 := by
    rw [← nodeOf_type v.blk, root, nodes_root]
    exact show tDir ≠ 0 by decide
  refine ⟨typed, ?_⟩
  rw [← nodes_root_length files, ← root, nodeOf_typed _ _ typed, content_length]

theorem Finished.within (i k : Nat) (inode : i < NINODES) (typed : (v.ino i).type ≠ 0)
    (inside : k < dataBlocks (v.ino i).size.toNat) : Fs.ptr v.blk (v.ino i) (dataPos k) ≠ 0 := by
  have byte : k * BSIZE < (v.ino i).size.toNat := by
    simp only [dataBlocks, BSIZE] at inside ⊢
    omega
  have filled := (finished.covered i inode typed).filled (k * BSIZE) byte
  rwa [Nat.mul_div_cancel k (by decide)] at filled

theorem Finished.behind (k : Nat) (inside : k < MAXFILE) (outside : dataBlocks (v.ino ROOTINO).size.toNat ≤ k) :
    Fs.ptr v.blk (v.ino ROOTINO) (dataPos k) = 0 := by
  have tight := finished.tight ROOTINO (by decide) finished.size_root.1
  by_contra some_
  have := (tight.data k inside).mp some_
  omega

theorem Finished.good (i k : Nat) (inode : i < NINODES) (typed : (v.ino i).type ≠ 0)
    (some_ : Fs.ptr v.blk (v.ino i) (dataPos k) ≠ 0) :
    bitAt sb disk (Fs.ptr v.blk (v.ino i) (dataPos k)) = true ∧
    ∀ j q, j < NINODES → (dinodeAt sb disk j).type ≠ 0 →
      Fs.ptr disk (dinodeAt sb disk j) q = Fs.ptr v.blk (v.ino i) (dataPos k) → j = i ∧ q = dataPos k := by
  have held := owner_of_ptr sb.ninodes v.blk v.ino i (dataPos k) inode typed some_
  constructor
  · rw [finished.shows.used _ (finished.mapped.inside _ _ held).1]
    exact finished.mapped.used_of_own _ _ held
  · intro j q inode' typed' same
    rw [finished.type j inode'] at typed'
    rw [finished.ptr j q inode' typed'] at same
    have held' := owner_of_ptr sb.ninodes v.blk v.ino j q inode' typed' (same ▸ some_)
    exact Prod.mk.inj (finished.mapped.once _ _ _ (same ▸ held') held)

theorem Finished.holeFree_iff (few : files.length + 1 < NINODES) :
    HoleFree disk ↔ (files.length + 2) % 32 ≠ 0 := by
  obtain ⟨typed, size⟩ := finished.size_root
  have root : dinodeAt sb disk ROOTINO = rounded (v.ino ROOTINO) := by
    rw [finished.shows.ino ROOTINO (by decide), View.setIno_ino, Function.update_self]
  have end_ : (dinodeAt sb disk ROOTINO).size.toNat = ((v.ino ROOTINO).size.toNat / BSIZE + 1) * BSIZE := by
    rw [root, rounded_size _ (finished.covered ROOTINO (by decide) typed).fits]
  constructor
  · intro free full
    have here := free ROOTINO ((v.ino ROOTINO).size.toNat / BSIZE) (by decide)
      (by rwa [finished.type ROOTINO (by decide)]) (by
        rw [end_, dataBlocks]
        simp only [BSIZE]
        omega)
    rw [finished.ptr ROOTINO _ (by decide) typed] at here
    refine here.1 (finished.behind _ ?_ ?_)
    · rw [size]
      simp only [MAXFILE, NDIRECT, NINDIRECT, BSIZE, NINODES] at few ⊢
      omega
    · rw [size]
      simp only [dataBlocks, BSIZE]
      omega
  · intro rest i k inode typed' inside
    rw [finished.type i inode] at typed'
    rw [finished.ptr i _ inode typed']
    have some_ : Fs.ptr v.blk (v.ino i) (dataPos k) ≠ 0 := by
      refine finished.within i k inode typed' ?_
      by_cases same : i = ROOTINO
      · subst same
        rw [end_] at inside
        rw [size] at inside ⊢
        simp only [dataBlocks, BSIZE] at inside ⊢
        omega
      · rwa [finished.shows.ino i inode, View.setIno_ino, Function.update_of_ne same] at inside
    exact ⟨some_, finished.good i k inode typed' some_⟩

end Finished

/-- The image has no holes unless the entries of the root directory fill its blocks. -/
theorem mkfs_holeFree_iff (files : List File) (few : files.length + 1 < NINODES) (image : Image)
    (done : mkfs files = .ok image) : HoleFree image.disk ↔ (files.length + 2) % 32 ≠ 0 := by
  obtain ⟨s, v, finished⟩ := mkfs_finished files few image done
  exact finished.holeFree_iff few

instance decidableUnfit (files : List File) : Decidable (Unfit files) :=
  inferInstanceAs (Decidable (_ ∨ _ ∨ _))

-- `n` files without contents.
def emptyFiles (n : Nat) : List File := List.replicate n ⟨[97], [], by decide⟩

theorem mkfs_holeFree_one : ∃ image, mkfs (emptyFiles 1) = .ok image ∧
    (HoleFree image.disk ↔ ((emptyFiles 1).length + 2) % 32 ≠ 0) := by
  obtain ⟨image, done⟩ := mkfs_total (emptyFiles 1) (by decide) (by decide)
  exact ⟨image, done, mkfs_holeFree_iff (emptyFiles 1) (by decide) image done⟩

/-- Thirty files and the two entries of the root directory fill one block. -/
theorem mkfs_hole_thirty : ∃ image, mkfs (emptyFiles 30) = .ok image ∧ (emptyFiles 30).length + 1 < NINODES ∧
    ¬ HoleFree image.disk := by
  obtain ⟨image, done⟩ := mkfs_total (emptyFiles 30) (by decide) (by decide +kernel)
  obtain ⟨s, v, finished⟩ := mkfs_finished (emptyFiles 30) (by decide) image done
  refine ⟨image, done, by decide, fun free => ?_⟩
  exact absurd ((finished.holeFree_iff (by decide)).mp free) (by decide)

/-- The free map that the kernel finds in an image is exact: a block is marked when it belongs to the file system
itself or when an inode points to it, and no two pointers lead to one block. -/
theorem mkfs_map_exact (files : List File) (few : files.length + 1 < NINODES) (image : Image)
    (done : mkfs files = .ok image) :
    readsb image.disk = sb ∧ Mapped sb (viewOf sb image.disk) (dinodeAt sb image.disk) := by
  obtain ⟨s, v, finished⟩ := mkfs_finished files few image done
  obtain ⟨inside, once, used_iff⟩ := finished.mapped
  simp only [← finished.owner] at inside once used_iff
  refine ⟨finished.shows.super, inside, once, fun b block => ?_⟩
  have bit : bitAt sb image.disk b = v.used b := finished.shows.used b block
  have marked := used_iff b block
  rw [← bit] at marked
  exact marked

-- A file of 20 blocks, eight of them behind an indirect block.
def twentyBlocks : List File := [⟨[97], List.replicate 20 (List.replicate BSIZE 1), by decide⟩]

theorem mkfs_map_exact_twenty : ∃ image, mkfs twentyBlocks = .ok image ∧
    Mapped sb (viewOf sb image.disk) (dinodeAt sb image.disk) := by
  obtain ⟨image, done⟩ := mkfs_total twentyBlocks (by decide) (by decide +kernel)
  exact ⟨image, done, (mkfs_map_exact twentyBlocks (by decide) image done).2⟩

end Xv6.Mkfs
