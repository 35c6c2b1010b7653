import Xv6.Fs.Room
import Xv6.Mkfs.Readback

set_option autoImplicit false

/-!
# The image is consistent

Without the hole behind the root directory the image is one that the kernel can work on: the free map
is exact, and the blocks of every inode cover its size. States of the kernel on this disk stand for
the inodes that `mkfs` made, with the size of the root directory rounded up.
-/

namespace Xv6.Mkfs

open Bytes Fs Prog

variable {disk : Disk} {s : Image} {v : View} {files : List File}

-- The inodes and blocks of the image.
def final (v : View) : View := v.setIno ROOTINO (rounded (v.ino ROOTINO))

-- What the kernel finds, when its cache is `c`.
def found (v : View) (c : Slot → Inode) : Nodes :=
  ⟨NINODES, fun ip => (c ip).toEntry, fun i => nodeOf v.blk ((final v).ino i)⟩

theorem Finished.covered_final (finished : Finished disk s v (nodes files)) (few : files.length + 1 < NINODES)
    (rest : (files.length + 2) % 32 ≠ 0) (i : Nat) (inode : i < NINODES) (typed : ((final v).ino i).type ≠ 0) :
    Covered v.blk ((final v).ino i) := by
  by_cases root : i = ROOTINO
  · subst root
    obtain ⟨typed', size⟩ := finished.size_root
    have fits := (finished.covered ROOTINO inode typed').fits
    rw [final, View.setIno_ino, Function.update_self]
    have end_ := rounded_size (v.ino ROOTINO) fits
    refine ⟨?_, fun k below => ?_⟩
    · rw [end_, size]
      simp only [NINODES, MAXFILE, NDIRECT, NINDIRECT, BSIZE] at few ⊢
      omega
    · rw [ptr_addrs rfl]
      refine finished.within ROOTINO (k / BSIZE) inode typed' ?_
      rw [end_, size] at below
      rw [size]
      simp only [dataBlocks, BSIZE] at below ⊢
      omega
  · rw [final, View.setIno_ino, Function.update_of_ne root] at typed ⊢
    exact finished.covered i inode typed

theorem Finished.holds (finished : Finished disk s v (nodes files)) (few : files.length + 1 < NINODES)
    (rest : (files.length + 2) % 32 ≠ 0) (c : Slot → Inode) (nonneg : ∀ ip, 0 ≤ (c ip).ref)
    (live : ∀ ip, 0 < (c ip).ref → (c ip).dev = ROOTDEV ∧ 0 < (c ip).inum ∧ (c ip).inum < NINODES)
    (unique : ∀ ip ip', 0 < (c ip).ref → 0 < (c ip').ref → (c ip).inum = (c ip').inum → ip = ip')
    (copy : ∀ ip, 0 < (c ip).ref → (c ip).valid = true →
      (c ip).toDinode = (final v).ino (c ip).inum ∧ ((final v).ino (c ip).inum).type ≠ 0) :
    Holds sb (final v) c (found v c) where
  count := rfl
  mapped := by
    rw [Mapped, final, View.setIno_ino, View.setIno_blk, View.setIno_used,
      @owner_attrs sb.ninodes v.blk v.ino (v.ino ROOTINO) (rounded (v.ino ROOTINO)) ROOTINO rfl rfl,
      Function.update_eq_self]
    exact finished.mapped
  covered := finished.covered_final few rest
  node := fun _ _ => rfl
  entry := fun _ => rfl
  nonneg := nonneg
  live := live
  unique := unique
  copy := copy

-- The root directory and the first file have been looked up and loaded.
def opened (disk : Disk) (outstanding : Int) (busy : Bool) : State :=
  { cached disk (rootInode disk 1 false) ⟨⟨ROOTDEV, 2, 1, busy, true⟩, dinodeAt sb disk 2⟩ with
    log := ⟨sb.logstart, sb.nlog, outstanding, false, .empty⟩ }

theorem opened_live (outstanding : Int) (busy : Bool) (ip : Slot)
    (live : 0 < ((opened disk outstanding busy).icache ip).ref) :
    (ip = 0 ∧ (opened disk outstanding busy).icache ip = rootInode disk 1 false) ∨
      (ip = 1 ∧ (opened disk outstanding busy).icache ip = ⟨⟨ROOTDEV, 2, 1, busy, true⟩, dinodeAt sb disk 2⟩) := by
  by_cases root : ip = 0
  · exact .inl ⟨root, by rw [root]; rfl⟩
  · by_cases file : ip = 1
    · exact .inr ⟨file, by rw [file]; rfl⟩
    · simp [opened, cached, root, file] at live

section First

variable {f : File} (finished : Finished disk s v (nodes (f :: files)))
  (few : (f :: files).length + 1 < NINODES) (rest : ((f :: files).length + 2) % 32 ≠ 0)

include finished

theorem Finished.first_node : nodeOf v.blk ((final v).ino 2) = ⟨tFile, 0, 0, 1, f.bytes⟩ := by
  rw [final, View.setIno_ino, Function.update_of_ne (by decide), finished.nodes 2 (by decide)]
  exact nodes_file (f :: files) 0 f rfl

include few rest

theorem Finished.opened_rep (outstanding : Int) (busy : Bool) :
    Rep sb (opened disk outstanding busy) (found v (opened disk outstanding busy).icache) := by
  have at_ : At sb (opened disk outstanding busy) (final v) (opened disk outstanding busy).icache :=
    ⟨finished.shows.super, finished.shows, rfl⟩
  refine ⟨final v, _, at_, finished.holds few rest _ (fun ip => ?_) (fun ip live => ?_) (fun ip ip' live live' same => ?_)
    fun ip live _ => ?_⟩
  · by_contra negative
    simp only [opened, cached] at negative
    split at negative
    next => simp [rootInode] at negative
    next => split at negative <;> simp at negative
  · rcases opened_live outstanding busy ip live with ⟨-, entry⟩ | ⟨-, entry⟩ <;> rw [entry]
    · exact ⟨rfl, show 0 < ROOTINO by decide, show ROOTINO < NINODES by decide⟩
    · exact ⟨rfl, show 0 < 2 by decide, show 2 < NINODES by decide⟩
  · rcases opened_live outstanding busy ip live with ⟨rfl, entry⟩ | ⟨rfl, entry⟩ <;>
      rcases opened_live outstanding busy ip' live' with ⟨rfl, entry'⟩ | ⟨rfl, entry'⟩
    · rfl
    · cases same
    · cases same
    · rfl
  · rcases opened_live outstanding busy ip live with ⟨-, entry⟩ | ⟨-, entry⟩ <;> rw [entry]
    · refine ⟨finished.shows.ino ROOTINO (by decide), ?_⟩
      have type : ((final v).ino ROOTINO).type = tDir := by
        rw [← finished.root_type, finished.shows.ino ROOTINO (by decide)]
        rfl
      exact fun zero => absurd (type.symm.trans zero) (by decide)
    · refine ⟨finished.shows.ino 2 (by decide), ?_⟩
      rw [← nodeOf_type v.blk, finished.first_node]
      exact show tFile ≠ 0 by decide

omit few rest in
theorem Finished.free_blocks : freeBlocks sb (bitAt sb disk) + s.freeblock = FSSIZE := by
  have during := finished.during 0
  have unused : freeBlocks sb (bitAt sb disk) = (Finset.Ico s.freeblock FSSIZE).card := by
    refine congrArg Finset.card (Finset.ext fun b => ?_)
    simp only [Finset.mem_filter, Finset.mem_range, Finset.mem_Ico]
    constructor
    · rintro ⟨block, free⟩
      rw [finished.shows.used b block, View.setIno_used, during.used] at free
      exact ⟨by simpa using free, block⟩
    · rintro ⟨above, block⟩
      refine ⟨block, ?_⟩
      rw [finished.shows.used b block, View.setIno_used, during.used]
      simpa using above
  rw [unused, Nat.card_Ico]
  exact Nat.sub_add_cancel during.high

end First

theorem exists_opened_file (data : List UInt8) (fits : data.length ≤ MAXFILE * BSIZE) :
    ∃ disk v, ∀ outstanding busy,
      Rep sb (opened disk outstanding busy) (found v (opened disk outstanding busy).icache) ∧
        (found v (opened disk outstanding busy).icache).node 2 = ⟨tFile, 0, 0, 1, data⟩ ∧
        freeBlocks sb (bitAt sb disk) + (nmeta + 1 + need (dataBlocks data.length)) = FSSIZE := by
  let f : File := ⟨[97], [data], by decide⟩
  have bytes : f.bytes = data := List.append_nil data
  have needed : blocksNeeded [f] = 1 + need (dataBlocks data.length) := by
    have root : need (dataBlocks (16 * (1 + 2))) = 1 := by decide
    rw [← bytes, blocksNeeded, List.map_singleton, List.sum_singleton, List.length_singleton, root]
  have single : [f].length + 1 < NINODES := show 2 < NINODES from by decide
  have few : need (dataBlocks data.length) ≤ need (dataBlocks (MAXFILE * BSIZE)) := need_mono (dataBlocks_mono fits)
  have fit : ¬ Unfit [f] := by
    rintro (⟨g, member, bad⟩ | ⟨g, member, long⟩ | more)
    · rw [List.mem_singleton.mp member] at bad
      exact absurd bad (show slash ∉ [97] from by decide)
    · rw [List.mem_singleton.mp member, bytes] at long
      exact absurd fits (Nat.not_le.mpr long)
    · rw [needed] at more
      have enough : nmeta + (1 + need (dataBlocks (MAXFILE * BSIZE))) ≤ FSSIZE := by decide
      omega
  obtain ⟨image, done⟩ := mkfs_total [f] single fit
  obtain ⟨s, v, finished⟩ := mkfs_finished [f] single image done
  refine ⟨image.disk, v, fun outstanding busy => ⟨finished.opened_rep single (show (1 + 2) % 32 ≠ 0 from by decide) outstanding busy, ?_, ?_⟩⟩
  · rw [← bytes]
    exact finished.first_node
  · have free := finished.free_blocks
    rwa [finished.blocks, total_nodes [f] single, needed, ← Nat.add_assoc nmeta] at free

theorem exists_opened : ∃ disk v, ∀ outstanding busy,
    Rep sb (opened disk outstanding busy) (found v (opened disk outstanding busy).icache) ∧
      (found v (opened disk outstanding busy).icache).node 2 = ⟨tFile, 0, 0, 1, []⟩ ∧
      1900 ≤ freeBlocks sb (bitAt sb disk) := by
  obtain ⟨disk, v, opened⟩ := exists_opened_file [] (Nat.zero_le _)
  refine ⟨disk, v, fun outstanding busy => ?_⟩
  obtain ⟨rep, node, free⟩ := opened outstanding busy
  have small : nmeta + 1 + need (dataBlocks ([] : List UInt8).length) ≤ 100 := by decide
  simp only [FSSIZE] at free
  exact ⟨rep, node, by omega⟩

end Xv6.Mkfs
