import Xv6.Lib.Owners
import Xv6.Fs.Dir

set_option autoImplicit false

/-!
# The disk as inodes, marks and data blocks

The code of `fs.c` reaches the disk in three ways: through a dinode of an inode block, through a bit
of the free map and through a block that is not metadata. A view has one component for each, and
each write changes one place of one component.
-/

namespace Xv6.Fs

open Bytes Prog

structure View where
  ino : Nat → Dinode
  used : Nat → Bool
  blk : Nat → Block

namespace View

def setIno (v : View) (i : Nat) (d : Dinode) : View := { v with ino := Function.update v.ino i d }

def setBlk (v : View) (b : Nat) (data : Block) : View := { v with blk := Function.update v.blk b data }

def mark (v : View) (b : Nat) (used : Bool) : View := { v with used := Function.update v.used b used }

@[simp] theorem setIno_ino (v : View) (i : Nat) (d : Dinode) :
    (v.setIno i d).ino = Function.update v.ino i d := rfl

@[simp] theorem setIno_used (v : View) (i : Nat) (d : Dinode) : (v.setIno i d).used = v.used := rfl

@[simp] theorem setIno_blk (v : View) (i : Nat) (d : Dinode) : (v.setIno i d).blk = v.blk := rfl

@[simp] theorem setBlk_ino (v : View) (b : Nat) (data : Block) : (v.setBlk b data).ino = v.ino := rfl

@[simp] theorem setBlk_used (v : View) (b : Nat) (data : Block) : (v.setBlk b data).used = v.used := rfl

@[simp] theorem setBlk_blk (v : View) (b : Nat) (data : Block) :
    (v.setBlk b data).blk = Function.update v.blk b data := rfl

@[simp] theorem mark_ino (v : View) (b : Nat) (used : Bool) : (v.mark b used).ino = v.ino := rfl

@[simp] theorem mark_used (v : View) (b : Nat) (used : Bool) :
    (v.mark b used).used = Function.update v.used b used := rfl

@[simp] theorem mark_blk (v : View) (b : Nat) (used : Bool) : (v.mark b used).blk = v.blk := rfl

end View

structure Shows (sb : Superblock) (disk : Disk) (v : View) : Prop where
  super : readsb disk = sb
  ino : ∀ i, i < sb.ninodes → dinodeAt sb disk i = v.ino i
  used : ∀ b, b < sb.size → bitAt sb disk b = v.used b
  blk : ∀ b, ¬ sb.Meta b → disk b = v.blk b

def viewOf (sb : Superblock) (disk : Disk) : View := ⟨dinodeAt sb disk, bitAt sb disk, disk⟩

section Writes

variable {sb : Superblock} {disk : Disk} {v : View}

theorem readsb_update (b : Nat) (data : Block) (other : b ≠ 1) :
    readsb (Function.update disk b data) = readsb disk := by
  simp [readsb, Function.update_of_ne other.symm]

theorem Shows.write_data (shown : Shows sb disk v) (b : Nat) (data : Block) (plain : ¬ sb.Meta b) :
    Shows sb (Function.update disk b data) (v.setBlk b data) := by
  constructor
  case super => rw [readsb_update b data (data_ne_one b plain), shown.super]
  case ino =>
    intro i inode
    have other : iblock sb i ≠ b := by
      rintro rfl
      exact plain (Or.inr (Or.inr (Or.inr (Or.inl (iblock_inodes i inode)))))
    rw [dinodeAt, Function.update_of_ne other]
    exact shown.ino i inode
  case used =>
    intro c block
    have other : bblock sb c ≠ b := by
      rintro rfl
      exact plain (Or.inr (Or.inr (Or.inr (Or.inr (bblock_bitmap c block)))))
    rw [bitAt, Function.update_of_ne other]
    exact shown.used c block
  case blk =>
    intro c other
    by_cases same : c = b
    · subst same
      simp
    · simp [same, shown.blk c other]

variable (layout : Layout sb)

include layout

theorem Shows.write_dinode (shown : Shows sb disk v) (i : Nat) (d : Dinode) (inode : i < sb.ninodes) :
    Shows sb (Function.update disk (iblock sb i) (putDinode (disk (iblock sb i)) (i % IPB) d))
      (v.setIno i d) := by
  have region := iblock_inodes i inode
  constructor
  case super => rw [readsb_update _ _ (layout.inodes_ne_one _ region), shown.super]
  case ino =>
    intro j other
    by_cases same : j = i
    · subst same
      have small : j % IPB < IPB := Nat.mod_lt j (by decide)
      simp [dinodeAt, getDinode_putDinode_same _ _ _ small]
    · rw [View.setIno_ino, Function.update_of_ne same, ← shown.ino j other, dinodeAt, dinodeAt]
      by_cases block : iblock sb j = iblock sb i
      · have index : j % IPB ≠ i % IPB := by
          simp only [iblock, IPB, BSIZE, Nat.reduceDiv] at block ⊢
          omega
        rw [block, Function.update_self, getDinode_putDinode_other _ _ _ _ index]
      · rw [Function.update_of_ne block]
  case used =>
    intro b block
    have other := layout.inodes_ne_bitmap _ _ region (bblock_bitmap b block)
    rw [bitAt, Function.update_of_ne other.symm]
    exact shown.used b block
  case blk =>
    intro b plain
    have other : b ≠ iblock sb i := by
      rintro rfl
      exact plain (Or.inr (Or.inr (Or.inr (Or.inl region))))
    rw [Function.update_of_ne other]
    exact shown.blk b plain

theorem Shows.write_bit (shown : Shows sb disk v) (b : Nat) (used : Bool) (change : Block → Block)
    (block : b < sb.size)
    (effect : ∀ data j, getBit (change data) j = if j = b % BPB then used else getBit data j) :
    Shows sb (Function.update disk (bblock sb b) (change (disk (bblock sb b)))) (v.mark b used) := by
  have region := bblock_bitmap b block
  constructor
  case super => rw [readsb_update _ _ (layout.bitmap_ne_one _ region), shown.super]
  case ino =>
    intro i inode
    have other := layout.inodes_ne_bitmap _ _ (iblock_inodes i inode) region
    rw [dinodeAt, Function.update_of_ne other]
    exact shown.ino i inode
  case used =>
    intro c inside
    rw [View.mark_used]
    by_cases same : c = b
    · subst same
      simp [bitAt, effect]
    · rw [Function.update_of_ne same, ← shown.used c inside, bitAt, bitAt]
      by_cases at_ : bblock sb c = bblock sb b
      · have index : c % BPB ≠ b % BPB := by
          simp only [bblock, BPB, BSIZE, Nat.reduceMul] at at_ ⊢
          omega
        rw [at_, Function.update_self, effect, if_neg index]
      · rw [Function.update_of_ne at_]
  case blk =>
    intro c plain
    have other : c ≠ bblock sb b := by
      rintro rfl
      exact plain (Or.inr (Or.inr (Or.inr (Or.inr region))))
    rw [Function.update_of_ne other]
    exact shown.blk c plain

end Writes

/-- Stops that the contents of the file system do not decide: space, and the limits of the log. -/
def Stop.Limit : Stop → Prop
  | .panic p =>
    p = .ballocOutOfBlocks ∨ p = .tooBigTransaction ∨ p = .logWriteOutsideOfTrans ∨ p = .logCommitting
  | .overrun => True
  | .asleep => True
  | .misuse => False

/-- The state of the code, with the disk given by a view. -/
structure At (sb : Superblock) (s : State) (v : View) (c : Slot → Inode) : Prop where
  super : s.sb = sb
  shows : Shows sb s.disk v
  cache : s.icache = c

section Specs

variable {sb : Superblock} {s : State} {v : View} {c : Slot → Inode}

theorem logWriteCheck_limit (log : Log) (why : LogStop) (stops : logWriteCheck log = .error why) :
    (Stop.ofLog why).Limit := by
  unfold logWriteCheck at stops
  split at stops
  next => cases stops; simp [Stop.ofLog, Stop.Limit]
  next =>
    split at stops
    next => cases stops; simp [Stop.ofLog, Stop.Limit]
    next => cases stops

theorem logWrite_limit (log : Log) (b : Nat) (why : LogStop) (stops : Xv6.logWrite log b = .error why) :
    (Stop.ofLog why).Limit := by
  unfold Xv6.logWrite at stops
  split at stops
  next => cases stops
  next =>
    split at stops
    next => cases stops
    next => cases stops; simp [Stop.ofLog, Stop.Limit]

theorem logWrite_spec (b : Nat) (data : Block) :
    wp (logWrite b data)
      (fun _ s' => s'.sb = s.sb ∧ s'.icache = s.icache ∧ s'.disk = Function.update s.disk b data)
      Stop.Limit s := by
  simp only [logWrite, wp_bind, wp_get]
  cases check : logWriteCheck s.log with
  | error why => exact logWriteCheck_limit s.log why check
  | ok _ =>
    cases logged : Xv6.logWrite s.log b with
    | error why => simpa [logged] using logWrite_limit s.log b why logged
    | ok log => simp

theorem At.logWrite_data (at_ : At sb s v c) (b : Nat) (data : Block) (plain : ¬ sb.Meta b) :
    wp (logWrite b data) (fun _ s' => At sb s' (v.setBlk b data) c) Stop.Limit s := by
  apply wp_post _ (logWrite_spec b data)
  rintro _ s' ⟨super, cache, disk⟩
  exact ⟨super.trans at_.super, disk ▸ at_.shows.write_data b data plain, cache.trans at_.cache⟩

theorem At.setInode (at_ : At sb s v c) (ip : Slot) (f : Inode → Inode) :
    wp (setInode ip f) (fun _ s' => At sb s' v (Function.update c ip (f (c ip)))) Stop.Limit s := by
  simp only [Fs.setInode, wp_modify]
  exact ⟨at_.super, at_.shows, by rw [← at_.cache]⟩

theorem At.inodeOf (at_ : At sb s v c) (ip : Slot) :
    wp (inodeOf ip) (fun i s' => i = c ip ∧ s' = s) Stop.Limit s := by
  simp [Fs.inodeOf, at_.cache]

theorem At.bread (at_ : At sb s v c) (b : Nat) (plain : ¬ sb.Meta b) :
    wp (bread b) (fun data s' => data = v.blk b ∧ s' = s) Stop.Limit s := by
  simp [Fs.bread, at_.shows.blk b plain]

variable (layout : Layout sb)

include layout

theorem At.balloc (at_ : At sb s v c) (marked : ∀ b, b < sb.size → sb.Meta b → v.used b = true) :
    wp balloc
      (fun b s' => b < sb.size ∧ v.used b = false ∧
        At sb s' ((v.mark b true).setBlk b fun _ => 0) c) Stop.Limit s := by
  simp only [Fs.balloc, wp_bind, wp_get, at_.super]
  cases found : (List.range sb.size).find? fun b => !bitAt sb s.disk b with
  | none => simp [Stop.Limit]
  | some b =>
    have block : b < sb.size := List.mem_range.mp (List.mem_of_find?_eq_some found)
    have unused : v.used b = false := by
      have clear := List.find?_some found
      rw [← at_.shows.used b block]
      simpa using clear
    have plain : ¬ sb.Meta b := by
      intro reserved
      simp [marked b block reserved] at unused
    have marks : ∀ (data : Block) j, getBit (setBit data (b % BPB)) j =
        if j = b % BPB then true else getBit data j := by
      intro data j
      rw [getBit_setBit data (b % BPB) j (Nat.mod_lt b (by decide))]
      by_cases same : j = b % BPB <;> simp [same, eq_comm]
    simp only [wp_bind, Fs.bread, wp_get, wp_pure]
    apply wp_post _ (logWrite_spec (bblock sb b) _)
    rintro _ s' ⟨super, cache, disk⟩
    have shown := disk ▸ at_.shows.write_bit layout b true (fun data => setBit data (b % BPB)) block marks
    have after : At sb s' (v.mark b true) c := ⟨super.trans at_.super, shown, cache.trans at_.cache⟩
    apply wp_post _ (after.logWrite_data b (fun _ => 0) plain)
    exact fun _ s'' final => ⟨block, unused, final⟩

theorem At.iupdate (at_ : At sb s v c) (ip : Slot) (inode : (c ip).inum < sb.ninodes) :
    wp (iupdate ip) (fun _ s' => At sb s' (v.setIno (c ip).inum (c ip).toDinode) c) Stop.Limit s := by
  simp only [Fs.iupdate, wp_bind, wp_get, Fs.inodeOf, wp_pure, Fs.bread, at_.super, at_.cache]
  apply wp_post _ (logWrite_spec _ _)
  rintro _ s' ⟨super, cache, disk⟩
  have shown := disk ▸ at_.shows.write_dinode layout (c ip).inum (c ip).toDinode inode
  exact ⟨super.trans at_.super, shown, cache.trans at_.cache⟩

end Specs

end Xv6.Fs
