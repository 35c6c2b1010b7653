import Xv6.Mkfs.Basic
import Xv6.Fs.RefineData

set_option autoImplicit false

/-!
# The image is built block by block

While `mkfs` runs, every block below `freeblock` belongs to the metadata or to one position of one
inode, and those above have not been written. An inode has the blocks for its size and no others.
-/

namespace Xv6.Mkfs

open Bytes Fs Prog

theorem layout : Layout sb := by
  constructor <;> decide

theorem meta_iff (b : Nat) : sb.Meta b ↔ b < nmeta := layout.meta_iff b

section Counting

-- The number of data blocks of `n` bytes, and of all blocks of an inode with `m` data blocks.
def dataBlocks (n : Nat) : Nat := (n + (BSIZE - 1)) / BSIZE

def need (m : Nat) : Nat := m + if NDIRECT < m then 1 else 0

theorem dataBlocks_mono {m n : Nat} (le : m ≤ n) : dataBlocks m ≤ dataBlocks n := by
  simp only [dataBlocks, BSIZE]
  omega

theorem need_mono {m n : Nat} (le : m ≤ n) : need m ≤ need n := by
  simp only [need]
  split <;> split <;> omega

theorem dataBlocks_chunk {off len : Nat} (some_ : 0 < len) (room : off % BSIZE + len ≤ BSIZE) :
    dataBlocks (off + len) = off / BSIZE + 1 := by
  simp only [dataBlocks, BSIZE] at *
  omega

theorem dataBlocks_cases (off : Nat) : dataBlocks off = off / BSIZE ∨ dataBlocks off = off / BSIZE + 1 := by
  simp only [dataBlocks, BSIZE]
  omega

end Counting

/-- An inode has `m` data blocks, and the indirect block if it needs one. -/
structure Tight (blk : Nat → Block) (d : Dinode) (m : Nat) : Prop where
  data : ∀ bn, bn < MAXFILE → (ptr blk d (dataPos bn) ≠ 0 ↔ bn < m)
  indirect : ptr blk d .indirect ≠ 0 ↔ NDIRECT < m

theorem Tight.grow {blk blk' : Nat → Block} {d d' : Dinode} {m bn : Nat} (tight : Tight blk d m)
    (inside : bn < MAXFILE) (here : m = bn ∨ m = bn + 1) (target : ptr blk' d' (dataPos bn) ≠ 0)
    (same : ∀ q, q ≠ dataPos bn → q ≠ .indirect → (ptr blk' d' q ≠ 0 ↔ ptr blk d q ≠ 0))
    (indirect : ptr blk' d' .indirect ≠ 0 ↔ NDIRECT < bn + 1) : Tight blk' d' (bn + 1) := by
  refine ⟨?_, indirect⟩
  intro k small
  by_cases equal : k = bn
  · subst equal
    simpa using target
  · have other : dataPos k ≠ dataPos bn := fun equal' => equal (dataPos_inj k bn small inside equal')
    rw [same _ other (dataPos_ne_indirect k), tight.data k small]
    omega

-- The disk shows the inodes and the data blocks; the free map has not been written.
def Seen (disk : Disk) (v : View) : Prop := Shows sb disk { v with used := bitAt sb disk }

/-- `mkfs` works on inode `i`, and has a copy `d` of it. -/
structure During (s : Image) (v : View) (i : Nat) (d : Dinode) : Prop where
  seen : Seen s.disk v
  length : s.length = FSSIZE
  low : nmeta ≤ s.freeblock
  high : s.freeblock ≤ FSSIZE
  used : ∀ b, v.used b = decide (b < s.freeblock)
  zeros : ∀ b, s.freeblock ≤ b → v.blk b = fun _ => 0
  mapped : Mapped sb v (Function.update v.ino i d)
  log : s.disk sb.logstart = fun _ => 0

section Writes

variable {disk : Disk} {v : View}

theorem Seen.write_data (seen : Seen disk v) (b : Nat) (data : Block) (plain : ¬ sb.Meta b) :
    Seen (Function.update disk b data) (v.setBlk b data) := by
  obtain ⟨super, ino, -, blk⟩ := Shows.write_data seen b data plain
  exact ⟨super, ino, fun _ _ => rfl, blk⟩

theorem Seen.write_dinode (seen : Seen disk v) (i : Nat) (d : Dinode) (inode : i < NINODES) :
    Seen (Function.update disk (iblock sb i) (putDinode (disk (iblock sb i)) (i % IPB) d)) (v.setIno i d) := by
  obtain ⟨super, ino, -, blk⟩ := Shows.write_dinode layout seen i d inode
  exact ⟨super, ino, fun _ _ => rfl, blk⟩

theorem Seen.mark (seen : Seen disk v) (b : Nat) (used : Bool) : Seen disk (v.mark b used) :=
  ⟨seen.super, seen.ino, seen.used, seen.blk⟩

end Writes

section Steps

variable {s : Image} {v : View} {i : Nat} {d : Dinode} (during : During s v i d)

include during

theorem During.write_log {b : Nat} {data : Block} (plain : ¬ sb.Meta b) :
    Function.update s.disk b data sb.logstart = fun _ => 0 := by
  have other : sb.logstart ≠ b := by
    rintro rfl
    exact plain ((meta_iff _).mpr (by decide))
  rw [Function.update_of_ne other]
  exact during.log

theorem During.write {b : Nat} {data : Block} (block : b < s.freeblock) (plain : ¬ sb.Meta b)
    (mapped : Mapped sb (v.setBlk b data) (Function.update v.ino i d)) :
    wp (wsect b data) (fun _ s' => During s' (v.setBlk b data) i d ∧ s'.freeblock = s.freeblock ∧
      s'.freeinode = s.freeinode) (fun _ => False) s := by
  have high := during.high
  simp only [wsect, wp_modify]
  refine ⟨⟨during.seen.write_data b data plain, ?_, during.low, high, during.used, ?_, mapped, ?_⟩, trivial, trivial⟩
  · simp only [during.length]
    omega
  · intro c above
    simp only at above
    have other : c ≠ b := by omega
    rw [View.setBlk_blk, Function.update_of_ne other]
    exact during.zeros c above
  · exact during.write_log plain

theorem During.rsect {b : Nat} (plain : ¬ sb.Meta b) :
    wp (rsect b) (fun data s' => b < FSSIZE ∧ data = v.blk b ∧ s' = s) (fun _ => FSSIZE ≤ b) s := by
  simp only [Mkfs.rsect, wp_bind, wp_get, during.length]
  split
  next inside => exact ⟨inside, during.seen.blk b plain, rfl⟩
  next outside =>
    simp only [wp_throw]
    omega

theorem During.newBlock :
    wp newBlock (fun b s' => b = s.freeblock ∧ s'.freeblock = b + 1 ∧ s'.freeinode = s.freeinode ∧
        s'.length = FSSIZE ∧ s'.disk = s.disk ∧ v.used b = false ∧
      (b < FSSIZE → Seen s'.disk ((v.mark b true).setBlk b fun _ => 0) ∧
        (∀ c, ((v.mark b true).setBlk b fun _ => 0).used c = decide (c < s'.freeblock)) ∧
        ∀ c, s'.freeblock ≤ c → ((v.mark b true).setBlk b fun _ => 0).blk c = fun _ => 0)) (fun _ => False) s := by
  simp only [Mkfs.newBlock, wp_bind, wp_get, wp_set, wp_pure]
  refine ⟨trivial, trivial, trivial, during.length, trivial, by simp [during.used], fun room => ⟨?_, ?_, ?_⟩⟩
  · have same : Function.update v.blk s.freeblock (fun _ => 0) = v.blk := by
      rw [← during.zeros s.freeblock le_rfl, Function.update_eq_self]
    have moved := during.seen.mark s.freeblock true
    refine ⟨moved.super, moved.ino, moved.used, ?_⟩
    simpa only [View.setBlk_blk, View.mark_blk, same] using moved.blk
  · intro c
    rw [View.setBlk_used, View.mark_used, Function.update_apply, during.used]
    split <;> simp <;> omega
  · intro c above
    have other : c ≠ s.freeblock := by omega
    rw [View.setBlk_blk, Function.update_of_ne other]
    exact during.zeros c (by omega)

variable (inode : i < NINODES) (typed : d.type ≠ 0)

include inode typed

theorem During.only {v' : View} {d' : Dinode} {p : Pos} {b : Nat} (grown : Grown sb i v v' d d' p b)
    (used : ∀ c, v'.used c = true → v.used c = true ∨ c = b) (q : Pos) (other : q ≠ p)
    (zero : ptr v.blk d q = 0) : ptr v'.blk d' q = 0 := by
  by_contra nonzero
  have typed' := grown.typed typed
  have owned : ∀ r, ptr v'.blk d' r ≠ 0 →
      owner sb.ninodes v'.blk (Function.update v'.ino i d') (i, r) = some (ptr v'.blk d' r) := by
    intro r some_
    apply (owner_eq_some_iff ..).mpr
    simpa using ⟨inode, typed', some_⟩
  have here := owned q nonzero
  have target := owned p (by rw [grown.target]; exact grown.positive)
  obtain ⟨block, plain⟩ := grown.mapped.inside _ _ here
  rcases used _ (grown.mapped.used_of_own _ _ here) with old | new
  · -- The block was in use before, and its owner still has it.
    rcases (during.mapped.used_iff _ block).mp old with reserved | ⟨key, held⟩
    · exact plain reserved
    · cases grown.mapped.once _ _ _ (grown.owner key _ held) here
      have := ((owner_eq_some_iff ..).mp held).2.2.2
      simp only [Function.update_self] at this
      exact nonzero (this.symm.trans zero)
  · rw [new, ← grown.target] at here
    cases grown.mapped.once _ _ _ here target
    exact other rfl

theorem During.loadAddr (k : Fin (NDIRECT + 1)) :
    wp (loadAddr d k)
      (fun r s' => s'.freeinode = s.freeinode ∧
        ((∃ v', During s' v' i r.1 ∧ Grown sb i v v' d r.1 (addrPos k) r.2 ∧
            (∀ q, q ≠ addrPos k → ptr v.blk d q = 0 → ptr v'.blk r.1 q = 0) ∧
            s'.freeblock = s.freeblock + if d.addrs k = 0 then 1 else 0) ∨
          (d.addrs k = 0 ∧ s.freeblock = FSSIZE ∧ r.2 = FSSIZE ∧ s'.length = FSSIZE)))
      (fun _ => False) s := by
  unfold Mkfs.loadAddr
  split
  next empty =>
    refine wp_seq _ _ during.newBlock ?_
    rintro b s' ⟨rfl, next, same, length, disk, unused, rest⟩
    refine ⟨same, ?_⟩
    by_cases room : s.freeblock < FSSIZE
    · left
      obtain ⟨seen, used, zeros⟩ := rest room
      have grown := grown_addr layout i d k s.freeblock inode typed during.mapped empty room unused
      have low := during.low
      refine ⟨_, ⟨seen, length, by omega, by omega, used, zeros, grown.mapped, disk ▸ during.log⟩, grown, ?_,
        by simpa [empty] using next⟩
      refine during.only inode typed grown ?_
      intro c marked
      rw [View.setBlk_used, View.mark_used, Function.update_apply] at marked
      split at marked
      next equal => exact Or.inr equal
      next => exact Or.inl marked
    · right
      have high := during.high
      have full : s.freeblock = FSSIZE := by omega
      exact ⟨empty, full, full, length⟩
  next some_ =>
    have nonzero : ptr v.blk d (addrPos k) ≠ 0 := by
      rw [ptr_addrPos]
      intro zero
      exact some_ (UInt32.toNat_inj.mp (by simpa using zero))
    refine ⟨rfl, Or.inl ⟨v, during, ?_, fun _ _ zero => zero, by simp⟩⟩
    simpa using Grown.refl during.mapped nonzero

theorem During.loadEntry (j : Fin NINDIRECT) (nonzero : ptr v.blk d .indirect ≠ 0) :
    wp (loadEntry (ptr v.blk d .indirect) j)
      (fun b s' => s'.freeinode = s.freeinode ∧
        ((∃ v', During s' v' i d ∧ Grown sb i v v' d d (.entry j) b ∧
            (∀ q, q ≠ .entry j → ptr v.blk d q = 0 → ptr v'.blk d q = 0) ∧
            s'.freeblock = s.freeblock + if ptr v.blk d (.entry j) = 0 then 1 else 0) ∨
          (ptr v.blk d (.entry j) = 0 ∧ s.freeblock = FSSIZE ∧ b = FSSIZE ∧ s'.length = FSSIZE)))
      (fun _ => False) s := by
  set x := ptr v.blk d .indirect with hx
  have held : owner sb.ninodes v.blk (Function.update v.ino i d) (i, .indirect) = some x := by
    apply (owner_eq_some_iff ..).mpr
    simpa using ⟨inode, typed, nonzero, hx.symm⟩
  obtain ⟨block, plain⟩ := during.mapped.inside _ _ held
  have below : x < s.freeblock := by
    simpa [during.used] using during.mapped.used_of_own _ _ held
  have word : d.addrs (Fin.last NDIRECT) ≠ 0 := by
    intro zero
    apply nonzero
    simp [hx, ptr, zero]
  have value : ptr v.blk d (.entry j) = entryAt (v.blk x) j := if_neg word
  rw [value]
  refine wp_then _ _ (during.rsect plain) ?_ fun _ outside => ?_
  swap
  · have size : sb.size = FSSIZE := rfl
    omega
  rintro _ s ⟨-, rfl, rfl⟩
  split
  next empty =>
    refine wp_seq _ _ during.newBlock ?_
    rintro b s' ⟨rfl, next, same, length, disk, unused, rest⟩
    simp only [wsect, wp_bind, wp_modify, wp_pure]
    refine ⟨same, ?_⟩
    have span : max s'.length (x + 1) = FSSIZE := by
      have high := during.high
      omega
    by_cases room : s.freeblock < FSSIZE
    · left
      obtain ⟨seen, used, zeros⟩ := rest room
      have grown := grown_entry layout i d j s.freeblock x inode typed during.mapped rfl nonzero empty room unused
      have low := during.low
      refine ⟨_, ⟨seen.write_data x _ plain, span, by simp only; omega, by simp only; omega, used, ?_, grown.mapped,
        disk ▸ during.write_log plain⟩, grown, ?_, by simpa using next⟩
      · intro c above
        simp only at above
        have other : c ≠ x := by omega
        rw [View.setBlk_blk, Function.update_of_ne other]
        exact zeros c above
      · refine during.only inode typed grown ?_
        intro c marked
        rw [View.setBlk_used, View.setBlk_used, View.mark_used, Function.update_apply] at marked
        split at marked
        next equal => exact Or.inr equal
        next => exact Or.inl marked
    · right
      have high := during.high
      have full : s.freeblock = FSSIZE := by omega
      exact ⟨empty, full, full, span⟩
  next some_ =>
    refine ⟨rfl, Or.inl ⟨v, during, ?_, fun _ _ zero => zero, by simp⟩⟩
    rw [← value] at some_ ⊢
    exact Grown.refl during.mapped some_

-- The inode has the blocks in front of `bn`, and maybe this one.
theorem During.blockOf {m : Nat} (bn : Nat) (inside : bn < MAXFILE) (tight : Tight v.blk d m)
    (here : m = bn ∨ m = bn + 1) :
    wp (blockOf d bn)
      (fun r s' => s'.freeinode = s.freeinode ∧
        ((∃ v', During s' v' i r.1 ∧ Grown sb i v v' d r.1 (dataPos bn) r.2 ∧ Tight v'.blk r.1 (bn + 1) ∧
            s'.freeblock = s.freeblock + (need (bn + 1) - need m)) ∨
          (FSSIZE ≤ r.2 ∧ s'.length = FSSIZE ∧ FSSIZE < s.freeblock + (need (bn + 1) - need m))))
      (fun _ => FSSIZE < s.freeblock + (need (bn + 1) - need m)) s := by
  have data := tight.data bn inside
  unfold Mkfs.blockOf
  split
  next direct =>
    have address := addrPos_ofNat direct
    have cost : need (bn + 1) - need m = if d.addrs (Fin.ofNat (NDIRECT + 1) bn) = 0 then 1 else 0 := by
      have value : ptr v.blk d (dataPos bn) = (d.addrs (Fin.ofNat (NDIRECT + 1) bn)).toNat := by
        rw [← address, ptr_addrPos]
      have zero : d.addrs (Fin.ofNat (NDIRECT + 1) bn) = 0 ↔ ptr v.blk d (dataPos bn) = 0 := by
        rw [value, ← UInt32.toNat_inj]
        rfl
      rw [if_congr zero rfl rfl]
      simp only [need, NDIRECT] at direct data ⊢
      split <;> split <;> split <;> omega
    refine wp_mono _ (during.loadAddr inode typed _) ?_ fun _ stop => stop.elim
    rintro r s' ⟨same, ⟨v', during', grown, only, next⟩ | ⟨empty, full, target, length⟩⟩
    · refine ⟨same, Or.inl ⟨v', during', address ▸ grown, ?_, by rw [cost]; exact next⟩⟩
      rw [address] at grown only
      refine tight.grow inside here (by rw [grown.target]; exact grown.positive) ?_ ?_
      · intro q other _
        exact ⟨fun some_ zero => some_ (only q other zero), fun some_ => by rwa [grown.keeps q some_]⟩
      · have zero : ptr v.blk d .indirect = 0 := by
          have := tight.indirect
          by_contra some_
          have := this.mp some_
          omega
        simp only [only .indirect (dataPos_ne_indirect bn).symm zero, ne_eq, not_true_eq_false, false_iff]
        omega
    · refine ⟨same, Or.inr ⟨by omega, length, ?_⟩⟩
      rw [cost, if_pos empty]
      omega
  next large =>
    have room := indirect_lt inside large
    have position := dataPos_entry large room
    rw [position] at data ⊢
    have empty_iff : d.addrs (Fin.last NDIRECT) = 0 ↔ ptr v.blk d .indirect = 0 := by
      rw [ptr, ← UInt32.toNat_inj]
      rfl
    refine wp_then _ _ (during.loadAddr inode typed _) ?_ fun _ stop => stop.elim
    rintro r s₁ ⟨same₁, ⟨v₁, during₁, first, only₁, next₁⟩ | ⟨empty, full, target, length⟩⟩
    · rw [addrPos_last] at first only₁
      have typed₁ := first.typed typed
      have nonzero : ptr v₁.blk r.1 .indirect ≠ 0 := by
        rw [first.target]
        exact first.positive
      have entries : ∀ j, ptr v₁.blk r.1 (.entry j) = 0 ↔ ptr v.blk d (.entry j) = 0 := by
        intro j
        refine ⟨fun zero => ?_, only₁ _ (by simp)⟩
        by_contra some_
        rw [first.keeps _ some_] at zero
        exact some_ zero
      have before : ptr v.blk d (.entry ⟨bn - NDIRECT, room⟩) ≠ 0 → ptr v.blk d .indirect ≠ 0 := by
        intro some_
        have := data.mp some_
        exact tight.indirect.mpr (by omega)
      have cost : need (bn + 1) - need m = (if ptr v.blk d .indirect = 0 then 1 else 0) +
          if ptr v.blk d (.entry ⟨bn - NDIRECT, room⟩) = 0 then 1 else 0 := by
        have indirect := tight.indirect
        simp only [need, NDIRECT] at indirect data large ⊢
        split <;> split <;> split <;> split <;> omega
      rw [cost, ← first.target]
      rw [if_congr empty_iff rfl rfl] at next₁
      refine wp_then _ _ (during₁.loadEntry inode typed₁ ⟨bn - NDIRECT, room⟩ nonzero) ?_
        fun _ stop => stop.elim
      rintro b s₂ ⟨same₂, ⟨v₂, during₂, second, only₂, next₂⟩ | ⟨empty, full, target, length⟩⟩
      · rw [if_congr (entries _) rfl rfl] at next₂
        refine ⟨same₂.trans same₁, Or.inl ⟨v₂, during₂, first.trans second before, ?_, by omega⟩⟩
        refine tight.grow inside here ?_ ?_ ?_
        · rw [position, second.target]
          exact second.positive
        · intro q other direct
          rw [position] at other
          constructor
          · exact fun some_ zero => some_ (only₂ q other (only₁ q direct zero))
          · intro some_
            have kept := first.keeps q some_
            rw [second.keeps q (by rwa [kept]), kept]
            exact some_
        · have kept := second.keeps .indirect nonzero
          simp only [kept, ne_eq, nonzero, not_false_eq_true, true_iff]
          omega
      · refine ⟨same₂.trans same₁, Or.inr ⟨by omega, length, ?_⟩⟩
        rw [if_pos ((entries _).mp empty)]
        omega
    · -- The indirect block is one too many.
      have zero := empty_iff.mp empty
      have blocks : m = bn ∧ bn = NDIRECT := by
        have := tight.indirect.not.mp (by simpa using zero)
        omega
      have cost : FSSIZE < s.freeblock + (need (bn + 1) - need m) := by
        rw [blocks.1, blocks.2]
        simp [need, full]
      simp only [Mkfs.loadEntry, Mkfs.rsect, wp_bind, wp_get, length, target, lt_irrefl, if_false, wp_throw]
      exact cost

theorem During.appendChunk {off done len : Nat} (tight : Tight v.blk d (dataBlocks off)) (some_ : 0 < len)
    (room : off % BSIZE + len ≤ BSIZE) (p f : Nat → UInt8) (same : ∀ k, k < len → p (done + k) = f (off + k)) :
    wp (appendChunk p d ⟨done, off / BSIZE, off % BSIZE, len⟩)
      (fun d' s' => s'.freeinode = s.freeinode ∧ off + len ≤ MAXFILE * BSIZE ∧
        ∃ v', During s' v' i d' ∧ Wrote sb i v v' d d' off (off + len) f ∧
          Tight v'.blk d' (dataBlocks (off + len)) ∧
          s'.freeblock = s.freeblock + (need (dataBlocks (off + len)) - need (dataBlocks off)))
      (fun _ => FSSIZE < s.freeblock + (need (dataBlocks (off + len)) - need (dataBlocks off)) ∨
        MAXFILE * BSIZE < off + len) s := by
  rw [dataBlocks_chunk some_ room]
  unfold Mkfs.appendChunk
  split
  swap
  next outside =>
    simp only [wp_throw]
    right
    simp only [MAXFILE, NDIRECT, NINDIRECT, BSIZE, Nat.reduceDiv, Nat.reduceAdd] at outside ⊢
    omega
  next inside =>
    have fits : off + len ≤ MAXFILE * BSIZE := by
      simp only [MAXFILE, NDIRECT, NINDIRECT, BSIZE, Nat.reduceDiv, Nat.reduceAdd] at inside room ⊢
      omega
    refine wp_then _ _ (during.blockOf inode typed (off / BSIZE) inside tight
      (dataBlocks_cases off)) ?_ fun _ cost => Or.inl cost
    rintro r s₁ ⟨same₁, ⟨v₁, during₁, grown, tight₁, next⟩ | ⟨outside, length, cost⟩⟩
    · have held := grown.target_owner inode typed
      obtain ⟨block, plain⟩ := during₁.mapped.inside _ _ held
      have below : r.2 < s₁.freeblock := by
        simpa [during₁.used] using during₁.mapped.used_of_own _ _ held
      refine wp_then _ _ (during₁.rsect plain) ?_ fun _ outside => ?_
      swap
      · have size : sb.size = FSSIZE := rfl
        omega
      rintro _ s₁ ⟨-, rfl, rfl⟩
      have position : off / BSIZE * BSIZE + off % BSIZE = off := by
        rw [Nat.mul_comm]
        exact Nat.div_add_mod off BSIZE
      have wrote : Wrote sb i v _ d r.1 (off / BSIZE * BSIZE + off % BSIZE)
          (off / BSIZE * BSIZE + off % BSIZE + len) f :=
        grown.wrote inode typed inside some_ room (fun k => p (done + k)) (by
          intro k small
          rw [same k small, position])
      rw [position] at wrote
      refine wp_then _ _ (during₁.write below plain wrote.mapped) ?_ fun _ stop => stop.elim
      rintro _ s₂ ⟨during₂, next₂, same₂⟩
      refine ⟨same₂.trans same₁, fits, _, during₂, wrote, ?_, next₂.trans next⟩
      have ptrs := grown.data_ptr inode typed (putBytes (v₁.blk r.2) (off % BSIZE) len fun k => p (done + k))
      refine ⟨fun bn small => ?_, ?_⟩
      · rw [View.setBlk_blk, ptrs]
        exact tight₁.data bn small
      · rw [View.setBlk_blk, ptrs]
        exact tight₁.indirect
    · simp only [Mkfs.rsect, wp_bind, wp_get, length, Nat.not_lt.mpr outside, if_false, wp_throw]
      exact Or.inl cost

-- `n - done` bytes are left, the next one goes to `off`. The induction is on the turns of the loop.
theorem During.appendChunks (p f : Nat → UInt8) (fuel off done n : Nat) (turns : n - done ≤ fuel)
    (same : ∀ k, k < n - done → p (done + k) = f (off + k)) (tight : Tight v.blk d (dataBlocks off))
    (start : off ≤ MAXFILE * BSIZE) :
    wp (appendChunks p d (Split.chunksFrom BSIZE fuel off done n))
      (fun d' s' => s'.freeinode = s.freeinode ∧ off + (n - done) ≤ MAXFILE * BSIZE ∧
        ∃ v', During s' v' i d' ∧ Wrote sb i v v' d d' off (off + (n - done)) f ∧
          Tight v'.blk d' (dataBlocks (off + (n - done))) ∧
          s'.freeblock = s.freeblock + (need (dataBlocks (off + (n - done))) - need (dataBlocks off)))
      (fun _ => FSSIZE < s.freeblock + (need (dataBlocks (off + (n - done))) - need (dataBlocks off)) ∨
        MAXFILE * BSIZE < off + (n - done)) s := by
  induction fuel generalizing s v d off done with
  | zero =>
    have none_ : n - done = 0 := by omega
    rw [none_]
    exact ⟨rfl, start, v, during, Wrote.refl during.mapped, tight, by simp⟩
  | succ fuel ih =>
    rw [Split.chunksFrom]
    split
    next more =>
      set len := min (n - done) (BSIZE - off % BSIZE) with hlen
      have room : off % BSIZE < BSIZE := Nat.mod_lt off (by decide)
      have whole : off + len + (n - (done + len)) = off + (n - done) := by omega
      have first := @need_mono (dataBlocks off) (dataBlocks (off + len)) (dataBlocks_mono (by omega))
      have rest := @need_mono (dataBlocks (off + len)) (dataBlocks (off + (n - done))) (dataBlocks_mono (by omega))
      rw [Mkfs.appendChunks]
      refine wp_then _ _ (during.appendChunk inode typed tight (by omega) (by omega) p f
        fun k small => same k (by omega)) ?_ fun _ stop => by omega
      rintro d₁ s₁ ⟨same₁, fits₁, v₁, during₁, wrote₁, tight₁, next₁⟩
      have typed₁ := wrote₁.typed typed
      refine wp_mono _ (ih during₁ typed₁ (off + len) (done + len) (by omega) (by
        intro k below
        have shifted := same (len + k) (by omega)
        rw [← Nat.add_assoc, ← Nat.add_assoc] at shifted
        exact shifted) tight₁ fits₁) ?_ fun _ stop => by rw [whole] at stop; omega
      rintro d₂ s₂ ⟨same₂, fits₂, v₂, during₂, wrote₂, tight₂, next₂⟩
      rw [whole] at fits₂ wrote₂ tight₂ next₂
      exact ⟨same₂.trans same₁, fits₂, v₂, during₂, wrote₁.trans wrote₂ (by omega) (by omega) fits₂, tight₂, by omega⟩
    next =>
      have none_ : n - done = 0 := by omega
      rw [none_]
      exact ⟨rfl, start, v, during, Wrote.refl during.mapped, tight, by simp⟩

end Steps

end Xv6.Mkfs
