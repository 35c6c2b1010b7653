import Xv6.Fs.RefineData

set_option autoImplicit false

/-!
# Room for a write

A write can stop for lack of free blocks or of room in the log. The blocks that it passes to `log_write`
are fixed by the block map and the free map before it starts; `X` is the set of all of them but the last
one. A block takes a place in the log only once, but the log has to have a place left at every call.
-/

namespace Xv6.Fs

open Bytes Prog

section Log

/-- In a transaction, with room in the log for the blocks of `X` and another one. -/
structure Spare (log : Log) (X : Finset Nat) : Prop where
  begun : 1 ≤ log.outstanding
  header : log.lh.n + (X.filter (· ∉ log.lh.block)).card < LOGSIZE
  area : log.lh.n + (X.filter (· ∉ log.lh.block)).card + 1 < log.size

theorem Spare.check {log : Log} {X : Finset Nat} (spare : Spare log X) : logWriteCheck log = .ok () := by
  have header := spare.header
  have area := spare.area
  have begun := spare.begun
  rw [logWriteCheck, if_neg (by omega), if_neg (by omega)]

theorem Spare.logWrite {log : Log} {X : Finset Nat} {b : Nat} (spare : Spare log X) (uint : b < 2 ^ 32) :
    ∃ log', Xv6.logWrite log b = .ok log' ∧ (b ∈ X → Spare log' X) := by
  have header := spare.header
  have area := spare.area
  unfold Xv6.logWrite
  split
  next logged => exact ⟨log, rfl, fun _ => spare⟩
  next new =>
    have room : log.lh.block.length + 1 ≤ LOGSIZE ∧ b < 2 ^ 32 := ⟨by simp only [LogHeader.n] at header; omega, uint⟩
    obtain ⟨lh, appended⟩ : ∃ lh, log.lh.append b = some lh := ⟨_, dif_pos room⟩
    have block := LogHeader.append_block _ _ _ appended
    have count : lh.n = log.lh.n + 1 := by simp [LogHeader.n, block]
    rw [appended]
    refine ⟨_, rfl, fun member => ?_⟩
    have pending : X.filter (· ∉ lh.block) = (X.filter (· ∉ log.lh.block)).erase b := by
      ext c
      simp only [block, Finset.mem_filter, List.mem_append, List.mem_singleton, Finset.mem_erase]
      tauto
    have here : b ∈ X.filter (· ∉ log.lh.block) := Finset.mem_filter.mpr ⟨member, new⟩
    have paid := Finset.card_erase_add_one here
    refine ⟨spare.begun, ?_, ?_⟩
    · simp only [pending, count]
      omega
    · simp only [pending, count]
      omega

theorem logWrite_spare {s : State} {X : Finset Nat} (b : Nat) (data : Block) (spare : Spare s.log X) (uint : b < 2 ^ 32) :
    wp (logWrite b data) (fun _ s' => b ∈ X → Spare s'.log X) (fun _ => False) s := by
  obtain ⟨log, logged, after⟩ := spare.logWrite uint
  simp only [logWrite, wp_bind, wp_get, spare.check, logged, wp_set]
  exact after

end Log

section Free

/-- The free blocks in the order in which `balloc` takes them. -/
def frees (sb : Superblock) (used : Nat → Bool) : List Nat := (List.range sb.size).filter fun b => !used b

def freeBlocks (sb : Superblock) (used : Nat → Bool) : Nat :=
  ((Finset.range sb.size).filter fun b => used b = false).card

variable {sb : Superblock}

theorem mem_frees (used : Nat → Bool) (b : Nat) : b ∈ frees sb used ↔ b < sb.size ∧ used b = false := by
  simp [frees]

theorem frees_nodup (used : Nat → Bool) : (frees sb used).Nodup := List.nodup_range.filter _

theorem frees_length (used : Nat → Bool) : (frees sb used).length = freeBlocks sb used := by
  rw [← List.toFinset_card_of_nodup (frees_nodup used), freeBlocks]
  congr 1
  ext b
  simp [mem_frees]

theorem frees_congr (used used' : Nat → Bool) (same : ∀ b, b < sb.size → used b = used' b) :
    frees sb used = frees sb used' := by
  refine List.filter_congr fun b member => ?_
  rw [same b (List.mem_range.mp member)]

theorem frees_take (used : Nat → Bool) (b : Nat) (first : (List.range sb.size).find? (fun b => !used b) = some b) :
    frees sb used = b :: frees sb (Function.update used b true) := by
  have head : (frees sb used).head? = some b := by
    rw [frees, List.head?_filter, first]
  obtain ⟨rest, split⟩ := List.head?_eq_some_iff.mp head
  have nodup : (frees sb used).Nodup := frees_nodup used
  have later : frees sb (Function.update used b true) = (frees sb used).filter fun x => x ≠ b := by
    rw [frees, frees, List.filter_filter]
    refine List.filter_congr fun x _ => ?_
    by_cases same : x = b <;> simp [same]
  rw [later, split]
  rw [split, List.nodup_cons] at nodup
  rw [List.filter_cons_of_neg (by simp), List.filter_eq_self.mpr fun x member => ?_]
  have other : x ≠ b := by
    rintro rfl
    exact nodup.1 member
  simpa using other

variable {s s' : State} {v : View} {c c' : Slot → Inode} {b : Nat} {data : Block}

theorem At.bits_taken (at_ : At sb s v c) (after : At sb s' ((v.mark b true).setBlk b data) c') (x : Nat)
    (inside : x < sb.size) : bitAt sb s'.disk x = Function.update (bitAt sb s.disk) b true x := by
  rw [after.shows.used x inside, View.setBlk_used, View.mark_used]
  by_cases here : x = b
  · rw [here, Function.update_self, Function.update_self]
  · rw [Function.update_of_ne here, Function.update_of_ne here, at_.shows.used x inside]

theorem At.bits_kept (at_ : At sb s v c) (after : At sb s' (v.setBlk b data) c') (x : Nat) (inside : x < sb.size) :
    bitAt sb s'.disk x = bitAt sb s.disk x := by
  rw [after.shows.used x inside, View.setBlk_used, at_.shows.used x inside]

end Free

/-- Room in the log, and `f` free blocks. `X` has the blocks that are taken next, with their parts of the free map, and
those that have been taken since the free map was `used`. -/
structure Room (sb : Superblock) (used : Nat → Bool) (s : State) (X : Finset Nat) (f : Nat) : Prop where
  spare : Spare s.log X
  free : f ≤ (frees sb (bitAt sb s.disk)).length
  next : ∀ b ∈ (frees sb (bitAt sb s.disk)).take f, b ∈ X ∧ bblock sb b ∈ X
  taken : ∀ b, b < sb.size → used b = false → bitAt sb s.disk b = true → b ∈ X

section Blocks

variable {sb : Superblock} {used : Nat → Bool} {s : State} {X : Finset Nat} {f f' : Nat} {v : View} {c : Slot → Inode}

theorem Room.fewer (room : Room sb used s X f) (less : f' ≤ f) : Room sb used s X f' :=
  ⟨room.spare, less.trans room.free,
    fun b member => room.next b (List.take_subset_take_left _ less member), room.taken⟩

variable (layout : Layout sb)

include layout

theorem Layout.meta_uint (b : Nat) (reserved : sb.Meta b) : b < 2 ^ 32 := by
  have size := layout.size
  have all := layout.nblocks
  have := (layout.meta_iff b).mp reserved
  omega

theorem At.balloc_room (at_ : At sb s v c) (marked : ∀ b, b < sb.size → sb.Meta b → v.used b = true)
    (room : Room sb used s X (f + 1)) :
    wp Fs.balloc (fun b s' => b ∈ X ∧ Room sb used s' X f) (fun _ => False) s := by
  have enough := room.free
  have result : wp Fs.balloc (fun b s' => Spare s'.log X ∧ b ∈ X ∧
      frees sb (bitAt sb s.disk) = b :: frees sb (Function.update (bitAt sb s.disk) b true)) (fun _ => False) s := by
    simp only [Fs.balloc, wp_bind, wp_get, at_.super]
    cases found : (List.range sb.size).find? fun b => !bitAt sb s.disk b with
    | none =>
      have empty : (frees sb (bitAt sb s.disk)).head? = none := by rw [frees, List.head?_filter, found]
      rw [List.head?_eq_none_iff.mp empty] at enough
      exact absurd enough (Nat.not_succ_le_zero f)
    | some b =>
      have first := frees_take _ b found
      have block : b < sb.size := List.mem_range.mp (List.mem_of_find?_eq_some found)
      have members := room.next b (by simp [first])
      have size := layout.size
      simp only [wp_bind, Fs.bread, wp_get, wp_pure]
      refine wp_post _ (logWrite_spare (bblock sb b) _ room.spare
        (layout.meta_uint _ (Or.inr (Or.inr (Or.inr (Or.inr (bblock_bitmap b block))))))) ?_
      intro _ s₁ spare₁
      refine wp_post _ (logWrite_spare b _ (spare₁ members.2) (by omega)) ?_
      exact fun _ s₂ spare₂ => ⟨spare₂ members.1, members.1, first⟩
  refine wp_mono _ (wp_and _ (at_.balloc layout marked) result) ?_ fun _ stop => stop.2
  rintro b s' ⟨⟨block, unused, after⟩, spare, member, first⟩
  have bits := at_.bits_taken after
  have rest := frees_congr _ _ bits
  have next := room.next
  rw [first, List.length_cons] at enough
  rw [first, List.take_succ_cons] at next
  refine ⟨member, spare, by rw [rest]; omega, fun x later => next x (List.mem_cons_of_mem b (rest ▸ later)), ?_⟩
  intro x inside free set_
  by_cases same : x = b
  · exact same ▸ member
  · rw [bits x inside, Function.update_of_ne same] at set_
    exact room.taken x inside free set_

theorem At.logWrite_room (at_ : At sb s v c) (b : Nat) (data : Block) (plain : ¬ sb.Meta b) (block : b < sb.size)
    (room : Room sb used s X f) :
    wp (Fs.logWrite b data) (fun _ s' => b ∈ X → Room sb used s' X f) (fun _ => False) s := by
  have size := layout.size
  refine wp_mono _ (wp_and _ (at_.logWrite_data b data plain) (logWrite_spare b data room.spare (by omega))) ?_
    fun _ stop => stop.2
  rintro _ s' ⟨after, spare⟩ member
  have bits := at_.bits_kept after
  have same := frees_congr _ _ bits
  exact ⟨spare member, same ▸ room.free, same ▸ room.next,
    fun x inside free set_ => room.taken x inside free (bits x inside ▸ set_)⟩

end Blocks

section Bmap

variable {sb : Superblock} {used : Nat → Bool} {s : State} {X : Finset Nat} {f : Nat} {v : View} {c : Slot → Inode}
  {ip : Slot} (layout : Layout sb)

include layout

theorem At.loadAddr_room (at_ : At sb s v c) (n : Fin (NDIRECT + 1))
    (mapped : Mapped sb v (Function.update v.ino (c ip).inum (c ip).toDinode))
    (room : Room sb used s X (f + if (c ip).addrs n = 0 then 1 else 0)) :
    wp (Fs.loadAddr ip n) (fun b s' => Room sb used s' X f ∧ ((c ip).addrs n = 0 → b ∈ X)) (fun _ => False) s := by
  simp only [Fs.loadAddr, Fs.inodeOf, wp_bind, wp_get, wp_pure, at_.cache]
  split
  next empty =>
    rw [if_pos empty] at room
    refine wp_seq _ _ (at_.balloc_room layout mapped.marked room) ?_
    rintro b s₁ ⟨member, room₁⟩
    simp only [wp_bind, Fs.setInode, wp_modify, wp_pure]
    exact ⟨⟨room₁.spare, room₁.free, room₁.next, room₁.taken⟩, fun _ => member⟩
  next some_ =>
    rw [if_neg some_] at room
    exact ⟨room, fun zero => absurd zero some_⟩

-- The blocks that `bmap` has to find for block `bn`: its own, and the indirect block.
def lack (blk : Nat → Block) (d : Dinode) (bn : Nat) : Nat :=
  (if ptr blk d (dataPos bn) = 0 then 1 else 0) +
    if NDIRECT ≤ bn ∧ d.addrs (Fin.last NDIRECT) = 0 then 1 else 0

-- The steps go by the rules of `wp`; to unfold it would evaluate the rest of the program.
attribute [local irreducible] wp

theorem At.bmap_room (at_ : At sb s v c) (bn : Nat) (inside : bn < MAXFILE) (inode : (c ip).inum < sb.ninodes)
    (typed : (c ip).type ≠ 0) (mapped : Mapped sb v (Function.update v.ino (c ip).inum (c ip).toDinode))
    (indirect : NDIRECT ≤ bn → ptr v.blk (c ip).toDinode (dataPos bn) = 0 → (c ip).addrs (Fin.last NDIRECT) ≠ 0 →
      ((c ip).addrs (Fin.last NDIRECT)).toNat ∈ X)
    (room : Room sb used s X (f + lack v.blk (c ip).toDinode bn)) :
    wp (Fs.bmap ip bn) (fun _ s' => Room sb used s' X f) (fun _ => False) s := by
  unfold Fs.bmap
  split
  next direct =>
    have empty : ptr v.blk (c ip).toDinode (dataPos bn) = 0 ↔ (c ip).addrs (Fin.castSucc ⟨bn, direct⟩) = 0 := by
      rw [dataPos_direct direct, ptr, ← UInt32.toNat_inj, UInt32.toNat_zero]
    rw [lack, if_neg (by omega : ¬ (NDIRECT ≤ bn ∧ (c ip).addrs (Fin.last NDIRECT) = 0)), Nat.add_zero] at room
    simp only [empty] at room
    rw [ofNat_direct direct]
    exact wp_post _ (at_.loadAddr_room layout _ mapped room) fun _ _ after => after.1
  next large =>
    have small := indirect_lt inside large
    have position := dataPos_entry large small
    rw [if_pos small]
    have reached : (NDIRECT ≤ bn ∧ (c ip).addrs (Fin.last NDIRECT) = 0) ↔ (c ip).addrs (Fin.last NDIRECT) = 0 :=
      and_iff_right (by omega)
    simp only [lack, reached, ← Nat.add_assoc] at room
    refine wp_then _ _ (wp_and _ (at_.loadAddr layout (Fin.last NDIRECT) inode typed mapped)
      (at_.loadAddr_room layout (Fin.last NDIRECT) mapped room)) ?_ fun _ stop => stop.2
    rintro x s₁ ⟨⟨v₁, d₁, at₁, first⟩, room₁, new₁⟩
    rw [addrPos_last] at first
    obtain ⟨block, plain⟩ := first.mapped.inside _ _ (first.target_owner inode typed)
    have address : (d₁.addrs (Fin.last NDIRECT)).toNat = x := first.target
    have value : ptr v₁.blk d₁ (dataPos bn) = entryAt (v₁.blk x) (bn - NDIRECT) := by
      rw [position]
      exact first.entry_ptr _
    simp only [wp_bind, Fs.bread, wp_get, wp_pure, at₁.shows.blk x plain]
    split
    next empty =>
      have missing : ptr v.blk (c ip).toDinode (dataPos bn) = 0 := by
        by_contra some_
        rw [← first.keeps _ some_, value, empty] at some_
        exact some_ rfl
      have member : x ∈ X := by
        by_cases zero : (c ip).addrs (Fin.last NDIRECT) = 0
        · exact new₁ zero
        · have same := (first.stable fun none_ => zero (UInt32.toNat_inj.mp none_)).2
          rw [← address, same]
          exact indirect (by omega) missing zero
      rw [if_pos missing] at room₁
      refine wp_then _ _ (wp_and _ (at₁.balloc layout first.mapped.marked)
        (at₁.balloc_room layout first.mapped.marked room₁)) ?_ fun _ stop => stop.2
      rintro b s₂ ⟨⟨-, -, at₂⟩, -, room₂⟩
      simp only [wp_bind, wp_get, wp_pure]
      exact wp_post _ (at₂.logWrite_room layout x _ plain block room₂) fun _ _ after => after member
    next =>
      rw [wp_pure]
      exact room₁.fewer (Nat.le_add_right _ _)

end Bmap

/-- The block map of inode `i` has grown: what was owned has kept its owner. -/
structure Grew (sb : Superblock) (i : Nat) (v v' : View) (d d' : Dinode) : Prop where
  inode : i < sb.ninodes
  typed : d.type ≠ 0
  typed' : d'.type ≠ 0
  start : Mapped sb v (Function.update v.ino i d)
  mapped : Mapped sb v' (Function.update v'.ino i d')
  owned : ∀ key x, owner sb.ninodes v.blk (Function.update v.ino i d) key = some x →
    owner sb.ninodes v'.blk (Function.update v'.ino i d') key = some x

theorem indirect_of_entry (blk : Nat → Block) (d : Dinode) (j : Fin NINDIRECT) (some_ : ptr blk d (.entry j) ≠ 0) :
    ptr blk d .indirect ≠ 0 := by
  intro zero
  have word : d.addrs (Fin.last NDIRECT) = 0 := UInt32.toNat_inj.mp zero
  exact some_ (by simp [ptr, word])

theorem indirect_of_data (blk : Nat → Block) (d : Dinode) (bn : Nat) (large : NDIRECT ≤ bn)
    (some_ : ptr blk d (dataPos bn) ≠ 0) : ptr blk d .indirect ≠ 0 := by
  rw [dataPos, dif_neg (Nat.not_lt.mpr large)] at some_
  exact indirect_of_entry blk d _ some_

section Growth

variable {sb : Superblock} {i : Nat} {v v' v'' : View} {d d' d'' : Dinode}

theorem Grew.trans (first : Grew sb i v v' d d') (second : Grew sb i v' v'' d' d'') : Grew sb i v v'' d d'' :=
  ⟨first.inode, first.typed, second.typed', first.start, second.mapped,
    fun key x held => second.owned key x (first.owned key x held)⟩

theorem owner_self (inode : i < sb.ninodes) (typed : d.type ≠ 0) (q : Pos) (some_ : ptr v.blk d q ≠ 0) :
    owner sb.ninodes v.blk (Function.update v.ino i d) (i, q) = some (ptr v.blk d q) := by
  apply (owner_eq_some_iff ..).mpr
  simpa using ⟨inode, typed, some_⟩

theorem Grew.keeps (grew : Grew sb i v v' d d') (q : Pos) (some_ : ptr v.blk d q ≠ 0) :
    ptr v'.blk d' q = ptr v.blk d q := by
  have held := grew.owned _ _ (owner_self grew.inode grew.typed q some_)
  simpa using ((owner_eq_some_iff ..).mp held).2.2.2

theorem Grew.fresh (grew : Grew sb i v v' d d') (q : Pos) (none_ : ptr v.blk d q = 0) (some_ : ptr v'.blk d' q ≠ 0) :
    ptr v'.blk d' q < sb.size ∧ v.used (ptr v'.blk d' q) = false ∧ v'.used (ptr v'.blk d' q) = true := by
  have held := owner_self grew.inode grew.typed' q some_
  obtain ⟨block, plain⟩ := grew.mapped.inside _ _ held
  refine ⟨block, ?_, grew.mapped.used_of_own _ _ held⟩
  by_contra used
  rcases (grew.start.used_iff _ block).mp (by simpa using used) with reserved | ⟨key, earlier⟩
  · exact plain reserved
  · have same : key = (i, q) := grew.mapped.once _ _ _ (grew.owned key _ earlier) held
    subst same
    obtain ⟨-, -, positive, at_⟩ := (owner_eq_some_iff ..).mp earlier
    rw [Function.update_self, none_] at at_
    exact positive at_.symm

theorem Wrote.grew {lo hi : Nat} {f : Nat → UInt8} (wrote : Wrote sb i v v' d d' lo hi f) (inode : i < sb.ninodes)
    (typed : d.type ≠ 0) (start : Mapped sb v (Function.update v.ino i d)) : Grew sb i v v' d d' := by
  refine ⟨inode, typed, wrote.typed typed, start, wrote.mapped, fun key x held => ?_⟩
  obtain ⟨j, q⟩ := key
  by_cases same : j = i
  · subst same
    obtain ⟨-, -, positive, at_⟩ := (owner_eq_some_iff ..).mp held
    apply (owner_eq_some_iff ..).mpr
    simp only [Function.update_self] at at_ ⊢
    exact ⟨inode, wrote.typed typed, positive, by rw [wrote.keeps q (by rwa [at_]), at_]⟩
  · exact wrote.owner j q x same held

end Growth

section Chunks

-- The positions whose blocks a write needs.
def wanted : List Split.Chunk → Finset Pos
  | [] => ∅
  | c :: cs => (if NDIRECT ≤ c.block then {dataPos c.block, .indirect} else {dataPos c.block}) ∪ wanted cs

def missing (blk : Nat → Block) (d : Dinode) (cs : List Split.Chunk) : Finset Pos :=
  (wanted cs).filter fun q => ptr blk d q = 0

theorem lack_eq (blk : Nat → Block) (d : Dinode) (bn : Nat) : lack blk d bn =
    ((if NDIRECT ≤ bn then {dataPos bn, .indirect} else {dataPos bn} : Finset Pos).filter
      fun q => ptr blk d q = 0).card := by
  have indirect : ptr blk d .indirect = 0 ↔ d.addrs (Fin.last NDIRECT) = 0 := by
    rw [ptr, ← UInt32.toNat_inj, UInt32.toNat_zero]
  have other := dataPos_ne_indirect bn
  unfold lack
  by_cases large : NDIRECT ≤ bn <;> by_cases data : ptr blk d (dataPos bn) = 0 <;>
    by_cases last : d.addrs (Fin.last NDIRECT) = 0 <;>
    simp [large, data, last, indirect, other, Finset.filter_insert, Finset.filter_singleton]

theorem lack_le_missing (blk : Nat → Block) (d : Dinode) (c : Split.Chunk) (cs : List Split.Chunk) :
    lack blk d c.block ≤ (missing blk d (c :: cs)).card := by
  rw [lack_eq, missing, wanted, Finset.filter_union]
  exact Finset.card_le_card Finset.subset_union_left

theorem missing_step {blk blk' : Nat → Block} {d d' : Dinode} (c : Split.Chunk) (cs : List Split.Chunk)
    (keeps : ∀ q, ptr blk d q ≠ 0 → ptr blk' d' q ≠ 0) (data : ptr blk' d' (dataPos c.block) ≠ 0)
    (indirect : NDIRECT ≤ c.block → ptr blk' d' .indirect ≠ 0) :
    lack blk d c.block + (missing blk' d' cs).card ≤ (missing blk d (c :: cs)).card := by
  rw [lack_eq, missing, missing, wanted, Finset.filter_union, ← Finset.card_union_of_disjoint]
  · refine Finset.card_le_card (Finset.union_subset_union subset_rfl fun q member => ?_)
    obtain ⟨want, none_⟩ := Finset.mem_filter.mp member
    exact Finset.mem_filter.mpr ⟨want, by_contra fun some_ => keeps q some_ none_⟩
  · rw [Finset.disjoint_left]
    intro q first later
    have none_ := (Finset.mem_filter.mp later).2
    have here := (Finset.mem_filter.mp first).1
    split at here
    next large =>
      rcases Finset.mem_insert.mp here with rfl | last
      · exact data none_
      · rw [Finset.mem_singleton.mp last] at none_
        exact indirect large none_
    next =>
      rw [Finset.mem_singleton.mp here] at none_
      exact data none_

variable {sb : Superblock} {s : State} {v₀ v : View} {c : Slot → Inode} {ip : Slot} {d₀ d : Dinode} {X : Finset Nat} {f : Nat}

-- A position that the write has filled has one of the blocks of `X`.
theorem Room.has (room : Room sb v₀.used s X f) (at_ : At sb s v (setCopy c ip d)) (grew : Grew sb (c ip).inum v₀ v d₀ d)
    (q : Pos) (there : ptr v₀.blk d₀ q ≠ 0 → ptr v₀.blk d₀ q ∈ X) (some_ : ptr v.blk d q ≠ 0) : ptr v.blk d q ∈ X := by
  by_cases none_ : ptr v₀.blk d₀ q = 0
  · obtain ⟨block, free, used⟩ := grew.fresh q none_ some_
    exact room.taken _ block free (by rw [at_.shows.used _ block, used])
  · rw [grew.keeps q none_]
    exact there none_

variable (layout : Layout sb)

include layout

-- The induction is that of `At.writeChunks`. Nothing is asked of the last block: no call of `log_write` comes after it
-- in the loop.
theorem At.writeChunks_room (at_ : At sb s v (setCopy c ip d)) (grew : Grew sb (c ip).inum v₀ v d₀ d) (src : Nat → UInt8)
    (fuel off done n : Nat) (turns : n - done ≤ fuel) (fits : off + (n - done) ≤ MAXFILE * BSIZE)
    (there : ∀ k, off ≤ k → k / BSIZE < (off + (n - done) - 1) / BSIZE → ptr v₀.blk d₀ (dataPos (k / BSIZE)) ≠ 0 →
      ptr v₀.blk d₀ (dataPos (k / BSIZE)) ∈ X)
    (entry : ∀ k, off ≤ k → k < off + (n - done) → NDIRECT ≤ k / BSIZE → ptr v₀.blk d₀ (dataPos (k / BSIZE)) = 0 →
      ptr v₀.blk d₀ .indirect ≠ 0 → ptr v₀.blk d₀ .indirect ∈ X)
    (room : Room sb v₀.used s X (missing v.blk d (Split.chunksFrom BSIZE fuel off done n)).card) :
    wp (Fs.writeChunks ip src (Split.chunksFrom BSIZE fuel off done n))
      (fun _ s' => (∀ k, off ≤ k → k < off + (n - done) → ptr v₀.blk d₀ (dataPos (k / BSIZE)) ≠ 0 →
        ptr v₀.blk d₀ (dataPos (k / BSIZE)) ∈ X) → Spare s'.log X) (fun _ => False) s := by
  induction fuel generalizing s v d off done with
  | zero => exact fun _ => room.spare
  | succ fuel ih =>
    rw [Split.chunksFrom] at room ⊢
    split
    next more =>
      rw [if_pos more] at room
      have inode := grew.inode
      have typed := grew.typed'
      set len := min (n - done) (BSIZE - off % BSIZE) with hlen
      have below : off % BSIZE < BSIZE := Nat.mod_lt off (by decide)
      have position : off / BSIZE * BSIZE + off % BSIZE = off := by
        rw [Nat.mul_comm]
        exact Nat.div_add_mod off BSIZE
      have small : off / BSIZE < MAXFILE := block_lt (by omega)
      set rest := Split.chunksFrom BSIZE fuel (off + len) (done + len) n with hrest
      set bn := off / BSIZE with hbn
      have first_ := lack_le_missing v.blk d ⟨done, bn, off % BSIZE, len⟩ rest
      have found := @At.bmap_room sb v₀.used s X _ v (setCopy c ip d) ip layout at_ bn small (by simpa using inode)
        (by simpa using typed) (by simpa using grew.mapped) (by
          rw [setCopy_self]
          intro large none_ some_
          refine room.has at_ grew .indirect (entry off le_rfl (by omega) large ?_) fun zero => some_ (UInt32.toNat_inj.mp zero)
          by_contra held
          exact held ((grew.keeps _ held).symm.trans none_))
        (room.fewer (by
          rw [setCopy_self]
          exact (Nat.sub_add_cancel first_).le))
      have data := @At.bmap sb s v (setCopy c ip d) ip layout at_ bn small (by simpa using inode) (by simpa using typed)
        (by simpa using grew.mapped)
      refine wp_then _ _ (wp_and _ data found) ?_ fun _ stop => stop.2
      rintro b s₁ ⟨⟨v₁, d₁, at₁, grown⟩, room₁⟩
      simp only [setCopy_self, setCopy_setCopy] at at₁ grown
      have grew₁ : Grew sb (c ip).inum v₀ v₁ d₀ d₁ :=
        grew.trans ⟨inode, typed, grown.typed typed, grew.mapped, grown.mapped, grown.owner⟩
      obtain ⟨block, plain⟩ := grown.mapped.inside _ _ (grown.target_owner inode typed)
      have first : Wrote sb (c ip).inum v _ d d₁ (bn * BSIZE + off % BSIZE) (bn * BSIZE + off % BSIZE + len)
          fun j => src (done + (j - off)) :=
        grown.wrote inode typed small (by omega) (by omega) (fun j => src (done + j)) (by
          intro j _
          rw [position, Nat.add_sub_cancel_left])
      have grew₂ := grew.trans (first.grew inode typed grew.mapped)
      have member (held : ptr v₀.blk d₀ (dataPos bn) ≠ 0 → ptr v₀.blk d₀ (dataPos bn) ∈ X) : b ∈ X := by
        have has := room₁.has at₁ grew₁ (dataPos bn) held (by rw [grown.target]; exact grown.positive)
        rwa [grown.target] at has
      have left := @missing_step v.blk (Function.update v₁.blk b (putBytes (v₁.blk b) (off % BSIZE) len fun j => src (done + j)))
        d d₁ ⟨done, bn, off % BSIZE, len⟩ rest (by
          intro q some_
          rw [grown.data_ptr inode typed, grown.keeps q some_]
          exact some_) (by
          rw [grown.data_ptr inode typed, grown.target]
          exact grown.positive) (by
          intro large
          rw [grown.data_ptr inode typed]
          exact indirect_of_data _ _ _ large (by rw [grown.target]; exact grown.positive))
      simp only [wp_bind, Fs.bread, wp_get, wp_pure, at₁.shows.blk b plain]
      refine wp_mono _ (wp_and _ (at₁.logWrite_data b _ plain) (at₁.logWrite_room layout b _ plain block room₁)) ?_
        fun _ stop => stop.2
      rintro _ s₂ ⟨at₂, room₂⟩
      by_cases last : n - (done + len) = 0
      · have done_ : Split.chunksFrom BSIZE fuel (off + len) (done + len) n = [] := by
          cases fuel <;> simp [Split.chunksFrom, Nat.sub_eq_zero_iff_le.mp last]
        rw [done_]
        exact fun all => (room₂ (member (all off le_rfl (by omega)))).spare
      · -- The chunk ends with its block, so the write goes on behind it.
        have whole : off + len + (n - (done + len)) = off + (n - done) := by omega
        have behind : bn < (off + (n - done) - 1) / BSIZE := by
          rw [hbn]
          simp only [BSIZE] at *
          omega
        refine wp_post _ (ih at₂ grew₂ (off + len) (done + len) (by omega) (by omega)
          (fun k low before => there k (by omega) (whole ▸ before)) (fun k low high => entry k (by omega) (whole ▸ high))
          ((room₂ (member (there off le_rfl behind))).fewer (Nat.le_sub_of_add_le' left))) ?_
        exact fun _ s₃ spare all => spare fun k low high => all k (by omega) (whole ▸ high)
    next => exact fun _ => room.spare

end Chunks

section Write

variable {sb : Superblock}

-- The blocks of the inode that a write goes through.
def through (off n : Nat) : Finset Nat := (Finset.Ico off (off + n)).image (· / BSIZE)

def takes (sb : Superblock) (disk : Disk) (d : Dinode) (off n : Nat) : Finset Nat :=
  ((frees sb (bitAt sb disk)).take (missing disk d (Split.chunks BSIZE off n)).card).toFinset

-- Of the blocks that the file has, those that it changes: the blocks of the data, and the indirect block if it gets an
-- entry.
def changes (disk : Disk) (d : Dinode) (off n : Nat) : Finset Nat :=
  ((through off n).image (fun bn => ptr disk d (dataPos bn)) ∪
    if ∃ bn ∈ through off n, NDIRECT ≤ bn ∧ ptr disk d (dataPos bn) = 0 then {ptr disk d .indirect} else ∅).erase 0

/-- The blocks that a write passes to `log_write`: those that it changes, those that it takes with their parts of the free
map, and the block of the inode if the file grows. -/
def logWritten (sb : Superblock) (disk : Disk) (d : Dinode) (i off n : Nat) : Finset Nat :=
  changes disk d off n ∪ takes sb disk d off n ∪ (takes sb disk d off n).image (bblock sb) ∪
    if d.size.toNat < off + n then {iblock sb i} else ∅

def lastWritten (sb : Superblock) (disk : Disk) (d : Dinode) (i off n : Nat) : Nat :=
  if d.size.toNat < off + n then iblock sb i else ptr disk d (dataPos ((off + n - 1) / BSIZE))

/-- There are enough free blocks for a write and, unless there is nothing to write, the caller is in a transaction and the
log has room: before the last call of `log_write` it is not full yet. -/
structure Available (sb : Superblock) (s : State) (ip : Slot) (off n : Nat) : Prop where
  blocks : (missing s.disk (s.icache ip).toDinode (Split.chunks BSIZE off n)).card ≤ freeBlocks sb (bitAt sb s.disk)
  spare : 0 < n → Spare s.log ((logWritten sb s.disk (s.icache ip).toDinode (s.icache ip).inum off n).erase
    (lastWritten sb s.disk (s.icache ip).toDinode (s.icache ip).inum off n))

theorem mem_wanted (cs : List Split.Chunk) (q : Pos) : q ∈ wanted cs ↔
    ∃ c ∈ cs, q = dataPos c.block ∨ (NDIRECT ≤ c.block ∧ q = .indirect) := by
  induction cs with
  | nil => simp [wanted]
  | cons c cs ih =>
    rw [wanted, Finset.mem_union, ih]
    by_cases large : NDIRECT ≤ c.block <;> simp [large]

theorem wanted_card_le (cs : List Split.Chunk) : (wanted cs).card ≤ cs.length + 1 := by
  have all : wanted cs ⊆ insert .indirect (cs.map fun c => dataPos c.block).toFinset := by
    intro q member
    obtain ⟨c, inside, place⟩ := (mem_wanted cs q).mp member
    rcases place with rfl | ⟨-, rfl⟩
    · exact Finset.mem_insert_of_mem (List.mem_toFinset.mpr (List.mem_map_of_mem inside))
    · exact Finset.mem_insert_self _ _
  have few := (cs.map fun c => dataPos c.block).toFinset_card_le
  rw [List.length_map] at few
  exact (Finset.card_le_card all).trans ((Finset.card_insert_le _ _).trans (Nat.add_le_add_right few 1))

theorem missing_card_le (blk : Nat → Block) (d : Dinode) (cs : List Split.Chunk) :
    (missing blk d cs).card ≤ cs.length + 1 :=
  (Finset.card_filter_le _ _).trans (wanted_card_le cs)

theorem mem_wanted_through {off n bn : Nat} (member : bn ∈ through off n) (q : Pos)
    (place : q = dataPos bn ∨ (NDIRECT ≤ bn ∧ q = .indirect)) : q ∈ wanted (Split.chunks BSIZE off n) := by
  rw [through, ← Split.chunks_blocks BSIZE off n (by decide), List.mem_toFinset] at member
  obtain ⟨c, inside, rfl⟩ := List.mem_map.mp member
  exact (mem_wanted _ q).mpr ⟨c, inside, place⟩

theorem logWritten_card_le (disk : Disk) (d : Dinode) (i off n : Nat) :
    (logWritten sb disk d i off n).card ≤ (Split.chunks BSIZE off n).length + (sb.size / BPB + 1) + 2 := by
  have there : (changes disk d off n).card ≤
      ((wanted (Split.chunks BSIZE off n)).filter fun q => ¬ ptr disk d q = 0).card := by
    refine (Finset.card_le_card fun b member => ?_).trans (Finset.card_image_le (f := ptr disk d))
    obtain ⟨some_, member⟩ := Finset.mem_erase.mp member
    rcases Finset.mem_union.mp member with data | last
    · obtain ⟨bn, inside, rfl⟩ := Finset.mem_image.mp data
      exact Finset.mem_image_of_mem _ (Finset.mem_filter.mpr ⟨mem_wanted_through inside _ (.inl rfl), some_⟩)
    · split at last
      next entered =>
        obtain ⟨bn, inside, large, -⟩ := entered
        rw [Finset.mem_singleton.mp last] at some_ ⊢
        exact Finset.mem_image_of_mem _ (Finset.mem_filter.mpr ⟨mem_wanted_through inside _ (.inr ⟨large, rfl⟩), some_⟩)
      next => cases last
  have new : (takes sb disk d off n).card ≤ (missing disk d (Split.chunks BSIZE off n)).card :=
    (List.toFinset_card_le _).trans (List.length_take_le _ _)
  have bitmap : ((takes sb disk d off n).image (bblock sb)).card ≤ sb.size / BPB + 1 := by
    have region : (takes sb disk d off n).image (bblock sb) ⊆
        Finset.Ico sb.bmapstart (sb.bmapstart + (sb.size / BPB + 1)) := by
      intro b member
      obtain ⟨x, taken, rfl⟩ := Finset.mem_image.mp member
      have free := (mem_frees _ _).mp (List.mem_of_mem_take (List.mem_toFinset.mp taken))
      exact Finset.mem_Ico.mpr (bblock_bitmap x free.1)
    simpa using Finset.card_le_card region
  have grows : (if d.size.toNat < off + n then {iblock sb i} else ∅ : Finset Nat).card ≤ 1 := by
    split <;> simp
  have split_ : (missing disk d (Split.chunks BSIZE off n)).card + _ = (wanted (Split.chunks BSIZE off n)).card :=
    Finset.card_filter_add_card_filter_not fun q => ptr disk d q = 0
  have all := wanted_card_le (Split.chunks BSIZE off n)
  unfold logWritten
  refine (Finset.card_union_le _ _).trans ?_
  have outer := Finset.card_union_le (changes disk d off n ∪ takes sb disk d off n)
    ((takes sb disk d off n).image (bblock sb))
  have inner := Finset.card_union_le (changes disk d off n) (takes sb disk d off n)
  omega

theorem available_of_few {s : State} {ip : Slot} {off n : Nat}
    (blocks : (missing s.disk (s.icache ip).toDinode (Split.chunks BSIZE off n)).card ≤ freeBlocks sb (bitAt sb s.disk))
    (begun : 1 ≤ s.log.outstanding)
    (header : s.log.lh.n + ((Split.chunks BSIZE off n).length + (sb.size / BPB + 1) + 2) < LOGSIZE)
    (area : s.log.lh.n + ((Split.chunks BSIZE off n).length + (sb.size / BPB + 1) + 2) + 1 < s.log.size) :
    Available sb s ip off n := by
  refine ⟨blocks, fun _ => ?_⟩
  have few := @logWritten_card_le sb s.disk (s.icache ip).toDinode (s.icache ip).inum off n
  have part := Finset.card_filter_le ((logWritten sb s.disk (s.icache ip).toDinode (s.icache ip).inum off n).erase
    (lastWritten sb s.disk (s.icache ip).toDinode (s.icache ip).inum off n)) (· ∉ s.log.lh.block)
  have less := Finset.card_erase_le (s := logWritten sb s.disk (s.icache ip).toDinode (s.icache ip).inum off n)
    (a := lastWritten sb s.disk (s.icache ip).toDinode (s.icache ip).inum off n)
  exact ⟨begun, by omega, by omega⟩

section Members

variable {v : View} {s : State} {c : Slot → Inode} {d : Dinode} {i off n : Nat} (layout : Layout sb)
  (inode : i < sb.ninodes) (typed : d.type ≠ 0) (mapped : Mapped sb v (Function.update v.ino i d))
  (map : ∀ q, ptr s.disk d q = ptr v.blk d q)

include map

theorem mem_logWritten_data {k : Nat} (low : off ≤ k) (high : k < off + n) (some_ : ptr v.blk d (dataPos (k / BSIZE)) ≠ 0) :
    ptr v.blk d (dataPos (k / BSIZE)) ∈ logWritten sb s.disk d i off n := by
  have through_ : k / BSIZE ∈ through off n := Finset.mem_image_of_mem (· / BSIZE) (Finset.mem_Ico.mpr ⟨low, high⟩)
  have image := Finset.mem_image_of_mem (fun bn => ptr s.disk d (dataPos bn)) through_
  simp only [map] at image
  simp only [logWritten, changes, map, Finset.mem_union, Finset.mem_erase]
  tauto

theorem mem_logWritten_indirect {k : Nat} (low : off ≤ k) (high : k < off + n) (large : NDIRECT ≤ k / BSIZE)
    (none_ : ptr v.blk d (dataPos (k / BSIZE)) = 0) (some_ : ptr v.blk d .indirect ≠ 0) :
    ptr v.blk d .indirect ∈ logWritten sb s.disk d i off n := by
  have through_ : k / BSIZE ∈ through off n := Finset.mem_image_of_mem (· / BSIZE) (Finset.mem_Ico.mpr ⟨low, high⟩)
  have entered : ∃ bn ∈ through off n, NDIRECT ≤ bn ∧ ptr s.disk d (dataPos bn) = 0 :=
    ⟨_, through_, large, by rw [map]; exact none_⟩
  rw [logWritten, changes, if_pos entered, map]
  simp [some_]

include inode typed mapped

theorem ptr_ne_last (q : Pos) (some_ : ptr v.blk d q ≠ 0)
    (other : off + n ≤ d.size.toNat → q ≠ dataPos ((off + n - 1) / BSIZE)) :
    ptr v.blk d q ≠ lastWritten sb s.disk d i off n := by
  have held := owner_self inode typed q some_
  intro same
  unfold lastWritten at same
  split at same
  next =>
    rw [same] at held
    exact (mapped.inside _ _ held).2 (.inr (.inr (.inr (.inl (iblock_inodes i inode)))))
  next within =>
    rw [map] at same
    have twice := owner_self inode typed _ (same ▸ some_)
    rw [← same] at twice
    exact other (Nat.not_lt.mp within) (Prod.mk.inj (mapped.once _ _ _ held twice)).2

include layout

-- It is in use, and no block of the free map.
theorem last_kind : v.used (lastWritten sb s.disk d i off n) = true ∧ ¬ sb.Bitmap (lastWritten sb s.disk d i off n) := by
  have size := layout.nblocks
  have start : 0 < sb.bmapstart := by
    rw [layout.bmapstart]
    exact Nat.succ_pos _
  have positive : 0 < sb.size := by
    generalize sb.size / BPB = m at size
    omega
  unfold lastWritten
  split
  next =>
    have region := iblock_inodes i inode
    have reserved : sb.Meta (iblock sb i) := .inr (.inr (.inr (.inl region)))
    have inside := (layout.meta_iff _).mp reserved
    exact ⟨mapped.marked _ (by omega) reserved, fun bitmap => layout.inodes_ne_bitmap _ _ region bitmap rfl⟩
  next =>
    rw [map]
    by_cases none_ : ptr v.blk d (dataPos ((off + n - 1) / BSIZE)) = 0
    · rw [none_]
      exact ⟨mapped.marked 0 positive (.inl rfl), fun bitmap => by simp only [Superblock.Bitmap] at bitmap; omega⟩
    · have held := owner_self inode typed _ none_
      exact ⟨mapped.used_of_own _ _ held, fun bitmap => (mapped.inside _ _ held).2 (.inr (.inr (.inr (.inr bitmap))))⟩

theorem Available.room {ip : Slot} (at_ : At sb s v c) (copy : (c ip).toDinode = d) (number : (c ip).inum = i)
    (available : Available sb s ip off n) (some_ : 0 < n) :
    Room sb v.used s ((logWritten sb s.disk d i off n).erase (lastWritten sb s.disk d i off n))
      (missing v.blk d (Split.chunks BSIZE off n)).card := by
  have same : missing s.disk d (Split.chunks BSIZE off n) = missing v.blk d (Split.chunks BSIZE off n) := by
    simp only [missing, map]
  obtain ⟨blocks, spare⟩ := available
  rw [at_.cache, copy] at blocks spare
  rw [number] at spare
  rw [← same]
  refine ⟨spare some_, by rwa [frees_length], fun b member => ?_, fun b inside free set_ => ?_⟩
  · have taken : b ∈ takes sb s.disk d off n := List.mem_toFinset.mpr member
    obtain ⟨block, free⟩ := (mem_frees _ _).mp (List.mem_of_mem_take member)
    rw [at_.shows.used b block] at free
    have kind := @last_kind sb v s d i off n layout inode typed mapped map
    refine ⟨Finset.mem_erase.mpr ⟨fun last => ?_, ?_⟩, Finset.mem_erase.mpr ⟨fun last => ?_, ?_⟩⟩
    · rw [last, kind.1] at free
      cases free
    · simp only [logWritten, Finset.mem_union]
      tauto
    · exact kind.2 (last ▸ bblock_bitmap b block)
    · have image := Finset.mem_image_of_mem (bblock sb) taken
      simp only [logWritten, Finset.mem_union]
      tauto
  · rw [at_.shows.used b inside, free] at set_
    cases set_

end Members

variable (layout : Layout sb)

include layout

theorem At.writes_room {s : State} {v : View} {c : Slot → Inode} {ip : Slot} {off n : Nat} (at_ : At sb s v c)
    (inode : (c ip).inum < sb.ninodes) (typed : (c ip).type ≠ 0)
    (mapped : Mapped sb v (Function.update v.ino (c ip).inum (c ip).toDinode)) (src : Nat → UInt8)
    (available : Available sb s ip off n) (some_ : 0 < n) (fits : off + n ≤ MAXFILE * BSIZE) :
    wp (Fs.writeChunks ip src (Split.chunks BSIZE off n)) (fun _ s' => (c ip).size.toNat < off + n → ∃ X, Spare s'.log X)
      (fun _ => False) s := by
  have map (q : Pos) : ptr s.disk (c ip).toDinode q = ptr v.blk (c ip).toDinode q :=
    (at_.blockMap inode typed mapped q).2
  have room := available.room layout inode typed mapped map at_ rfl rfl some_
  have small (k : Nat) (high : k < off + n) : k / BSIZE < MAXFILE := block_lt (by omega)
  have loop := @At.writeChunks_room sb s v v c ip (c ip).toDinode (c ip).toDinode _ layout (by rwa [setCopy_copy])
    ⟨inode, typed, typed, mapped, mapped, fun _ _ held => held⟩ src n off 0 n (by omega) (by omega)
    (fun k low before held => by
      have high := Nat.lt_of_div_lt_div before
      refine Finset.mem_erase.mpr ⟨ptr_ne_last inode typed mapped map _ held fun _ same => ?_,
        mem_logWritten_data map low (by omega) held⟩
      exact before.ne (dataPos_inj _ _ (small k (by omega)) (small _ (by omega)) same))
    (fun k low high large none_ held => Finset.mem_erase.mpr
      ⟨ptr_ne_last inode typed mapped map _ held fun _ => (dataPos_ne_indirect _).symm,
        mem_logWritten_indirect map low high large none_ held⟩) room
  refine wp_post _ loop fun _ s' spare grows => ⟨_, spare fun k low high held => ?_⟩
  exact Finset.mem_erase.mpr ⟨ptr_ne_last inode typed mapped map _ held fun within => absurd grows (Nat.not_lt.mpr within),
    mem_logWritten_data map low high held⟩

theorem writei_room {s : State} {a : Nodes} (rep : Rep sb s a) (ip : Slot) (usable : Spec.Usable (a.cache ip))
    (src : Nat → UInt8) (off len : UInt32) (available : Available sb s ip off.toNat len.toNat) :
    wp (writei ip src off len) (fun _ _ => True) (fun _ => False) s := by
  obtain ⟨v, c, at_, holds⟩ := rep
  obtain ⟨-, -, inode, -, typed, -, mapped, -⟩ := holds.usable ip usable
  simp only [writei, inodeOf, wp_bind, wp_get, wp_pure, at_.cache]
  split
  next => split <;> trivial
  next =>
    split
    next => trivial
    next inside =>
      split
      next => trivial
      next short =>
        rw [not_or] at inside
        have sum := add_toNat_of_no_wrap off len inside.2
        obtain none_ | some_ := Nat.eq_zero_or_pos len.toNat
        · have zero : len = 0 := UInt32.toNat_inj.mp none_
          subst zero
          simp [Split.chunks, Split.chunksFrom, writeChunks]
        have written := @At.writeChunks sb s v c ip (c ip).toDinode layout (by rwa [setCopy_copy]) src
          (fun k => src (k - off.toNat)) len.toNat off.toNat 0 len.toNat (by omega) (by omega) (by intro k _; simp) inode
          typed mapped
        refine wp_then _ _ (wp_and _ written
          (at_.writes_room layout inode typed mapped src available some_ (by omega))) ?_ fun _ stop => stop.2
        rintro _ s₁ ⟨⟨v₁, d₁, at₁, -, -, -⟩, spare⟩
        split
        next grows =>
          have region := iblock_inodes (c ip).inum inode
          obtain ⟨X, spare⟩ := spare (sum ▸ UInt32.lt_iff_toNat_lt.mp grows.2)
          simp only [wp_bind, setInode, wp_modify, iupdate, wp_get, inodeOf, bread, wp_pure, at₁.super, at₁.cache,
            setCopy_self, Function.update_self]
          exact wp_post _ (logWrite_spare (iblock sb (c ip).inum) _ spare
            (layout.meta_uint _ (Or.inr (Or.inr (Or.inr (Or.inl region)))))) fun _ _ _ => trivial
        next => trivial

end Write

end Xv6.Fs
