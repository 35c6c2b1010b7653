import Xv6.Mkfs.Consistent

set_option autoImplicit false

/-!
# Inodes as byte arrays

What `writei` and `readi` do to an inode on a consistent disk without holes, down to the byte: the
array grows and changes where it was written, and every other array stays. A write that returns has
logged every block it touched, so it has to find room in the log, which it shares with the operations
that are outstanding.
-/

namespace Xv6.Fs

open Bytes Prog

/-- Offsets and counts for which there is nothing to write. -/
def Refuses (size : Nat) (off n : UInt32) : Prop :=
  size < off.toNat ∨ 2 ^ 32 ≤ off.toNat + n.toNat ∨ MAXFILE * BSIZE < off.toNat + n.toNat

/-- Bytes of inode `i` have been replaced, and nothing else. -/
structure Rewritten (a a' : Nodes) (i : Nat) (src : Nat → UInt8) (off n : Nat) : Prop where
  size : (a'.node i).data.length = max (a.node i).data.length (off + n)
  inside : ∀ k, off ≤ k → k < off + n → (a'.node i).data[k]? = some (src (k - off))
  outside : ∀ k, ¬ (off ≤ k ∧ k < off + n) → (a'.node i).data[k]? = (a.node i).data[k]?
  attrs : a'.node i = { a.node i with data := (a'.node i).data }
  others : ∀ j, j ≠ i → a'.node j = a.node j
  cache : a'.cache = a.cache

theorem rewritten_splice (a : Nodes) (i : Nat) (src : Nat → UInt8) (off n : Nat)
    (start : off ≤ (a.node i).data.length) :
    Rewritten a (a.setNode i { a.node i with data := Spec.splice (a.node i).data off n src }) i src off n where
  size := by
    rw [Nodes.setNode_node, Function.update_self]
    exact Spec.splice_length _ _ _ _ start
  inside k low high := by
    rw [Nodes.setNode_node, Function.update_self]
    exact (Spec.splice_getElem? _ _ _ _ _ start).trans (if_pos ⟨low, high⟩)
  outside k away := by
    rw [Nodes.setNode_node, Function.update_self]
    exact (Spec.splice_getElem? _ _ _ _ _ start).trans (if_neg away)
  attrs := by simp
  others j other := by simp [other]
  cache := rfl

section Words

theorem carry_iff (off n : UInt32) : off + n < off ↔ 2 ^ 32 ≤ off.toNat + n.toNat := by
  have one := off.toNat_lt
  have two := n.toNat_lt
  rw [UInt32.lt_iff_toNat_lt, UInt32.toNat_add]
  omega

theorem refuses_iff (size off n : UInt32) : Refuses size.toNat off n ↔
    (off > size ∨ off + n < off) ∨ (off + n).toNat > MAXFILE * BSIZE := by
  have one := off.toNat_lt
  have two := n.toNat_lt
  rw [Refuses, carry_iff, gt_iff_lt, UInt32.lt_iff_toNat_lt, UInt32.toNat_add]
  simp only [MAXFILE, NDIRECT, NINDIRECT, BSIZE, Nat.reduceDiv, Nat.reduceAdd, Nat.reduceMul]
  omega

def delivered (data : List UInt8) (off n : UInt32) : Int × List UInt8 :=
  if data.length < off.toNat ∨ 2 ^ 32 ≤ off.toNat + n.toNat then (-1, [])
  else ((min (off.toNat + n.toNat) data.length - off.toNat : Nat), (data.take (off.toNat + n.toNat)).drop off.toNat)

theorem readBytes_delivered (node : Node) (file : node.type ≠ tDev) (fits : node.data.length ≤ MAXFILE * BSIZE)
    (off n : UInt32) (console : Int) : Spec.readBytes node off n console = delivered node.data off n := by
  have small : node.data.length < 2 ^ 31 := by
    simp only [MAXFILE, NDIRECT, NINDIRECT, BSIZE] at fits
    omega
  have size : (UInt32.ofNat node.data.length).toNat = node.data.length := by
    rw [UInt32.toNat_ofNat']
    omega
  have refused : (off > UInt32.ofNat node.data.length ∨ off + n < off) ↔
      node.data.length < off.toNat ∨ 2 ^ 32 ≤ off.toNat + n.toNat := by
    rw [carry_iff, gt_iff_lt, UInt32.lt_iff_toNat_lt, size]
  simp only [Spec.readBytes, if_neg file, delivered, refused]
  by_cases outside : node.data.length < off.toNat ∨ 2 ^ 32 ≤ off.toNat + n.toNat
  · rw [if_pos outside, if_pos outside]
  · rw [if_neg outside, if_neg outside]
    rw [not_or] at outside
    have sum : (off + n).toNat = off.toNat + n.toNat := by
      rw [UInt32.toNat_add]
      omega
    have count : (if off + n > UInt32.ofNat node.data.length then UInt32.ofNat node.data.length - off else n).toNat =
        min (off.toNat + n.toNat) node.data.length - off.toNat := by
      split
      next above =>
        rw [gt_iff_lt, UInt32.lt_iff_toNat_lt, sum, size] at above
        rw [UInt32.toNat_sub_of_le _ _ (by rw [UInt32.le_iff_toNat_le, size]; omega), size]
        omega
      next below =>
        rw [gt_iff_lt, UInt32.lt_iff_toNat_lt, sum, size] at below
        omega
    rw [Sys.int_eq, count, if_pos (by omega), List.drop_take]
    congr 1
    rw [Nat.add_sub_cancel_left, List.take_eq_take_iff, List.length_drop]
    omega

end Words

section Usable

variable {sb : Superblock} {s : State} {a : Nodes} {ip : Slot} (rep : Rep sb s a) (usable : Spec.Usable (a.cache ip))

include rep usable

theorem Rep.entry : (s.icache ip).type = (a.node (a.cache ip).inum).type ∧
    (s.icache ip).size.toNat = (a.node (a.cache ip).inum).data.length ∧
    (s.icache ip).size.toNat ≤ MAXFILE * BSIZE := by
  obtain ⟨v, c, at_, holds⟩ := rep
  obtain ⟨-, -, -, -, -, covered, -, node⟩ := holds.usable ip usable
  rw [node, at_.cache]
  exact ⟨rfl, (content_length _ _).symm, covered.fits⟩

theorem Rep.writei_refused (file : (a.node (a.cache ip).inum).type ≠ tDev) (src : Nat → UInt8) (off n : UInt32)
    (refuses : Refuses (a.node (a.cache ip).inum).data.length off n) : writei ip src off n s = .ok (-1, s) := by
  obtain ⟨type, size, -⟩ := rep.entry usable
  rw [← size, refuses_iff] at refuses
  rw [writei, bind_ok inodeOf_eq, if_neg (by rwa [type])]
  rcases refuses with outside | long
  · rw [if_pos outside]
    rfl
  · by_cases outside : off > (s.icache ip).size ∨ off + n < off
    · rw [if_pos outside]
      rfl
    · rw [if_neg outside, if_pos long]
      rfl

theorem Rep.writei_written (layout : Layout sb) (file : (a.node (a.cache ip).inum).type ≠ tDev) (src : Nat → UInt8)
    (off n : UInt32) (accepts : ¬ Refuses (a.node (a.cache ip).inum).data.length off n)
    (available : Available sb s ip off.toNat n.toNat) :
    ∃ s' a', writei ip src off n s = .ok ((n.toNat : Int), s') ∧ Rep sb s' a' ∧
      Rewritten a a' (a.cache ip).inum src off.toNat n.toNat := by
  obtain ⟨type, size, fits⟩ := rep.entry usable
  have word : UInt32.ofNat (a.node (a.cache ip).inum).data.length = (s.icache ip).size := by
    rw [← size, UInt32.ofNat_toNat]
  have start : off.toNat ≤ (a.node (a.cache ip).inum).data.length := by
    rw [Refuses] at accepts
    omega
  rw [← size, refuses_iff, not_or] at accepts
  have spec : Spec.writei ip src off n a = .ok (Sys.int n, a.setNode (a.cache ip).inum
      { a.node (a.cache ip).inum with
        data := Spec.splice (a.node (a.cache ip).inum).data off.toNat n.toNat src }) := by
    simp only [Spec.writei, if_pos usable, Spec.writeBytes, if_neg file, word, if_neg accepts.1, if_neg accepts.2]
  have number : Sys.int n = n.toNat := by
    have sum := add_toNat_of_no_wrap off n (not_or.mp accepts.1).2
    have short := accepts.2
    simp only [MAXFILE, NDIRECT, NINDIRECT, BSIZE] at short
    rw [Sys.int_eq, if_pos (by omega)]
  have refined := writei_refines layout ip src off n s a rep (by rw [spec]; simp)
  have total := wp_and _ refined (writei_room layout rep ip usable src off n available)
  cases result : writei ip src off n s with
  | error e => exact (wp_error _ _ result total).2.elim
  | ok r =>
    obtain ⟨x, s'⟩ := r
    obtain ⟨⟨a', same, rep'⟩, -⟩ := wp_ok _ _ _ result total
    rw [spec, number] at same
    obtain ⟨rfl, rfl⟩ := Prod.mk.inj (Except.ok.inj same)
    exact ⟨s', _, rfl, rep', rewritten_splice a _ src _ _ start⟩

theorem Rep.writei_inRange (layout : Layout sb) (src : Nat → UInt8) (off n : UInt32) :
    writei ip src off n s ≠ .error (.panic .bmapOutOfRange) := by
  have spec : Spec.writei ip src off n a = .ok ((Spec.writeBytes (a.node (a.cache ip).inum) src off n).1,
      a.setNode (a.cache ip).inum (Spec.writeBytes (a.node (a.cache ip).inum) src off n).2) := by
    simp only [Spec.writei, if_pos usable]
  intro stops
  have refined := writei_refines layout ip src off n s a rep (by rw [spec]; simp)
  rcases wp_error _ _ stops refined with limit | same
  · simp [fsLink, Stop.Limit] at limit
  · rw [spec] at same
    cases same

theorem Rep.readi_delivers (file : (a.node (a.cache ip).inum).type ≠ tDev) (off n : UInt32) (console : Int) :
    readi ip off n console s = .ok (delivered (a.node (a.cache ip).inum).data off n, s) := by
  obtain ⟨-, size, fits⟩ := rep.entry usable
  obtain ⟨v, c, at_, holds⟩ := rep
  rw [readi_eq at_ holds ip usable off n console, readBytes_delivered _ file (by omega)]

theorem Rep.filled (k : Nat) (inside : k < (a.node (a.cache ip).inum).data.length) :
    ptr s.disk (s.icache ip).toDinode (dataPos (k / BSIZE)) ≠ 0 := by
  obtain ⟨v, c, at_, holds⟩ := rep
  obtain ⟨-, -, inode, -, typed, covered, mapped, node⟩ := holds.usable ip usable
  rw [node, content_length] at inside
  rw [at_.cache, (at_.blockMap inode typed mapped _).2]
  exact covered.filled k inside

theorem Rep.block_lt (q : Pos) : ptr s.disk (s.icache ip).toDinode q < max 1 sb.size := by
  obtain ⟨v, c, at_, holds⟩ := rep
  obtain ⟨-, -, inode, -, typed, -, mapped, -⟩ := holds.usable ip usable
  rw [at_.cache, (at_.blockMap inode typed mapped _).2]
  by_cases none_ : ptr v.blk (c ip).toDinode q = 0
  · rw [none_]
    exact lt_max_of_lt_left one_pos
  · exact lt_max_of_lt_right (mapped.inside _ _ (owner_self inode typed q none_)).1

/-- Every block has a place of its own in the log, those that the log has already too. -/
theorem Rep.writeChunks_few (layout : Layout sb) (src : Nat → UInt8) (off n : Nat) (fits : off + n ≤ MAXFILE * BSIZE)
    (earlier : Finset Nat) (held : ∀ bn ∈ earlier, bn < MAXFILE ∧ ptr s.disk (s.icache ip).toDinode (dataPos bn) ≠ 0 ∧
      ptr s.disk (s.icache ip).toDinode (dataPos bn) ∈ s.log.lh.block)
    (many : LOGSIZE < (earlier ∪ through off n).card) :
    wp (writeChunks ip src (Split.chunks BSIZE off n)) (fun _ _ => False) (fun _ => True) s := by
  obtain ⟨v, c, at_, holds⟩ := rep
  obtain ⟨-, -, inode, -, typed, -, mapped, -⟩ := holds.usable ip usable
  have at_' : At sb s v (setCopy c ip (c ip).toDinode) := by rwa [setCopy_copy]
  have loop := At.writeChunks layout at_' src (fun k => src (k - off)) n off 0 n (by omega) (by omega)
    (fun k _ => by simp) inode typed mapped
  refine wp_mono _ loop ?_ fun _ _ => trivial
  rintro _ s' ⟨v', d', -, wrote, more, logged⟩
  rw [Nat.sub_zero] at wrote logged
  have type := wrote.typed typed
  have owned : ∀ bn ∈ earlier ∪ through off n, bn < MAXFILE ∧ ptr v'.blk d' (dataPos bn) ∈ s'.log.lh.block ∧
      ptr v'.blk d' (dataPos bn) ≠ 0 := by
    intro bn member
    rcases Finset.mem_union.mp member with before | now
    · obtain ⟨small, some_, there⟩ := held bn before
      rw [at_.cache, (at_.blockMap inode typed mapped _).2] at some_ there
      rw [wrote.keeps _ some_]
      exact ⟨small, more there, some_⟩
    · obtain ⟨k, inside, rfl⟩ := Finset.mem_image.mp now
      obtain ⟨low, high⟩ := Finset.mem_Ico.mp inside
      exact ⟨(Nat.div_lt_iff_lt_mul (by decide)).mpr (by omega), logged k low high, wrote.filled k low high⟩
  have few : (earlier ∪ through off n).card ≤ s'.log.lh.block.toFinset.card := by
    refine Finset.card_le_card_of_injOn (fun bn => ptr v'.blk d' (dataPos bn)) ?_ ?_
    · intro bn member
      exact List.mem_toFinset.mpr (owned bn member).2.1
    · intro bn one bm two same
      have same : ptr v'.blk d' (dataPos bn) = ptr v'.blk d' (dataPos bm) := same
      obtain ⟨small, -, some_⟩ := owned bn one
      obtain ⟨small', -, some'⟩ := owned bm two
      have one := owner_self inode type _ some_
      rw [same] at one
      exact dataPos_inj bn bm small small' (Prod.mk.inj (wrote.mapped.once _ _ _ one (owner_self inode type _ some'))).2
  have distinct := s'.log.lh.block.toFinset_card_le
  have room := s'.log.lh.room
  omega

theorem Rep.writei_too_long (layout : Layout sb) (file : (a.node (a.cache ip).inum).type ≠ tDev) (src : Nat → UInt8)
    (off n : UInt32) (accepts : ¬ Refuses (a.node (a.cache ip).inum).data.length off n) (earlier : Finset Nat)
    (held : ∀ bn ∈ earlier, bn < MAXFILE ∧ ptr s.disk (s.icache ip).toDinode (dataPos bn) ≠ 0 ∧
      ptr s.disk (s.icache ip).toDinode (dataPos bn) ∈ s.log.lh.block)
    (many : LOGSIZE < (earlier ∪ through off.toNat n.toNat).card) (r : Int × State) : writei ip src off n s ≠ .ok r := by
  obtain ⟨type, size, -⟩ := rep.entry usable
  have fits : off.toNat + n.toNat ≤ MAXFILE * BSIZE := by
    rw [Refuses] at accepts
    omega
  rw [← size, refuses_iff, not_or] at accepts
  have stuck : wp (writei ip src off n) (fun _ _ => False) (fun _ => True) s := by
    rw [writei, wp_bind_ok inodeOf_eq, if_neg (type ▸ file), if_neg accepts.1, if_neg accepts.2]
    exact wp_seq _ _ (rep.writeChunks_few usable layout src _ _ fits earlier held many) fun _ _ never => never.elim
  intro returns
  exact wp_ok _ _ _ returns stuck

end Usable

theorem le_card_through (m : Nat) : m ≤ (through 0 (m * BSIZE)).card := by
  have all : Finset.range m ⊆ through 0 (m * BSIZE) := by
    intro bn member
    have small := Finset.mem_range.mp member
    refine Finset.mem_image.mpr ⟨BSIZE * bn, Finset.mem_Ico.mpr ⟨Nat.zero_le _, ?_⟩, ?_⟩
    · simp only [BSIZE]
      omega
    · exact Nat.mul_div_cancel_left bn (by decide)
  exact (Finset.card_range m).symm.le.trans (Finset.card_le_card all)

theorem missing_empty (blk : Nat → Block) (d : Dinode) (off n : Nat)
    (filled : ∀ k, off ≤ k → k < off + n → ptr blk d (dataPos (k / BSIZE)) ≠ 0) :
    missing blk d (Split.chunks BSIZE off n) = ∅ := by
  refine Finset.filter_eq_empty_iff.mpr fun q member => ?_
  obtain ⟨c, inside, place⟩ := (mem_wanted _ q).mp member
  obtain ⟨k, low, high, block⟩ := Split.chunks_block BSIZE off n (by decide) c inside
  have there := filled k low high
  rw [← block] at there
  rcases place with rfl | ⟨large, rfl⟩
  · exact there
  · intro zero
    have none : d.addrs (Fin.last NDIRECT) = 0 := by rwa [ptr, ← UInt32.toNat_zero, UInt32.toNat_inj] at zero
    apply there
    rw [dataPos, dif_neg (Nat.not_lt.mpr large), ptr, if_pos none]

theorem rep_log {sb : Superblock} {s : State} {a : Nodes} (rep : Rep sb s a) (log : Log) :
    Rep sb { s with log := log } a := by
  obtain ⟨v, c, at_, holds⟩ := rep
  exact ⟨v, c, ⟨at_.super, at_.shows, at_.cache⟩, holds⟩

/-- Three operations write 6656 bytes each over a file of 39 blocks. When two of them are through their `writei`, the
third one cannot log its blocks, though it needs no new one. -/
theorem third_write_stops : ∃ s a, Layout Mkfs.sb ∧ Rep Mkfs.sb s a ∧ Spec.Usable (a.cache 1) ∧
    (a.node (a.cache 1).inum).type ≠ tDev ∧ (a.node (a.cache 1).inum).data.length = 19968 ∧
    missing s.disk (s.icache 1).toDinode (Split.chunks BSIZE 13312 6656) = ∅ ∧ s.log.outstanding = 3 ∧
    s.log.lh.block = (List.range 26).map (fun bn => ptr s.disk (s.icache 1).toDinode (dataPos bn)) ∧
    ∀ r, writei 1 (fun _ => 7) 13312 6656 s ≠ .ok r := by
  obtain ⟨disk, v, opened⟩ := Mkfs.exists_opened_file (List.replicate 19968 0) (by
    rw [List.length_replicate]
    decide)
  obtain ⟨rep, node, -⟩ := opened 3 true
  set s := Mkfs.opened disk 3 true with hs
  set a := Mkfs.found v s.icache with ha
  have usable : Spec.Usable (a.cache 1) := ⟨one_pos, rfl⟩
  have full : a.node (a.cache 1).inum = ⟨tFile, 0, 0, 1, List.replicate 19968 0⟩ := node
  have length : (a.node (a.cache 1).inum).data.length = 19968 := by rw [full, List.length_replicate]
  have file : (a.node (a.cache 1).inum).type ≠ tDev := by
    rw [full]
    exact show tFile ≠ tDev by decide
  let lh : LogHeader :=
    { block := (List.range 26).map fun bn => ptr s.disk (s.icache 1).toDinode (dataPos bn)
      room := by
        rw [List.length_map, List.length_range]
        decide
      uint := fun b member => by
        obtain ⟨bn, -, rfl⟩ := List.mem_map.mp member
        exact (rep.block_lt usable _).trans (show max 1 Mkfs.sb.size < 2 ^ 32 by decide) }
  have rep' := rep_log rep { s.log with lh := lh }
  have accepts : ¬ Refuses (a.node (a.cache 1).inum).data.length 13312 6656 := by
    rw [length]
    unfold Refuses
    decide
  have there (bn : Nat) (small : bn < 39) : ptr s.disk (s.icache 1).toDinode (dataPos bn) ≠ 0 := by
    have filled := rep.filled usable (bn * BSIZE) (by rw [length]; simp only [BSIZE]; omega)
    rwa [Nat.mul_div_cancel _ (show 0 < BSIZE by decide)] at filled
  have many : LOGSIZE < (Finset.range 26 ∪ through 13312 6656).card := by
    have all : Finset.range 39 ⊆ Finset.range 26 ∪ through 13312 6656 := by
      intro bn member
      have small := Finset.mem_range.mp member
      by_cases first : bn < 26
      · exact Finset.mem_union_left _ (Finset.mem_range.mpr first)
      · refine Finset.mem_union_right _ (Finset.mem_image.mpr ⟨bn * BSIZE, Finset.mem_Ico.mpr ?_, ?_⟩)
        · simp only [BSIZE]
          omega
        · exact Nat.mul_div_cancel _ (by decide)
    have count := Finset.card_le_card all
    rw [Finset.card_range] at count
    exact lt_of_lt_of_le (by decide) count
  refine ⟨_, a, Mkfs.layout, rep', usable, file, length, ?_, rfl, rfl, rep'.writei_too_long usable Mkfs.layout file _ _ _ accepts
    (Finset.range 26) (fun bn member => ?_) many⟩
  · refine missing_empty _ _ 13312 6656 fun k low high => ?_
    exact rep.filled usable k (by rw [length]; omega)
  · have small := Finset.mem_range.mp member
    exact ⟨lt_trans small (by decide), there bn (by omega), List.mem_map_of_mem (List.mem_range.mpr small)⟩

/-- An inode that is not a device is an array of bytes: what a write refuses and what it does, what a read
delivers, and that no block number is out of range. -/
theorem inode_is_byte_array {sb : Superblock} {s : State} {a : Nodes} (layout : Layout sb) (rep : Rep sb s a) (ip : Slot)
    (usable : Spec.Usable (a.cache ip)) (file : (a.node (a.cache ip).inum).type ≠ tDev) (src : Nat → UInt8)
    (off n : UInt32) (console : Int) :
    (Refuses (a.node (a.cache ip).inum).data.length off n → writei ip src off n s = .ok (-1, s)) ∧
    (¬ Refuses (a.node (a.cache ip).inum).data.length off n → Available sb s ip off.toNat n.toNat →
      ∃ s' a', writei ip src off n s = .ok ((n.toNat : Int), s') ∧ Rep sb s' a' ∧
        Rewritten a a' (a.cache ip).inum src off.toNat n.toNat) ∧
    writei ip src off n s ≠ .error (.panic .bmapOutOfRange) ∧
    readi ip off n console s = .ok (delivered (a.node (a.cache ip).inum).data off n, s) :=
  ⟨rep.writei_refused usable file src off n, rep.writei_written usable layout file src off n,
    rep.writei_inRange usable layout src off n, rep.readi_delivers usable file off n console⟩

/-- Five bytes for the empty file of a new image. -/
theorem inode_is_byte_array_five : ∃ s a s' a',
    writei 1 (fun _ => 7) 0 5 s = .ok (5, s') ∧ Rep Mkfs.sb s' a' ∧ Rewritten a a' 2 (fun _ => 7) 0 5 := by
  obtain ⟨disk, v, opened⟩ := Mkfs.exists_opened
  obtain ⟨rep, node, free⟩ := opened 1 true
  have empty : (Mkfs.found v (Mkfs.opened disk 1 true).icache).node 2 = ⟨tFile, 0, 0, 1, []⟩ := node
  have file : ((Mkfs.found v (Mkfs.opened disk 1 true).icache).node 2).type ≠ tDev := by
    rw [empty]
    exact show tFile ≠ tDev by decide
  have accepts : ¬ Refuses ((Mkfs.found v (Mkfs.opened disk 1 true).icache).node 2).data.length 0 5 := by
    rw [empty]
    exact show ¬ Refuses 0 0 5 by unfold Refuses; decide
  have available : Available Mkfs.sb (Mkfs.opened disk 1 true) 1 0 5 := by
    have header : 0 + ((Split.chunks BSIZE 0 5).length + (Mkfs.sb.size / BPB + 1) + 2) + 1 < LOGSIZE := by decide
    refine available_of_few ?_ le_rfl ((Nat.lt_succ_self _).trans header) header
    have few := missing_card_le disk (dinodeAt Mkfs.sb disk 2) (Split.chunks BSIZE 0 5)
    exact (few.trans (by decide)).trans free
  have usable : Spec.Usable ((Mkfs.found v (Mkfs.opened disk 1 true).icache).cache 1) := ⟨one_pos, rfl⟩
  obtain ⟨s', a', written, rest⟩ :=
    (inode_is_byte_array Mkfs.layout rep 1 usable file (fun _ => 7) 0 5 0).2.1 accepts available
  exact ⟨_, _, s', a', written, rest⟩

end Xv6.Fs
