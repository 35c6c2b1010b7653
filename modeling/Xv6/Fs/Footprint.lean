import Xv6.Fs.FailedWrite

set_option autoImplicit false

/-!
# The blocks that a write logs

Which blocks one call of `writei` passes to `log_write`: the blocks of the data, the blocks of the free
map for those that are new, the indirect block if it gets an entry, and the block of the inode if
the file grows. All of this is fixed by the block map and the free map before the call.
-/

namespace Xv6.Fs

open Bytes Prog

section Log

theorem balloc_inserts (s : State) :
    wp balloc (fun b s' => (List.range s.sb.size).find? (fun b => !bitAt s.sb s.disk b) = some b ∧
      logged s' = insert b (insert (bblock s.sb b) (logged s))) (fun _ => True) s := by
  simp only [balloc, wp_bind, wp_get]
  cases found : (List.range s.sb.size).find? fun b => !bitAt s.sb s.disk b with
  | none => trivial
  | some b =>
    simp only [wp_bind, bread, wp_get, wp_pure]
    refine wp_post _ (logWrite_inserts _ _ s) fun _ s₁ one => ?_
    refine wp_post _ (logWrite_inserts _ _ s₁) fun _ s₂ two => ?_
    exact ⟨trivial, by rw [two, one]⟩

end Log

/-- Free blocks have been taken in order, and these, their parts of the free map and `more` have been logged. -/
structure Takes (sb : Superblock) (s s' : State) (taken : List Nat) (more : Finset Nat) : Prop where
  free : frees sb (bitAt sb s.disk) = taken ++ frees sb (bitAt sb s'.disk)
  logged : logged s' = logged s ∪ (taken.toFinset ∪ taken.toFinset.image (bblock sb)) ∪ more

theorem Grew.taken {sb : Superblock} {i : Nat} {v v' : View} {d d' : Dinode} {taken : List Nat} (grew : Grew sb i v v' d d')
    (free : frees sb v.used = taken ++ frees sb v'.used) (q : Pos) (none_ : ptr v.blk d q = 0)
    (some_ : ptr v'.blk d' q ≠ 0) : ptr v'.blk d' q ∈ taken := by
  obtain ⟨block, before, after⟩ := grew.fresh q none_ some_
  have member : ptr v'.blk d' q ∈ frees sb v.used := (mem_frees _ _).mpr ⟨block, before⟩
  rw [free, List.mem_append] at member
  refine member.resolve_right fun later => ?_
  rw [((mem_frees _ _).mp later).2] at after
  cases after

section Taking

variable {sb : Superblock} {s s' s'' : State} {v : View} {c : Slot → Inode} {ip : Slot} {taken taken' : List Nat}
  {more more' : Finset Nat}

theorem Takes.refl : Takes sb s s [] ∅ := ⟨rfl, by simp⟩

theorem Takes.trans (first : Takes sb s s' taken more) (second : Takes sb s' s'' taken' more') :
    Takes sb s s'' (taken ++ taken') (more ∪ more') := by
  refine ⟨by rw [first.free, second.free, List.append_assoc], ?_⟩
  rw [second.logged, first.logged, List.toFinset_append, Finset.image_union]
  ext x
  simp only [Finset.mem_union]
  tauto

theorem logWrite_takes (at_ : At sb s v c) (b : Nat) (data : Block) (plain : ¬ sb.Meta b) :
    wp (logWrite b data) (fun _ s' => At sb s' (v.setBlk b data) c ∧ Takes sb s s' [] {b}) Stop.Limit s := by
  refine wp_mono _ (wp_and _ (at_.logWrite_data b data plain) (logWrite_inserts b data s)) ?_ fun _ stop => stop.1
  rintro _ s' ⟨after, inserted⟩
  refine ⟨after, ?_, ?_⟩
  · exact (frees_congr _ _ (at_.bits_kept after)).symm
  · rw [inserted]
    ext x
    simp

variable (layout : Layout sb)

include layout

theorem balloc_takes (at_ : At sb s v c) (marked : ∀ b, b < sb.size → sb.Meta b → v.used b = true) :
    wp balloc (fun b s' => (b < sb.size ∧ v.used b = false ∧ At sb s' ((v.mark b true).setBlk b fun _ => 0) c) ∧
      Takes sb s s' [b] ∅) Stop.Limit s := by
  refine wp_mono _ (wp_and _ (at_.balloc layout marked) (balloc_inserts s)) ?_ fun _ stop => stop.1
  rintro b s' ⟨⟨block, unused, after⟩, first, inserted⟩
  rw [at_.super] at first inserted
  refine ⟨⟨block, unused, after⟩, ?_, ?_⟩
  · rw [frees_take _ b first, frees_congr _ _ (at_.bits_taken after)]
    rfl
  · rw [inserted]
    ext x
    simp

theorem loadAddr_takes (at_ : At sb s v c) (k : Fin (NDIRECT + 1))
    (mapped : Mapped sb v (Function.update v.ino (c ip).inum (c ip).toDinode)) :
    wp (loadAddr ip k) (fun b s' => Takes sb s s' (if (c ip).addrs k = 0 then [b] else []) ∅) Stop.Limit s := by
  refine wp_seq _ _ (at_.inodeOf ip) ?_
  rintro _ _ ⟨rfl, rfl⟩
  split
  next =>
    refine wp_seq _ _ (balloc_takes layout at_ mapped.marked) ?_
    rintro b s₁ ⟨-, took⟩
    exact ⟨took.free, took.logged⟩
  next => exact Takes.refl

-- The steps go by the rules of `wp`; to unfold it would evaluate the rest of the program.
attribute [local irreducible] wp

-- The last address of the inode after the call says where the indirect block is.
theorem bmap_takes (at_ : At sb s v c) (bn : Nat) (inside : bn < MAXFILE) (inode : (c ip).inum < sb.ninodes)
    (typed : (c ip).type ≠ 0) (mapped : Mapped sb v (Function.update v.ino (c ip).inum (c ip).toDinode)) :
    wp (bmap ip bn) (fun b s' => ∃ taken, Takes sb s s' taken
        (if NDIRECT ≤ bn ∧ ptr v.blk (c ip).toDinode (dataPos bn) = 0
          then {((s'.icache ip).addrs (Fin.last NDIRECT)).toNat} else ∅) ∧
      ∀ x ∈ taken, x = b ∨ (NDIRECT ≤ bn ∧ x = ((s'.icache ip).addrs (Fin.last NDIRECT)).toNat)) Stop.Limit s := by
  unfold bmap
  split
  next direct =>
    have small : ¬ (NDIRECT ≤ bn ∧ ptr v.blk (c ip).toDinode (dataPos bn) = 0) := by omega
    refine wp_post _ (loadAddr_takes layout at_ (Fin.ofNat (NDIRECT + 1) bn) mapped) fun b s' took => ?_
    rw [if_neg small]
    refine ⟨_, took, fun x member => ?_⟩
    split at member
    next => exact .inl (List.mem_singleton.mp member)
    next => cases member
  next large =>
    have room := indirect_lt inside large
    have position := dataPos_entry large room
    rw [if_pos room]
    refine wp_then _ _ (wp_and _ (at_.loadAddr layout (Fin.last NDIRECT) inode typed mapped)
      (loadAddr_takes layout at_ (Fin.last NDIRECT) mapped)) ?_ fun _ stop => stop.1
    rintro x s₁ ⟨⟨v₁, d₁, at₁, first⟩, took⟩
    rw [addrPos_last] at first
    have typed₁ := first.typed typed
    have held := first.target_owner inode typed
    have plain := (first.mapped.inside _ _ held).2
    have address : (d₁.addrs (Fin.last NDIRECT)).toNat = x := first.target
    have value : ptr v₁.blk d₁ (dataPos bn) = entryAt (v₁.blk x) (bn - NDIRECT) := by
      rw [position]
      exact first.entry_ptr _
    have last : ((s₁.icache ip).addrs (Fin.last NDIRECT)).toNat = x := by
      rw [at₁.cache, setCopy_self]
      exact address
    have new : ∀ y ∈ (if (c ip).addrs (Fin.last NDIRECT) = 0 then [x] else []), y = x := by
      intro y member
      split at member
      next => exact List.mem_singleton.mp member
      next => cases member
    -- The block that has become the indirect block is no entry of it.
    have empty_iff : entryAt (v₁.blk x) (bn - NDIRECT) = 0 ↔ ptr v.blk (c ip).toDinode (dataPos bn) = 0 := by
      rw [← value]
      refine ⟨fun zero => by_contra fun some_ => some_ (by rwa [first.keeps _ some_] at zero), fun zero => ?_⟩
      by_contra some_
      have free := took.free
      rw [frees_congr _ v.used at_.shows.used, frees_congr _ v₁.used at₁.shows.used] at free
      have grew : Grew sb (c ip).inum v v₁ (c ip).toDinode d₁ := ⟨inode, typed, typed₁, mapped, first.mapped, first.owner⟩
      have entry := owner_self inode typed₁ _ some_
      rw [new _ (grew.taken free _ zero some_)] at entry
      exact dataPos_ne_indirect bn (Prod.mk.inj (first.mapped.once _ _ _ entry held)).2
    refine wp_seq _ _ (at₁.bread x plain) ?_
    rintro _ _ ⟨rfl, rfl⟩
    split
    next empty =>
      refine wp_seq _ _ (balloc_takes layout at₁ first.mapped.marked) ?_
      rintro b s₂ ⟨⟨-, -, at₂⟩, took₂⟩
      refine wp_seq _ _ (at₂.bread x plain) ?_
      rintro _ _ ⟨rfl, rfl⟩
      refine wp_seq _ _ (logWrite_takes at₂ x _ plain) ?_
      rintro _ s₃ ⟨at₃, took₃⟩
      have last₃ : ((s₃.icache ip).addrs (Fin.last NDIRECT)).toNat = x := by
        rw [at₃.cache, setCopy_self]
        exact address
      rw [wp_pure, if_pos ⟨Nat.not_lt.mp large, empty_iff.mp empty⟩, last₃]
      have all := (took.trans took₂).trans took₃
      rw [Finset.empty_union, Finset.empty_union, List.append_nil] at all
      refine ⟨_, all, fun y member => ?_⟩
      rcases List.mem_append.mp member with one | two
      · exact .inr ⟨Nat.not_lt.mp large, new y one⟩
      · exact .inl (List.mem_singleton.mp two)
    next some_ =>
      have filled : ¬ (NDIRECT ≤ bn ∧ ptr v.blk (c ip).toDinode (dataPos bn) = 0) :=
        fun both => some_ (empty_iff.mpr both.2)
      rw [wp_pure, if_neg filled]
      exact ⟨_, took, fun y member => .inr ⟨Nat.not_lt.mp large, (new y member).trans last.symm⟩⟩

end Taking

/-- The block at a position of the inode that an entry of the cache has. -/
def blockAt (s : State) (ip : Slot) (q : Pos) : Nat := ptr s.disk (s.icache ip).toDinode q

-- The indirect block, if it has got an entry.
def entered (s s' : State) (ip : Slot) : Finset Nat :=
  if ∃ j, blockAt s ip (.entry j) = 0 ∧ blockAt s' ip (.entry j) ≠ 0 then {blockAt s' ip .indirect} else ∅

/-- Chunks have been stored: their blocks have been logged, and what was taken is at positions that they want. -/
structure Stored (sb : Superblock) (ip : Slot) (s s' : State) (chunks : List Split.Chunk) (taken : List Nat) : Prop where
  takes : Takes sb s s' taken ((chunks.map (·.block)).toFinset.image (fun bn => blockAt s' ip (dataPos bn)) ∪
    entered s s' ip)
  origin : ∀ x ∈ taken, ∃ q ∈ wanted chunks, x = blockAt s' ip q

section Storing

variable {sb : Superblock} {s s' s'' : State} {v : View} {c : Slot → Inode} {ip : Slot} {d : Dinode}
  {taken taken' : List Nat}

theorem entered_trans (first : ∀ q, blockAt s ip q ≠ 0 → blockAt s' ip q = blockAt s ip q)
    (second : ∀ q, blockAt s' ip q ≠ 0 → blockAt s'' ip q = blockAt s' ip q) :
    entered s s'' ip = entered s s' ip ∪ entered s' s'' ip := by
  unfold entered
  by_cases early : ∃ j, blockAt s ip (.entry j) = 0 ∧ blockAt s' ip (.entry j) ≠ 0
  · obtain ⟨j, none_, some_⟩ := early
    have whole : ∃ j, blockAt s ip (.entry j) = 0 ∧ blockAt s'' ip (.entry j) ≠ 0 :=
      ⟨j, none_, by rwa [second _ some_]⟩
    rw [if_pos whole, if_pos ⟨j, none_, some_⟩, second _ (indirect_of_entry _ _ j some_)]
    split <;> simp
  · have late : (∃ j, blockAt s ip (.entry j) = 0 ∧ blockAt s'' ip (.entry j) ≠ 0) ↔
        ∃ j, blockAt s' ip (.entry j) = 0 ∧ blockAt s'' ip (.entry j) ≠ 0 := by
      refine exists_congr fun j => and_congr_left fun _ => ⟨fun none_ => ?_, fun none_ => ?_⟩
      · by_contra some_
        exact early ⟨j, none_, some_⟩
      · by_contra some_
        rw [first _ some_] at none_
        exact some_ none_
    simp only [if_neg early, late, Finset.empty_union]

theorem Stored.refl : Stored sb ip s s [] [] := by
  have none_ : entered s s ip = ∅ := if_neg fun ⟨_, zero, some_⟩ => some_ zero
  refine ⟨?_, fun x member => by cases member⟩
  rw [none_]
  exact Takes.refl

theorem Stored.cons {chunk : Split.Chunk} {chunks : List Split.Chunk} (one : Stored sb ip s s' [chunk] taken)
    (rest : Stored sb ip s' s'' chunks taken') (first : ∀ q, blockAt s ip q ≠ 0 → blockAt s' ip q = blockAt s ip q)
    (second : ∀ q, blockAt s' ip q ≠ 0 → blockAt s'' ip q = blockAt s' ip q)
    (filled : blockAt s' ip (dataPos chunk.block) ≠ 0) : Stored sb ip s s'' (chunk :: chunks) (taken ++ taken') := by
  have kept : ∀ q ∈ wanted [chunk], blockAt s'' ip q = blockAt s' ip q := by
    intro q member
    obtain ⟨c, same, place⟩ := (mem_wanted _ q).mp member
    cases List.mem_singleton.mp same
    rcases place with rfl | ⟨large, rfl⟩
    · exact second _ filled
    · exact second _ (indirect_of_data _ _ _ large filled)
  constructor
  case takes =>
    have both := one.takes.trans rest.takes
    have blocks : ((chunk :: chunks).map (·.block)).toFinset.image (fun bn => blockAt s'' ip (dataPos bn)) =
        {blockAt s' ip (dataPos chunk.block)} ∪
          (chunks.map (·.block)).toFinset.image (fun bn => blockAt s'' ip (dataPos bn)) := by
      rw [List.map_cons, List.toFinset_cons, Finset.image_insert, second _ filled]
      rfl
    have single : ([chunk].map (·.block)).toFinset.image (fun bn => blockAt s' ip (dataPos bn)) =
        {blockAt s' ip (dataPos chunk.block)} := by simp
    rw [single, Finset.union_union_union_comm] at both
    rwa [blocks, entered_trans first second]
  case origin =>
    intro x member
    rcases List.mem_append.mp member with early | late
    · obtain ⟨q, want, same⟩ := one.origin x early
      obtain ⟨c, member', place⟩ := (mem_wanted _ q).mp want
      cases List.mem_singleton.mp member'
      exact ⟨q, (mem_wanted _ q).mpr ⟨chunk, List.mem_cons_self, place⟩, by rw [same, kept q want]⟩
    · obtain ⟨q, want, same⟩ := rest.origin x late
      obtain ⟨c, member', place⟩ := (mem_wanted _ q).mp want
      exact ⟨q, (mem_wanted _ q).mpr ⟨c, List.mem_cons_of_mem _ member', place⟩, same⟩

theorem At.blockAt_eq (at_ : At sb s v (setCopy c ip d)) (inode : (c ip).inum < sb.ninodes) (typed : d.type ≠ 0)
    (mapped : Mapped sb v (Function.update v.ino (c ip).inum d)) (q : Pos) : blockAt s ip q = ptr v.blk d q := by
  have same := (@At.blockMap s ip sb v (setCopy c ip d) at_ (by simpa using inode) (by simpa using typed)
    (by simpa using mapped) q).2
  rw [blockAt, at_.cache, setCopy_self]
  rwa [setCopy_self] at same

variable (layout : Layout sb)

include layout

theorem writeChunk_stores (at_ : At sb s v (setCopy c ip d)) (src : Nat → UInt8) (chunk : Split.Chunk)
    (small : chunk.block < MAXFILE) (inode : (c ip).inum < sb.ninodes) (typed : d.type ≠ 0)
    (mapped : Mapped sb v (Function.update v.ino (c ip).inum d)) :
    wp (writeChunk ip src chunk) (fun _ s' => ∃ taken, Stored sb ip s s' [chunk] taken) Stop.Limit s := by
  have before := at_.blockAt_eq inode typed mapped
  refine wp_then _ _ (wp_and _ (at_.bmap layout chunk.block small (by simpa using inode)
    (by simpa using typed) (by simpa using mapped)) (bmap_takes layout at_ chunk.block small (by simpa using inode)
    (by simpa using typed) (by simpa using mapped))) ?_ fun _ stop => stop.1
  rintro b s₁ ⟨⟨v₁, d₁, at₁, grown⟩, taken, took, new⟩
  simp only [setCopy_self, setCopy_setCopy] at at₁ grown took
  have typed₁ := grown.typed typed
  have held := grown.target_owner inode typed
  have plain := (grown.mapped.inside _ _ held).2
  refine wp_seq _ _ (at₁.bread b plain) ?_
  rintro _ s₁ ⟨rfl, rfl⟩
  refine wp_post _ (logWrite_takes at₁ b _ plain) ?_
  rintro _ s₂ ⟨at₂, took₂⟩
  have middle := at₁.blockAt_eq inode typed₁ grown.mapped
  have after := at₂.blockAt_eq inode typed₁ (grown.data_mapped inode typed _)
  simp only [View.setBlk_blk, grown.data_ptr inode typed] at after
  have last : ((s₁.icache ip).addrs (Fin.last NDIRECT)).toNat = blockAt s₂ ip .indirect := by
    rw [after, ← middle]
    rfl
  have data : blockAt s₂ ip (dataPos chunk.block) = b := by rw [after, grown.target]
  have free := took.free
  rw [frees_congr _ v.used at_.shows.used, frees_congr _ v₁.used at₁.shows.used] at free
  rw [last] at took new
  have grew : Grew sb (c ip).inum v v₁ d d₁ := ⟨inode, typed, typed₁, mapped, grown.mapped, grown.owner⟩
  -- The only entry that can be new is that of the chunk.
  have entry_iff : (∃ j, blockAt s ip (.entry j) = 0 ∧ blockAt s₂ ip (.entry j) ≠ 0) ↔
      NDIRECT ≤ chunk.block ∧ ptr v.blk d (dataPos chunk.block) = 0 := by
    constructor
    · rintro ⟨j, none_, some_⟩
      rw [before] at none_
      rw [after] at some_
      have entry := owner_self inode typed₁ _ some_
      rcases new _ (grew.taken free _ none_ some_) with same | ⟨-, same⟩
      · rw [same] at entry
        have position := (Prod.mk.inj (grown.mapped.once _ _ _ entry held)).2
        refine ⟨?_, by rwa [← position]⟩
        by_contra direct
        rw [dataPos, dif_pos (Nat.not_le.mp direct)] at position
        cases position
      · rw [after] at same
        have block := owner_self inode typed₁ .indirect (same ▸ some_)
        rw [← same] at block
        cases (Prod.mk.inj (grown.mapped.once _ _ _ entry block)).2
    · rintro ⟨large, none_⟩
      have position : dataPos chunk.block = .entry ⟨(chunk.block - NDIRECT) % NINDIRECT, Nat.mod_lt _ (by decide)⟩ := by
        rw [dataPos, dif_neg (Nat.not_lt.mpr large)]
      refine ⟨_, by rw [before, ← position]; exact none_, ?_⟩
      rw [← position, data]
      exact grown.positive
  refine ⟨taken, ?_, ?_⟩
  · have both := took.trans took₂
    rw [List.append_nil] at both
    refine ⟨both.free, ?_⟩
    rw [both.logged, entered]
    simp only [entry_iff, List.map_cons, List.map_nil, List.toFinset_cons, List.toFinset_nil, Finset.image_insert,
      Finset.image_empty, data]
    rw [insert_empty_eq, Finset.union_comm {b}]
  · intro x member
    rcases new x member with rfl | ⟨large, rfl⟩
    · exact ⟨dataPos chunk.block, (mem_wanted _ _).mpr ⟨chunk, List.mem_cons_self, .inl rfl⟩, data.symm⟩
    · exact ⟨.indirect, (mem_wanted _ _).mpr ⟨chunk, List.mem_cons_self, .inr ⟨large, rfl⟩⟩, rfl⟩

theorem writeChunks_stores (at_ : At sb s v (setCopy c ip d)) (src : Nat → UInt8) (fuel off done n : Nat)
    (turns : n - done ≤ fuel) (fits : off + (n - done) ≤ MAXFILE * BSIZE) (inode : (c ip).inum < sb.ninodes)
    (typed : d.type ≠ 0) (mapped : Mapped sb v (Function.update v.ino (c ip).inum d)) :
    wp (writeChunks ip src (Split.chunksFrom BSIZE fuel off done n))
      (fun _ s' => ∃ taken, Stored sb ip s s' (Split.chunksFrom BSIZE fuel off done n) taken) Stop.Limit s := by
  induction fuel generalizing s v d off done with
  | zero => exact ⟨[], Stored.refl⟩
  | succ fuel ih =>
    rw [Split.chunksFrom]
    split
    next more =>
      set len := min (n - done) (BSIZE - off % BSIZE) with hlen
      have room : off % BSIZE < BSIZE := Nat.mod_lt off (by decide)
      have small : off / BSIZE < MAXFILE := block_lt (by omega)
      rw [writeChunks_cons]
      refine wp_then _ _ (wp_and _ (at_.writeChunk layout src (fun k => src (done + (k - off))) off done
        len (by omega) (by omega) small (fun k _ => by simp) inode typed mapped)
        (writeChunk_stores layout at_ src ⟨done, off / BSIZE, off % BSIZE, len⟩ small inode typed mapped)) ?_
        fun _ stop => stop.1
      rintro _ s₁ ⟨⟨v₁, d₁, at₁, first, -, -⟩, taken, one⟩
      have typed₁ := first.typed typed
      refine wp_mono _ (wp_and _ (at₁.writeChunks layout src (fun k => src (done + len + (k - (off + len)))) fuel
        (off + len) (done + len) n (by omega) (by omega) (fun k _ => by simp) inode typed₁ first.mapped)
        (ih at₁ (off + len) (done + len) (by omega) (by omega) typed₁ first.mapped)) ?_ fun _ stop => stop.1
      rintro _ s₂ ⟨⟨v₂, d₂, at₂, rest, -, -⟩, taken', others⟩
      have typed₂ := rest.typed typed₁
      have p₀ := at_.blockAt_eq inode typed mapped
      have p₁ := at₁.blockAt_eq inode typed₁ first.mapped
      have p₂ := at₂.blockAt_eq inode typed₂ rest.mapped
      refine ⟨_, one.cons others (fun q some_ => ?_) (fun q some_ => ?_) ?_⟩
      · rw [p₀] at some_ ⊢
        rw [p₁, first.keeps q some_]
      · rw [p₁] at some_ ⊢
        rw [p₂, rest.keeps q some_]
      · rw [p₁]
        exact first.filled off le_rfl (by omega)
    next => exact ⟨[], Stored.refl⟩

end Storing

/-- The blocks that a write of `n` bytes at `off` logs: those of the data, the indirect block if it gets an entry, the
parts of the free map for the blocks that are taken, and the block of the inode if the file grows. -/
def logsBlocks (sb : Superblock) (disk : Disk) (d : Dinode) (off n : Nat) : Nat :=
  (through off n).card + (if ∃ bn ∈ through off n, NDIRECT ≤ bn ∧ ptr disk d (dataPos bn) = 0 then 1 else 0) +
    (((frees sb (bitAt sb disk)).take (missing disk d (Split.chunks BSIZE off n)).card).toFinset.image (bblock sb)).card +
    if d.size.toNat < off + n then 1 else 0

section Count

variable {sb : Superblock} {i off n : Nat} {v v' : View} {d d' : Dinode} {f : Nat → UInt8} {s s' : State} {ip : Slot}
  {taken : List Nat} (mapped : Mapped sb v (Function.update v.ino i d)) (wrote : Wrote sb i v v' d d' off (off + n) f)
  (inode : i < sb.ninodes) (typed : d.type ≠ 0) (before : ∀ q, blockAt s ip q = ptr v.blk d q)
  (after : ∀ q, blockAt s' ip q = ptr v'.blk d' q) (free : frees sb v.used = taken ++ frees sb v'.used)
  (stored : Stored sb ip s s' (Split.chunks BSIZE off n) taken)

include wrote inode typed

theorem Wrote.ptr_inj (q r : Pos) (some_ : ptr v'.blk d' q ≠ 0) (same : ptr v'.blk d' q = ptr v'.blk d' r) : q = r := by
  have type := wrote.typed typed
  have one := owner_self inode type q some_
  have two := owner_self inode type r (same ▸ some_)
  rw [← same] at two
  exact (Prod.mk.inj (wrote.mapped.once _ _ _ one two)).2

omit inode typed in
theorem Wrote.wanted_filled (q : Pos) (want : q ∈ wanted (Split.chunks BSIZE off n)) : ptr v'.blk d' q ≠ 0 := by
  obtain ⟨c, member, place⟩ := (mem_wanted _ q).mp want
  obtain ⟨k, low, high, block⟩ := Split.chunks_block BSIZE off n (by decide) c member
  have there := wrote.filled k low high
  rw [← block] at there
  rcases place with rfl | ⟨large, rfl⟩
  · exact there
  · exact indirect_of_data _ _ _ large there

include mapped after free stored

theorem Stored.taken_eq : taken.toFinset = (missing v.blk d (Split.chunks BSIZE off n)).image (ptr v'.blk d') := by
  ext x
  rw [List.mem_toFinset, Finset.mem_image]
  constructor
  · intro member
    obtain ⟨q, want, rfl⟩ := stored.origin x member
    rw [after] at member ⊢
    refine ⟨q, Finset.mem_filter.mpr ⟨want, ?_⟩, rfl⟩
    by_contra some_
    have used := mapped.used_of_own _ _ (owner_self inode typed q some_)
    have unused := ((mem_frees _ _).mp (free ▸ List.mem_append_left _ member)).2
    rw [wrote.keeps q some_, used] at unused
    cases unused
  · rintro ⟨q, member, rfl⟩
    obtain ⟨want, none_⟩ := Finset.mem_filter.mp member
    exact (wrote.grew inode typed mapped).taken free q none_ (wrote.wanted_filled q want)

theorem Stored.taken_take : taken = (frees sb v.used).take (missing v.blk d (Split.chunks BSIZE off n)).card := by
  have nodup : taken.Nodup := by
    have all : (frees sb v.used).Nodup := frees_nodup _
    rw [free] at all
    exact (List.nodup_append.mp all).1
  have count : (missing v.blk d (Split.chunks BSIZE off n)).card = taken.length := by
    rw [← List.toFinset_card_of_nodup nodup, stored.taken_eq mapped wrote inode typed after free]
    refine (Finset.card_image_of_injOn fun q member r _ same => ?_).symm
    exact wrote.ptr_inj inode typed q r (wrote.wanted_filled q (Finset.mem_filter.mp member).1) same
  rw [count, free, List.take_left]

include before

theorem Stored.entered_eq : entered s s' ip =
    if ∃ bn ∈ through off n, NDIRECT ≤ bn ∧ ptr v.blk d (dataPos bn) = 0 then {ptr v'.blk d' .indirect} else ∅ := by
  have same : (∃ j, blockAt s ip (.entry j) = 0 ∧ blockAt s' ip (.entry j) ≠ 0) ↔
      ∃ bn ∈ through off n, NDIRECT ≤ bn ∧ ptr v.blk d (dataPos bn) = 0 := by
    constructor
    · rintro ⟨j, none_, some_⟩
      rw [before] at none_
      rw [after] at some_
      have member := (wrote.grew inode typed mapped).taken free _ none_ some_
      obtain ⟨q, want, same⟩ := stored.origin _ member
      rw [after] at same
      cases wrote.ptr_inj inode typed _ q some_ same
      obtain ⟨c, inside, place⟩ := (mem_wanted _ _).mp want
      obtain ⟨k, low, high, block⟩ := Split.chunks_block BSIZE off n (by decide) c inside
      rcases place with position | ⟨-, position⟩
      · refine ⟨c.block, Finset.mem_image.mpr ⟨k, Finset.mem_Ico.mpr ⟨low, high⟩, block.symm⟩, ?_, by rwa [← position]⟩
        by_contra direct
        rw [dataPos, dif_pos (Nat.not_le.mp direct)] at position
        cases position
      · cases position
    · rintro ⟨bn, member, large, none_⟩
      obtain ⟨k, inside, rfl⟩ := Finset.mem_image.mp member
      obtain ⟨low, high⟩ := Finset.mem_Ico.mp inside
      have some_ := wrote.filled k low high
      have position : dataPos (k / BSIZE) = .entry ⟨(k / BSIZE - NDIRECT) % NINDIRECT, Nat.mod_lt _ (by decide)⟩ := by
        rw [dataPos, dif_neg (Nat.not_lt.mpr large)]
      rw [position] at none_ some_
      exact ⟨_, by rwa [before], by rwa [after]⟩
  rw [entered, after]
  simp only [same]

theorem Stored.logged_eq (fits : off + n ≤ MAXFILE * BSIZE) : ∃ blocks : Finset Nat, logged s' = logged s ∪ blocks ∧
    (∀ b ∈ blocks, sb.Meta b → sb.Bitmap b) ∧
    blocks.card = (through off n).card +
      (if ∃ bn ∈ through off n, NDIRECT ≤ bn ∧ ptr v.blk d (dataPos bn) = 0 then 1 else 0) +
      (taken.toFinset.image (bblock sb)).card := by
  have filled : ∀ bn ∈ through off n, bn < MAXFILE ∧ ptr v'.blk d' (dataPos bn) ≠ 0 := by
    intro bn member
    obtain ⟨k, inside, rfl⟩ := Finset.mem_image.mp member
    obtain ⟨low, high⟩ := Finset.mem_Ico.mp inside
    exact ⟨(Nat.div_lt_iff_lt_mul (by decide)).mpr (by omega), wrote.filled k low high⟩
  have plain : ∀ q, ptr v'.blk d' q ≠ 0 → ¬ sb.Meta (ptr v'.blk d' q) :=
    fun q some_ => (wrote.mapped.inside _ _ (owner_self inode (wrote.typed typed) q some_)).2
  obtain ⟨data, hdata⟩ : ∃ data, data = (through off n).image fun bn => ptr v'.blk d' (dataPos bn) := ⟨_, rfl⟩
  obtain ⟨map, hmap⟩ : ∃ map, map = taken.toFinset.image (bblock sb) := ⟨_, rfl⟩
  obtain ⟨entry, entries⟩ : ∃ entry, entry = entered s s' ip := ⟨_, rfl⟩
  have logs : logged s' = logged s ∪ (taken.toFinset ∪ map) ∪ (data ∪ entry) := by
    rw [stored.takes.logged, Split.chunks_blocks BSIZE off n (by decide)]
    simp only [after, hdata, hmap, entries, through]
  rw [stored.entered_eq mapped wrote inode typed before after free] at entries
  have inside : ∀ b ∈ data ∪ entry, ¬ sb.Meta b := by
    intro b member
    rcases Finset.mem_union.mp member with one | two
    · rw [hdata] at one
      obtain ⟨bn, through_, rfl⟩ := Finset.mem_image.mp one
      exact plain _ (filled bn through_).2
    · rw [entries] at two
      split at two
      next some_ =>
        obtain ⟨bn, through_, large, -⟩ := some_
        rw [Finset.mem_singleton.mp two]
        exact plain _ (indirect_of_data _ _ _ large (filled bn through_).2)
      next => cases two
  have bitmap : ∀ b ∈ map, sb.Bitmap b := by
    intro b member
    rw [hmap] at member
    obtain ⟨x, taken_, rfl⟩ := Finset.mem_image.mp member
    have known := (mem_frees v.used x).mp (by
      rw [free]
      exact List.mem_append_left _ (List.mem_toFinset.mp taken_))
    exact bblock_bitmap x known.1
  have covered : taken.toFinset ⊆ data ∪ entry := by
    rw [stored.taken_eq mapped wrote inode typed after free]
    intro x member
    obtain ⟨q, missed, rfl⟩ := Finset.mem_image.mp member
    obtain ⟨want, none_⟩ := Finset.mem_filter.mp missed
    obtain ⟨c, chunk, place⟩ := (mem_wanted _ q).mp want
    obtain ⟨k, low, high, block⟩ := Split.chunks_block BSIZE off n (by decide) c chunk
    have through_ : c.block ∈ through off n :=
      Finset.mem_image.mpr ⟨k, Finset.mem_Ico.mpr ⟨low, high⟩, block.symm⟩
    rcases place with rfl | ⟨large, rfl⟩
    · refine Finset.mem_union_left _ ?_
      rw [hdata]
      exact Finset.mem_image.mpr ⟨c.block, through_, rfl⟩
    · have none' : ptr v.blk d (dataPos c.block) = 0 :=
        by_contra fun some_ => indirect_of_data _ _ _ large some_ none_
      rw [entries, if_pos ⟨c.block, through_, large, none'⟩]
      exact Finset.mem_union_right _ (Finset.mem_singleton_self _)
  refine ⟨(data ∪ entry) ∪ map, ?_, ?_, ?_⟩
  · rw [logs, Finset.union_assoc, Finset.union_comm (taken.toFinset ∪ map), ← Finset.union_assoc (data ∪ _),
      Finset.union_eq_left.mpr covered]
  · intro b member reserved
    rcases Finset.mem_union.mp member with one | two
    · exact absurd reserved (inside b one)
    · exact bitmap b two
  · have apart : Disjoint (data ∪ entry) map := by
      refine Finset.disjoint_left.mpr fun b one two => inside b one ?_
      exact .inr (.inr (.inr (.inr (bitmap b two))))
    have other : Disjoint data (entry) := by
      rw [entries]
      split
      next =>
        refine Finset.disjoint_singleton_right.mpr fun member => ?_
        rw [hdata] at member
        obtain ⟨bn, through_, same⟩ := Finset.mem_image.mp member
        exact dataPos_ne_indirect bn (wrote.ptr_inj inode typed _ _ (filled bn through_).2 same)
      next => exact Finset.disjoint_empty_right _
    have number : data.card = (through off n).card := by
      rw [hdata]
      refine Finset.card_image_of_injOn fun bn one bm two same => ?_
      have position := wrote.ptr_inj inode typed _ _ (filled bn one).2 same
      exact dataPos_inj bn bm (filled bn one).1 (filled bm two).1 position
    rw [Finset.card_union_of_disjoint apart, Finset.card_union_of_disjoint other, number, entries,
      apply_ite Finset.card, Finset.card_singleton, Finset.card_empty, hmap]

end Count

section Write

variable {sb : Superblock} {s : State} {a : Nodes} {ip : Slot}

theorem Rep.writei_logs (layout : Layout sb) (rep : Rep sb s a) (usable : Spec.Usable (a.cache ip))
    (file : (s.icache ip).type ≠ tDev) (src : Nat → UInt8) (off n : UInt32)
    (accepts : ¬ Refuses (s.icache ip).size.toNat off n) :
    wp (writei ip src off n) (fun _ s' => ∃ blocks : Finset Nat, logged s' = logged s ∪ blocks ∧
      blocks.card = logsBlocks sb s.disk (s.icache ip).toDinode off.toNat n.toNat) (fun _ => True) s := by
  obtain ⟨v, c, at_, holds⟩ := rep
  obtain ⟨-, -, inode, -, typed, -, mapped, -⟩ := holds.usable ip usable
  have at_' : At sb s v (setCopy c ip (c ip).toDinode) := by rwa [setCopy_copy]
  have before := at_'.blockAt_eq inode typed mapped
  have fits : off.toNat + n.toNat ≤ MAXFILE * BSIZE := by
    rw [Refuses] at accepts
    omega
  have sum : (off + n).toNat = off.toNat + n.toNat := by
    rw [Refuses] at accepts
    rw [UInt32.toNat_add]
    omega
  have map : ∀ q, ptr s.disk (c ip).toDinode q = ptr v.blk (c ip).toDinode q := by
    intro q
    rw [← before q, blockAt, at_.cache]
  have count : logsBlocks sb s.disk (c ip).toDinode off.toNat n.toNat = (through off.toNat n.toNat).card +
      (if ∃ bn ∈ through off.toNat n.toNat, NDIRECT ≤ bn ∧ ptr v.blk (c ip).toDinode (dataPos bn) = 0 then 1 else 0) +
      (((frees sb v.used).take (missing v.blk (c ip).toDinode
        (Split.chunks BSIZE off.toNat n.toNat)).card).toFinset.image (bblock sb)).card +
      if (c ip).size.toNat < off.toNat + n.toNat then 1 else 0 := by
    simp only [logsBlocks, missing, map, frees_congr _ v.used at_.shows.used]
  have grows : (n > 0 ∧ off + n > (c ip).size) ↔ (c ip).size.toNat < off.toNat + n.toNat := by
    rw [at_.cache] at accepts
    rw [Refuses] at accepts
    rw [gt_iff_lt, gt_iff_lt, UInt32.lt_iff_toNat_lt, UInt32.lt_iff_toNat_lt, sum, UInt32.toNat_zero]
    omega
  rw [refuses_iff, not_or] at accepts
  rw [at_.cache] at accepts file ⊢
  rw [writei, wp_bind_ok inodeOf_eq, at_.cache, if_neg file, if_neg accepts.1, if_neg accepts.2]
  refine wp_then _ _ (wp_and _ (at_'.writeChunks layout src (fun k => src (k - off.toNat)) n.toNat
    off.toNat 0 n.toNat (by omega) (by omega) (fun k _ => by simp) inode typed mapped)
    (writeChunks_stores layout at_' src n.toNat off.toNat 0 n.toNat (by omega) (by omega) inode typed mapped)) ?_
    fun _ _ => trivial
  rintro _ s₁ ⟨⟨v₁, d₁, at₁, wrote, -, -⟩, taken, stored⟩
  rw [Nat.sub_zero] at wrote
  have typed₁ := wrote.typed typed
  have after := at₁.blockAt_eq inode typed₁ wrote.mapped
  have free := stored.takes.free
  rw [frees_congr _ v.used at_.shows.used, frees_congr _ v₁.used at₁.shows.used] at free
  obtain ⟨blocks, logs, kind, number⟩ := stored.logged_eq mapped wrote inode typed before after free fits
  have listed := stored.taken_take mapped wrote inode typed after free
  rw [listed] at number
  split
  next more =>
    have region := iblock_inodes (c ip).inum inode
    have fresh : iblock sb (c ip).inum ∉ blocks := fun member =>
      layout.inodes_ne_bitmap _ _ region (kind _ member (.inr (.inr (.inr (.inl region))))) rfl
    simp only [wp_bind, setInode, wp_modify, iupdate, wp_get, inodeOf, bread, wp_pure, at₁.super, at₁.cache, setCopy_self,
      Function.update_self]
    refine wp_post _ (logWrite_inserts (iblock sb (c ip).inum) _ _) fun _ s₂ inserted => ?_
    refine ⟨insert (iblock sb (c ip).inum) blocks, ?_, ?_⟩
    · rw [inserted, Finset.union_insert, ← logs]
      rfl
    · rw [Finset.card_insert_of_notMem fresh, number, count, if_pos (grows.mp more)]
  next same =>
    exact ⟨blocks, logs, by rw [number, count, if_neg (fun grown => same (grows.mpr grown)), Nat.add_zero]⟩

end Write

end Xv6.Fs
