import Xv6.Fs.BlockMap

set_option autoImplicit false

/-!
# Contents of inodes

The bytes of an inode, found through its block map, and what the copy loops of `readi` and `writei`
do to them.
-/

namespace Xv6.Fs

open Bytes Prog

def fileByte (blk : Nat → Block) (d : Dinode) (k : Nat) : UInt8 :=
  getByte (blk (ptr blk d (dataPos (k / BSIZE)))) (k % BSIZE)

def content (blk : Nat → Block) (d : Dinode) : List UInt8 :=
  (List.range d.size.toNat).map (fileByte blk d)

/-- The block map covers the size without holes. -/
structure Covered (blk : Nat → Block) (d : Dinode) : Prop where
  fits : d.size.toNat ≤ MAXFILE * BSIZE
  filled : ∀ k, k < d.size.toNat → ptr blk d (dataPos (k / BSIZE)) ≠ 0

theorem dataPos_ne_indirect (bn : Nat) : dataPos bn ≠ .indirect := by
  unfold dataPos
  split <;> simp

theorem dataPos_inj (bn bm : Nat) (small : bn < MAXFILE) (small' : bm < MAXFILE)
    (same : dataPos bn = dataPos bm) : bn = bm := by
  simp only [MAXFILE, NDIRECT, NINDIRECT, BSIZE, Nat.reduceDiv, Nat.reduceAdd] at small small'
  unfold dataPos at same
  simp only [NDIRECT, NINDIRECT, BSIZE, Nat.reduceDiv] at same
  split at same <;> split at same <;> simp at same <;> omega

theorem fileByte_congr (blk blk' : Nat → Block) (d : Dinode) (k : Nat)
    (indirect : ptr blk d .indirect ≠ 0 → blk' (ptr blk d .indirect) = blk (ptr blk d .indirect))
    (data : blk' (ptr blk d (dataPos (k / BSIZE))) = blk (ptr blk d (dataPos (k / BSIZE)))) :
    fileByte blk' d k = fileByte blk d k := by
  rw [fileByte, ptr_congr blk blk' d _ indirect, data, fileByte]

theorem block_lt {off : Nat} (inside : off < MAXFILE * BSIZE) : off / BSIZE < MAXFILE :=
  Nat.div_lt_of_lt_mul (by rwa [Nat.mul_comm])

/-- The bytes from `lo` to `hi` of inode `i` have been stored. Blocks may have been allocated for
them, and nothing else has changed. -/
structure Wrote (sb : Superblock) (i : Nat) (v v' : View) (d d' : Dinode) (lo hi : Nat)
    (f : Nat → UInt8) : Prop where
  ino : v'.ino = v.ino
  mapped : Mapped sb v' (Function.update v'.ino i d')
  attrs : d' = { d with addrs := d'.addrs }
  keeps : ∀ q, ptr v.blk d q ≠ 0 → ptr v'.blk d' q = ptr v.blk d q
  filled : ∀ k, lo ≤ k → k < hi → ptr v'.blk d' (dataPos (k / BSIZE)) ≠ 0
  inside : ∀ k, lo ≤ k → k < hi → fileByte v'.blk d' k = f k
  outside : ∀ k, k < MAXFILE * BSIZE → ¬ (lo ≤ k ∧ k < hi) → ptr v.blk d (dataPos (k / BSIZE)) ≠ 0 →
    fileByte v'.blk d' k = fileByte v.blk d k
  others : ∀ j q x, j ≠ i → owner sb.ninodes v.blk (Function.update v.ino i d) (j, q) = some x →
    v'.blk x = v.blk x
  stable : (∀ k, lo ≤ k → k < hi → ptr v.blk d (dataPos (k / BSIZE)) ≠ 0) → d' = d

section Writing

variable {sb : Superblock} {i : Nat} {v v' v'' : View} {d d' d'' : Dinode} {lo mid hi : Nat}
  {f : Nat → UInt8}

theorem Wrote.typed (wrote : Wrote sb i v v' d d' lo hi f) (typed : d.type ≠ 0) : d'.type ≠ 0 := by
  rw [wrote.attrs]
  exact typed

theorem Wrote.refl (mapped : Mapped sb v (Function.update v.ino i d)) : Wrote sb i v v d d lo lo f where
  ino := rfl
  mapped := mapped
  attrs := rfl
  keeps := fun _ _ => rfl
  filled := by omega
  inside := by omega
  outside := fun _ _ _ _ => rfl
  others := fun _ _ _ _ _ => rfl
  stable := fun _ => rfl

theorem Wrote.owner (wrote : Wrote sb i v v' d d' lo hi f) (j : Nat) (q : Pos) (x : Nat) (other : j ≠ i)
    (held : owner sb.ninodes v.blk (Function.update v.ino i d) (j, q) = some x) :
    owner sb.ninodes v'.blk (Function.update v'.ino i d') (j, q) = some x := by
  have kept : ptr v'.blk (v.ino j) q = ptr v.blk (v.ino j) q := by
    obtain ⟨inode, typed, -, -⟩ := (owner_eq_some_iff ..).mp held
    apply ptr_congr
    intro some_
    have indirect := owner_of_ptr sb.ninodes v.blk (Function.update v.ino i d) j .indirect inode typed
      (by simpa [other] using some_)
    simp only [Function.update_of_ne other] at indirect
    exact wrote.others j .indirect _ other indirect
  rw [owner_eq_some_iff] at held ⊢
  simp only [Function.update_of_ne other, wrote.ino, kept] at held ⊢
  exact held

theorem Wrote.trans (first : Wrote sb i v v' d d' lo mid f) (second : Wrote sb i v' v'' d' d'' mid hi f)
    (low : lo ≤ mid) (high : mid ≤ hi) (fits : hi ≤ MAXFILE * BSIZE) : Wrote sb i v v'' d d'' lo hi f where
  ino := second.ino.trans first.ino
  mapped := second.mapped
  attrs := by rw [second.attrs, first.attrs]
  keeps := by
    intro q some_
    have kept := first.keeps q some_
    rw [second.keeps q (by rwa [kept]), kept]
  filled := by
    intro k above below
    by_cases later : mid ≤ k
    · exact second.filled k later below
    · have some_ := first.filled k above (by omega)
      rwa [second.keeps _ some_]
  inside := by
    intro k above below
    by_cases later : mid ≤ k
    · exact second.inside k later below
    · have some_ := first.filled k above (by omega)
      rw [second.outside k (by omega) (by omega) some_, first.inside k above (by omega)]
  outside := by
    intro k small away some_
    have kept := first.keeps _ some_
    rw [second.outside k small (by omega) (by rwa [kept]), first.outside k small (by omega) some_]
  others := by
    intro j q x other held
    rw [second.others j q x other (first.owner j q x other held), first.others j q x other held]
  stable := by
    intro some_
    have same := first.stable fun k above below => some_ k above (by omega)
    subst same
    apply second.stable
    intro k above below
    rw [first.keeps _ (some_ k (by omega) below)]
    exact some_ k (by omega) below

section Data

variable {bn b : Nat} (grown : Grown sb i v v' d d' (dataPos bn) b) (inode : i < sb.ninodes) (typed : d.type ≠ 0)

include grown inode typed

theorem Grown.data_apart (data : Block) (key : Nat × Pos) (x : Nat) (other : key ≠ (i, dataPos bn))
    (owned : Fs.owner sb.ninodes v'.blk (Function.update v'.ino i d') key = some x) :
    Function.update v'.blk b data x = v'.blk x := by
  apply Function.update_of_ne
  rintro rfl
  exact other (grown.mapped.once _ _ _ owned (grown.target_owner inode typed))

theorem Grown.data_ptr (data : Block) (q : Pos) : ptr (Function.update v'.blk b data) d' q = ptr v'.blk d' q := by
  apply ptr_congr
  intro nonzero
  apply grown.data_apart inode typed data (i, .indirect) _ (by simp [(dataPos_ne_indirect bn).symm])
  apply (owner_eq_some_iff ..).mpr
  simpa using ⟨inode, grown.typed typed, nonzero⟩

theorem Grown.data_mapped (data : Block) : Mapped sb (v'.setBlk b data) (Function.update v'.ino i d') := by
  have apart := grown.data_apart inode typed data
  rw [Mapped]
  simp only [View.setBlk_used, View.setBlk_blk]
  rw [owner_congr]
  · exact grown.mapped
  · exact fun j x owned => apart (j, .indirect) x (by simp [(dataPos_ne_indirect bn).symm]) owned

end Data

theorem Grown.wrote {bn b off len : Nat} (grown : Grown sb i v v' d d' (dataPos bn) b)
    (inode : i < sb.ninodes) (typed : d.type ≠ 0) (small : bn < MAXFILE) (some_ : 0 < len)
    (room : off + len ≤ BSIZE) (src : Nat → UInt8)
    (same : ∀ k, k < len → src k = f (bn * BSIZE + off + k)) :
    Wrote sb i v (v'.setBlk b (putBytes (v'.blk b) off len src)) d d' (bn * BSIZE + off)
      (bn * BSIZE + off + len) f := by
  have apart := grown.data_apart inode typed (putBytes (v'.blk b) off len src)
  have ptrs := grown.data_ptr inode typed (putBytes (v'.blk b) off len src)
  have divide : ∀ k, bn * BSIZE + off ≤ k → k < bn * BSIZE + off + len →
      k / BSIZE = bn ∧ k % BSIZE = k - bn * BSIZE := by
    intro k above below
    simp only [BSIZE] at *
    omega
  constructor
  case ino => exact grown.ino
  case mapped => exact grown.data_mapped inode typed _
  case attrs => exact grown.attrs
  case keeps =>
    intro q nonzero
    simp only [View.setBlk_blk]
    rw [ptrs, grown.keeps q nonzero]
  case filled =>
    intro k above below
    simp only [View.setBlk_blk]
    rw [ptrs, (divide k above below).1, grown.target]
    exact grown.positive
  case inside =>
    intro k above below
    obtain ⟨block, rest⟩ := divide k above below
    simp only [View.setBlk_blk]
    rw [fileByte, ptrs, block, grown.target, Function.update_self, getByte_putBytes, rest,
      if_pos (by omega), same _ (by omega)]
    congr 1
    omega
  case outside =>
    intro k inside away nonzero
    have kept := grown.keeps _ nonzero
    simp only [View.setBlk_blk]
    by_cases block : k / BSIZE = bn
    · -- The block is an old one, so it was not allocated here.
      obtain ⟨rfl, rfl⟩ := grown.stable (by rwa [← block])
      rw [fileByte, ptrs, block, grown.target, Function.update_self, getByte_putBytes, if_neg]
      · rw [fileByte, block, grown.target]
      · have := Nat.div_add_mod k BSIZE
        rw [block] at this
        intro hit
        apply away
        rw [Nat.mul_comm] at this
        omega
    · have number : k / BSIZE < MAXFILE := Nat.div_lt_of_lt_mul (by rwa [Nat.mul_comm])
      have position : ((i, dataPos (k / BSIZE)) : Nat × Pos) ≠ (i, dataPos bn) := by
        intro equal
        exact block (dataPos_inj _ _ number small (Prod.mk.inj equal).2)
      have before : Fs.owner sb.ninodes v.blk (Function.update v.ino i d) (i, dataPos (k / BSIZE)) =
          some (ptr v.blk d (dataPos (k / BSIZE))) := by
        apply (owner_eq_some_iff ..).mpr
        simpa using ⟨inode, typed, nonzero⟩
      rw [fileByte, ptrs, kept, apart _ _ position (grown.owner _ _ before),
        grown.blocks _ _ (by simp [dataPos_ne_indirect]) before, fileByte]
  case others =>
    intro j q x other owned
    have first := grown.blocks (j, q) x (by simp [other]) owned
    rw [← first]
    exact apart (j, q) x (by simp [other]) (grown.owner (j, q) x owned)
  case stable =>
    intro nonzero
    apply (grown.stable ?_).2
    have start := nonzero (bn * BSIZE + off) (le_refl _) (by omega)
    rwa [(divide _ (le_refl _) (by omega)).1] at start

end Writing

section Logged

def Logs {α : Type} (m : M α) : Prop :=
  ∀ s, wp m (fun _ s' => s.log.lh.block ⊆ s'.log.lh.block) (fun _ => True) s

theorem Logs.bind {α β : Type} {m : M α} {f : α → M β} (first : Logs m) (rest : ∀ a, Logs (f a)) :
    Logs (m >>= f) := fun s =>
  wp_seq _ _ (first s) fun a s₁ more => wp_post _ (rest a s₁) fun _ _ more' => List.Subset.trans more more'

theorem logs_pure {α : Type} (a : α) : Logs (pure a) := fun _ => List.Subset.refl _

theorem logs_get : Logs (get : M State) := fun _ => List.Subset.refl _

theorem logs_throw {α : Type} (e : Stop) : Logs (throw e : M α) := fun _ => trivial

theorem logs_setInode (ip : Slot) (f : Inode → Inode) : Logs (setInode ip f) := fun _ => List.Subset.refl _

def logged (s : State) : Finset Nat := s.log.lh.block.toFinset

theorem logWrite_inserts (b : Nat) (data : Block) (s : State) :
    wp (logWrite b data) (fun _ s' => logged s' = insert b (logged s)) (fun _ => True) s := by
  simp only [logWrite, wp_bind, wp_get]
  cases logWriteCheck s.log with
  | error why => trivial
  | ok _ =>
    cases result : Xv6.logWrite s.log b with
    | error why => simp
    | ok log =>
      unfold Xv6.logWrite at result
      split at result
      next member =>
        cases result
        exact (Finset.insert_eq_of_mem (List.mem_toFinset.mpr member)).symm
      next =>
        cases appended : s.log.lh.append b with
        | none => simp [appended] at result
        | some lh =>
          simp only [appended, Except.ok.injEq] at result
          subst result
          simp only [wp_set, logged, LogHeader.append_block _ _ _ appended]
          ext x
          simp

theorem logWrite_logged (b : Nat) (data : Block) (s : State) :
    wp (logWrite b data) (fun _ s' => s.log.lh.block ⊆ s'.log.lh.block ∧ b ∈ s'.log.lh.block) (fun _ => True) s := by
  refine wp_post _ (logWrite_inserts b data s) fun _ s' inserted => ?_
  have member (x : Nat) : x ∈ s'.log.lh.block ↔ x = b ∨ x ∈ s.log.lh.block := by
    simpa [logged] using Finset.ext_iff.mp inserted x
  exact ⟨fun x old => (member x).mpr (.inr old), (member b).mpr (.inl rfl)⟩

theorem logs_logWrite (b : Nat) (data : Block) : Logs (logWrite b data) := fun s =>
  wp_post _ (logWrite_logged b data s) fun _ _ more => more.1

theorem logs_balloc : Logs balloc := by
  refine logs_get.bind fun s => ?_
  split
  next => exact logs_throw _
  next b _ =>
    exact (logs_get.bind fun _ => logs_pure _).bind fun _ =>
      (logs_logWrite _ _).bind fun _ => (logs_logWrite _ _).bind fun _ => logs_pure _

theorem logs_loadAddr (ip : Slot) (k : Fin (NDIRECT + 1)) : Logs (loadAddr ip k) := by
  refine (logs_get.bind fun _ => logs_pure _).bind fun i => ?_
  split
  next => exact logs_balloc.bind fun _ => (logs_setInode _ _).bind fun _ => logs_pure _
  next => exact logs_pure _

theorem logs_bmap (ip : Slot) (bn : Nat) : Logs (bmap ip bn) := by
  unfold bmap
  split
  next => exact logs_loadAddr _ _
  next =>
    split
    next =>
      refine (logs_loadAddr _ _).bind fun ind => (logs_get.bind fun _ => logs_pure _).bind fun a => ?_
      split
      next =>
        exact logs_balloc.bind fun _ => (logs_get.bind fun _ => logs_pure _).bind fun _ =>
          (logs_logWrite _ _).bind fun _ => logs_pure _
      next => exact logs_pure _
    next => exact logs_throw _

end Logged

section Loops

-- The body of the loop of `writei`.
def writeChunk (ip : Slot) (src : Nat → UInt8) (chunk : Split.Chunk) : M Unit := do
  let b ← bmap ip chunk.block
  let data ← bread b
  logWrite b (putBytes data chunk.offset chunk.len fun k => src (chunk.done + k))

theorem writeChunks_cons (ip : Slot) (src : Nat → UInt8) (chunk : Split.Chunk) (chunks : List Split.Chunk) :
    writeChunks ip src (chunk :: chunks) = writeChunk ip src chunk >>= fun _ => writeChunks ip src chunks := by
  simp only [writeChunks, writeChunk, bind_assoc]

variable {sb : Superblock} {s : State} {v : View} {c : Slot → Inode} {ip : Slot} {d : Dinode} (layout : Layout sb)

include layout

theorem At.writeChunk (at_ : At sb s v (setCopy c ip d)) (src f : Nat → UInt8) (off done len : Nat) (some_ : 0 < len)
    (room : off % BSIZE + len ≤ BSIZE) (small : off / BSIZE < MAXFILE)
    (same : ∀ k, k < len → src (done + k) = f (off + k)) (inode : (c ip).inum < sb.ninodes) (typed : d.type ≠ 0)
    (mapped : Mapped sb v (Function.update v.ino (c ip).inum d)) :
    wp (writeChunk ip src ⟨done, off / BSIZE, off % BSIZE, len⟩)
      (fun _ s' => ∃ v' d', At sb s' v' (setCopy c ip d') ∧
        Wrote sb (c ip).inum v v' d d' off (off + len) f ∧ s.log.lh.block ⊆ s'.log.lh.block ∧
        ptr v'.blk d' (dataPos (off / BSIZE)) ∈ s'.log.lh.block) Stop.Limit s := by
  have position : off / BSIZE * BSIZE + off % BSIZE = off := by
    rw [Nat.mul_comm]
    exact Nat.div_add_mod off BSIZE
  refine wp_then _ _ (wp_and _ (at_.bmap layout (off / BSIZE) small (by simpa using inode)
    (by simpa using typed) (by simpa using mapped)) (logs_bmap ip (off / BSIZE) s)) ?_ fun _ stop => stop.1
  rintro b s₁ ⟨⟨v₁, d₁, at₁, grown⟩, more₁⟩
  simp only [setCopy_self, setCopy_setCopy] at at₁ grown
  have plain := (grown.mapped.inside _ _ (grown.target_owner inode typed)).2
  refine wp_seq _ _ (at₁.bread b plain) ?_
  rintro _ s₁ ⟨rfl, rfl⟩
  refine wp_mono _ (wp_and _ (at₁.logWrite_data b _ plain) (logWrite_logged b _ s₁)) ?_ fun _ stop => stop.1
  rintro _ s₂ ⟨at₂, more₂, logged⟩
  have wrote := grown.wrote inode typed small some_ room (fun k => src (done + k)) (by
    intro k below
    rw [same k below, position])
  rw [position] at wrote
  refine ⟨_, d₁, at₂, wrote, List.Subset.trans more₁ more₂, ?_⟩
  rwa [View.setBlk_blk, grown.data_ptr inode typed, grown.target]

-- `left` bytes are to be copied, the next one at `off`. The induction is on the turns of the loop.
theorem At.writeChunks (at_ : At sb s v (setCopy c ip d)) (src f : Nat → UInt8) (fuel off done n : Nat)
    (turns : n - done ≤ fuel) (fits : off + (n - done) ≤ MAXFILE * BSIZE)
    (same : ∀ k, k < n - done → src (done + k) = f (off + k))
    (inode : (c ip).inum < sb.ninodes) (typed : d.type ≠ 0)
    (mapped : Mapped sb v (Function.update v.ino (c ip).inum d)) :
    wp (writeChunks ip src (Split.chunksFrom BSIZE fuel off done n))
      (fun _ s' => ∃ v' d', At sb s' v' (setCopy c ip d') ∧
        Wrote sb (c ip).inum v v' d d' off (off + (n - done)) f ∧ s.log.lh.block ⊆ s'.log.lh.block ∧
        ∀ k, off ≤ k → k < off + (n - done) → ptr v'.blk d' (dataPos (k / BSIZE)) ∈ s'.log.lh.block) Stop.Limit s := by
  induction fuel generalizing s v d off done with
  | zero =>
    have none_ : n - done = 0 := by omega
    rw [none_]
    exact ⟨v, d, at_, Wrote.refl mapped, List.Subset.refl _, by omega⟩
  | succ fuel ih =>
    rw [Split.chunksFrom]
    split
    next more =>
      set len := min (n - done) (BSIZE - off % BSIZE) with hlen
      have room : off % BSIZE < BSIZE := Nat.mod_lt off (by decide)
      have small : off / BSIZE < MAXFILE := block_lt (by omega)
      rw [writeChunks_cons]
      refine wp_seq _ _ (at_.writeChunk layout src f off done len (by omega) (by omega) small
        (fun k below => same k (by omega)) inode typed mapped) ?_
      rintro _ s₁ ⟨v₁, d₁, at₁, first, more₁, logged⟩
      have typed₁ := first.typed typed
      refine wp_post _ (ih at₁ (off + len) (done + len) (by omega) (by omega) (by
        intro k below
        have shifted := same (len + k) (by omega)
        rw [← Nat.add_assoc, ← Nat.add_assoc] at shifted
        exact shifted) typed₁ first.mapped) ?_
      rintro _ s₂ ⟨v₂, d₂, at₂, rest, more₂, later⟩
      have whole : off + len + (n - (done + len)) = off + (n - done) := by omega
      rw [whole] at rest later
      refine ⟨v₂, d₂, at₂, first.trans rest (by omega) (by omega) fits, List.Subset.trans more₁ more₂, fun k low high => ?_⟩
      by_cases here : k < off + len
      · have block : k / BSIZE = off / BSIZE := by
          simp only [BSIZE] at *
          omega
        rw [block, rest.keeps _ (first.filled off le_rfl (by omega))]
        exact more₂ logged
      · exact later k (by omega) high
    next done_ =>
      have none_ : n - done = 0 := by omega
      rw [none_]
      exact ⟨v, d, at_, Wrote.refl mapped, List.Subset.refl _, by omega⟩

end Loops

section Reading

variable {s : State} {ip : Slot}

theorem loadAddr_filled (k : Fin (NDIRECT + 1)) (some_ : (s.icache ip).addrs k ≠ 0) :
    loadAddr ip k s = .ok (((s.icache ip).addrs k).toNat, s) := by
  simp only [loadAddr, inodeOf, bind_assoc, pure_bind]
  rw [bind_ok (show (get : M State) s = .ok (s, s) from rfl), if_neg some_]
  rfl

theorem bmap_filled (bn : Nat) (inside : bn < MAXFILE)
    (some_ : ptr s.disk (s.icache ip).toDinode (dataPos bn) ≠ 0) :
    bmap ip bn s = .ok (ptr s.disk (s.icache ip).toDinode (dataPos bn), s) := by
  unfold bmap
  split
  next direct =>
    rw [dataPos_direct direct] at some_ ⊢
    rw [ofNat_direct direct]
    exact loadAddr_filled _ fun zero => some_ (congrArg UInt32.toNat zero)
  next large =>
    have room := indirect_lt inside large
    rw [dataPos_entry large room] at some_ ⊢
    have indirect : (s.icache ip).addrs (Fin.last NDIRECT) ≠ 0 := fun zero => some_ (by simp [ptr, zero])
    rw [ptr, if_neg indirect] at some_ ⊢
    rw [if_pos room, bind_ok (loadAddr_filled _ indirect),
      bind_ok (show bread _ s = .ok (s.disk _, s) from rfl), if_neg some_]
    rfl

theorem readChunks_filled (fuel off done n : Nat) (turns : n - done ≤ fuel)
    (fits : off + (n - done) ≤ MAXFILE * BSIZE)
    (filled : ∀ k, off ≤ k → k < off + (n - done) →
      ptr s.disk (s.icache ip).toDinode (dataPos (k / BSIZE)) ≠ 0) :
    readChunks ip (Split.chunksFrom BSIZE fuel off done n) s =
      .ok ((List.range (n - done)).map (fun k => fileByte s.disk (s.icache ip).toDinode (off + k)), s) := by
  induction fuel generalizing off done with
  | zero =>
    have none_ : n - done = 0 := by omega
    rw [none_]
    rfl
  | succ fuel ih =>
    rw [Split.chunksFrom]
    split
    next more =>
      set len := min (n - done) (BSIZE - off % BSIZE) with hlen
      have room : off % BSIZE < BSIZE := Nat.mod_lt off (by decide)
      have small : off / BSIZE < MAXFILE := block_lt (by omega)
      have rest := ih (off + len) (done + len) (by omega) (by omega) fun k above below =>
        filled k (by omega) (by omega)
      rw [readChunks, bind_ok (bmap_filled _ small (filled off le_rfl (by omega))),
        bind_ok (show bread _ s = .ok (s.disk _, s) from rfl), bind_ok rest]
      have split : n - done = len + (n - (done + len)) := by omega
      have first : (List.range len).map (fun k => getByte (s.disk (ptr s.disk (s.icache ip).toDinode
          (dataPos (off / BSIZE)))) (off % BSIZE + k)) =
          (List.range len).map fun k => fileByte s.disk (s.icache ip).toDinode (off + k) := by
        refine List.map_congr_left fun k member => ?_
        have below := List.mem_range.mp member
        have number : (off + k) / BSIZE = off / BSIZE ∧ (off + k) % BSIZE = off % BSIZE + k := by
          simp only [BSIZE] at *
          omega
        rw [fileByte, number.1, number.2]
      rw [split, List.range_add, List.map_append, List.map_map, first]
      simp only [Function.comp_def, Nat.add_assoc]
      rfl
    next done_ =>
      have none_ : n - done = 0 := by omega
      rw [none_]
      rfl

theorem At.blockMap {sb : Superblock} {v : View} {c : Slot → Inode} (at_ : At sb s v c)
    (inode : (c ip).inum < sb.ninodes) (typed : (c ip).type ≠ 0)
    (mapped : Mapped sb v (Function.update v.ino (c ip).inum (c ip).toDinode)) (q : Pos) :
    (ptr v.blk (c ip).toDinode q ≠ 0 →
      s.disk (ptr v.blk (c ip).toDinode q) = v.blk (ptr v.blk (c ip).toDinode q)) ∧
    ptr s.disk (c ip).toDinode q = ptr v.blk (c ip).toDinode q := by
  have shown : ∀ q, ptr v.blk (c ip).toDinode q ≠ 0 →
      s.disk (ptr v.blk (c ip).toDinode q) = v.blk (ptr v.blk (c ip).toDinode q) := by
    intro q some_
    have held := owner_of_ptr sb.ninodes v.blk (Function.update v.ino (c ip).inum (c ip).toDinode) (c ip).inum q inode
      (by rwa [Function.update_self]) (by rwa [Function.update_self])
    rw [Function.update_self] at held
    exact at_.shows.blk _ (mapped.inside _ _ held).2
  exact ⟨shown q, ptr_congr _ _ _ _ (shown .indirect)⟩

theorem At.readChunks {sb : Superblock} {v : View} {c : Slot → Inode} (at_ : At sb s v c) (fuel off done n : Nat)
    (turns : n - done ≤ fuel) (fits : off + (n - done) ≤ MAXFILE * BSIZE)
    (filled : ∀ k, off ≤ k → k < off + (n - done) → ptr v.blk (c ip).toDinode (dataPos (k / BSIZE)) ≠ 0)
    (inode : (c ip).inum < sb.ninodes) (typed : (c ip).type ≠ 0)
    (mapped : Mapped sb v (Function.update v.ino (c ip).inum (c ip).toDinode)) :
    Fs.readChunks ip (Split.chunksFrom BSIZE fuel off done n) s =
      .ok ((List.range (n - done)).map (fun k => fileByte v.blk (c ip).toDinode (off + k)), s) := by
  have map := at_.blockMap inode typed mapped
  rw [readChunks_filled fuel off done n turns fits (by
    intro k low high
    rw [at_.cache, (map _).2]
    exact filled k low high), at_.cache]
  congr 2
  refine List.map_congr_left fun k member => fileByte_congr _ _ _ _ (map .indirect).1 ((map _).1 ?_)
  exact filled _ (by omega) (by have := List.mem_range.mp member; omega)

end Reading

end Xv6.Fs
