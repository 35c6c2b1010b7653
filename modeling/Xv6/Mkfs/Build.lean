import Xv6.Fs.Names
import Xv6.Mkfs.Image

set_option autoImplicit false

/-!
# What the image contains

The operations of `mkfs` on an image whose inodes are arrays of bytes: a new inode is empty, and
`iappend` puts bytes behind those that are there.
-/

namespace Xv6.Mkfs

open Bytes Fs Prog

/-- The image stands for the inodes `node`. -/
structure Built (s : Image) (v : View) (node : Nat → Node) : Prop where
  during : ∀ i, During s v i (v.ino i)
  nodes : ∀ i, i < NINODES → nodeOf v.blk (v.ino i) = node i
  covered : ∀ i, i < NINODES → (v.ino i).type ≠ 0 → Covered v.blk (v.ino i)
  tight : ∀ i, i < NINODES → (v.ino i).type ≠ 0 → Tight v.blk (v.ino i) (dataBlocks (v.ino i).size.toNat)
  free : ∀ i, s.freeinode ≤ i → i < NINODES → v.ino i = Dinode.zero

section Sectors

theorem iblock_inside (i : Nat) (inode : i < NINODES) : iblock sb i < FSSIZE ∧ iblock sb i ≠ sb.logstart := by
  simp only [iblock, sb, IPB, BSIZE, nlog, LOGSIZE, MAXOPBLOCKS, NINODES, FSSIZE] at *
  omega

variable {s : Image} {v : View} {i : Nat} {d : Dinode}

theorem During.rinode (during : During s v i d) (inode : i < NINODES) :
    wp (rinode i) (fun din s' => din = v.ino i ∧ s' = s) (fun _ => False) s := by
  have inside := (iblock_inside i inode).1
  simp only [Mkfs.rinode, Mkfs.rsect, wp_bind, wp_get, during.length, inside, if_true, wp_pure, and_true]
  exact during.seen.ino i inode

theorem During.winode (during : During s v i d) (inode : i < NINODES) (d' : Dinode)
    (mapped : Mapped sb v (Function.update v.ino i d')) :
    wp (winode i d') (fun _ s' => (∀ j, During s' (v.setIno i d') j ((v.setIno i d').ino j)) ∧
      s'.freeblock = s.freeblock ∧ s'.freeinode = s.freeinode) (fun _ => False) s := by
  obtain ⟨inside, log⟩ := iblock_inside i inode
  simp only [Mkfs.winode, Mkfs.rsect, wsect, wp_bind, wp_get, during.length, inside, if_true, wp_pure, wp_modify]
  refine ⟨fun j => ?_, trivial, trivial⟩
  rw [View.setIno_ino]
  refine ⟨during.seen.write_dinode i d' inode, ?_, during.low, during.high, during.used, during.zeros, ?_, ?_⟩
  · simp only
    omega
  · rw [View.setIno_ino, Function.update_eq_self]
    exact mapped
  · simp only [Function.update_of_ne log.symm]
    exact during.log

end Sectors

section Contents

theorem map_getD_range (p : List UInt8) : (List.range p.length).map (fun k => p.getD k 0) = p := by
  apply List.ext_getElem
  · simp
  · intro k _ inside
    simp [inside]

theorem splice_end (data p : List UInt8) :
    Spec.splice data data.length p.length (fun k => p.getD k 0) = data ++ p := by
  rw [Spec.splice, map_getD_range, List.take_length, List.drop_eq_nil_of_le (by omega), List.append_nil]

theorem tight_congr {blk blk' : Nat → Block} {d d' : Dinode} {m : Nat} (tight : Tight blk d m)
    (same : ∀ q, ptr blk' d' q = ptr blk d q) : Tight blk' d' m :=
  ⟨fun bn small => by rw [same]; exact tight.data bn small, by rw [same]; exact tight.indirect⟩

end Contents

section Operations

variable {s : Image} {v : View} {node : Nat → Node} (built : Built s v node)

include built

theorem Built.update {s' : Image} {v' : View} {i : Nat} {d' : Dinode} (inode : i < NINODES)
    (during : ∀ j, During s' v' j (v'.ino j)) (ino : v'.ino = Function.update v.ino i d')
    (covered : d'.type ≠ 0 → Covered v'.blk d')
    (tight : d'.type ≠ 0 → Tight v'.blk d' (dataBlocks d'.size.toNat)) (counter : s.freeinode ≤ s'.freeinode)
    (taken : i < s'.freeinode)
    (others : ∀ j q x, j ≠ i → owner sb.ninodes v.blk v.ino (j, q) = some x → v'.blk x = v.blk x) :
    Built s' v' (Function.update node i (nodeOf v'.blk d')) := by
  have kept : ∀ j, j < NINODES → j ≠ i → (v.ino j).type ≠ 0 →
      Covered v'.blk (v.ino j) ∧ nodeOf v'.blk (v.ino j) = nodeOf v.blk (v.ino j) := by
    intro j inode' other typed
    exact untouched sb.ninodes v.blk v'.blk v.ino j inode' typed (built.covered j inode' typed)
      fun q x held => others j q x other held
  constructor
  case during => exact during
  case nodes =>
    intro j inode'
    rw [ino, Function.update_apply, Function.update_apply]
    split
    next => rfl
    next other =>
      by_cases typed : (v.ino j).type = 0
      · rw [← built.nodes j inode', nodeOf, nodeOf, if_pos typed, if_pos typed]
      · rw [(kept j inode' other typed).2, built.nodes j inode']
  case covered =>
    intro j inode' typed
    rw [ino] at typed ⊢
    by_cases same : j = i
    · subst same
      rw [Function.update_self] at typed ⊢
      exact covered typed
    · rw [Function.update_of_ne same] at typed ⊢
      exact (kept j inode' same typed).1
  case tight =>
    intro j inode' typed
    rw [ino] at typed ⊢
    by_cases same : j = i
    · subst same
      rw [Function.update_self] at typed ⊢
      exact tight typed
    · rw [Function.update_of_ne same] at typed ⊢
      refine tight_congr (built.tight j inode' typed) fun q => ptr_congr _ _ _ _ fun some_ => ?_
      exact others j .indirect _ same (owner_of_ptr sb.ninodes v.blk v.ino j .indirect inode' typed some_)
  case free =>
    intro j above inode'
    have other : j ≠ i := by omega
    rw [ino, Function.update_of_ne other]
    exact built.free j (by omega) inode'

theorem Built.ialloc (type : Int16) (typed : type ≠ 0) (room : s.freeinode < NINODES) :
    wp (ialloc type) (fun i s' => i = s.freeinode ∧ s'.freeinode = s.freeinode + 1 ∧ s'.freeblock = s.freeblock ∧
      ∃ v', Built s' v' (Function.update node i ⟨type, 0, 0, 1, []⟩)) (fun _ => False) s := by
  set d : Dinode := { Dinode.zero with type := type, nlink := 1 } with hd
  have during := built.during s.freeinode
  have blank : ∀ k, d.addrs k = 0 := fun _ => rfl
  have empty : (v.ino s.freeinode).type = 0 := by rw [built.free _ le_rfl room]; rfl
  have mapped : Mapped sb v (Function.update v.ino s.freeinode d) := by
    have before := during.mapped
    rw [Function.update_eq_self] at before
    rw [Mapped, owner_blank s.freeinode blank empty]
    exact before
  have moved : During { s with freeinode := s.freeinode + 1 } v s.freeinode (v.ino s.freeinode) :=
    ⟨during.seen, during.length, during.low, during.high, during.used, during.zeros, during.mapped, during.log⟩
  simp only [Mkfs.ialloc, newInode, wp_bind, wp_get, wp_set, wp_pure]
  refine wp_post _ (moved.winode room d mapped) ?_
  rintro _ s' ⟨after, blocks, inodes⟩
  have value : nodeOf (v.setIno s.freeinode d).blk d = ⟨type, 0, 0, 1, []⟩ := nodeOf_typed _ d typed
  refine ⟨trivial, inodes, blocks, v.setIno s.freeinode d, ?_⟩
  rw [← value]
  refine built.update room after rfl ?_ ?_ (by simp only at inodes; omega) (by simp only at inodes; omega)
    fun _ _ _ _ _ => rfl
  · intro _
    exact ⟨by simp [hd, Dinode.zero], fun k below => by simp [hd, Dinode.zero] at below⟩
  · intro _
    have none_ : dataBlocks d.size.toNat = 0 := show dataBlocks 0 = 0 by decide
    have zero : ∀ q, ptr v.blk d q = 0 := by
      intro q
      cases q <;> simp [ptr, blank]
    rw [none_]
    exact ⟨fun bn _ => by simp [zero], by simp [zero]⟩

theorem Built.iappend {i : Nat} (inode : i < NINODES) (taken : i < s.freeinode) (typed : (node i).type ≠ 0)
    (p : List UInt8) :
    wp (iappend i p)
      (fun _ s' => s'.freeinode = s.freeinode ∧ (node i).data.length + p.length ≤ MAXFILE * BSIZE ∧
        s'.freeblock = s.freeblock + (need (dataBlocks ((node i).data.length + p.length)) -
          need (dataBlocks (node i).data.length)) ∧
        ∃ v', Built s' v' (Function.update node i { node i with data := (node i).data ++ p }))
      (fun _ => FSSIZE < s.freeblock + (need (dataBlocks ((node i).data.length + p.length)) -
          need (dataBlocks (node i).data.length)) ∨
        MAXFILE * BSIZE < (node i).data.length + p.length) s := by
  have here := built.nodes i inode
  have type : (v.ino i).type ≠ 0 := by
    rw [← nodeOf_type v.blk, here]
    exact typed
  have value := nodeOf_typed v.blk (v.ino i) type
  have covered := built.covered i inode type
  have size : (node i).data.length = (v.ino i).size.toNat := by
    rw [← here, value]
    exact content_length v.blk (v.ino i)
  have data : (node i).data = content v.blk (v.ino i) := by rw [← here, value]
  rw [size]
  refine wp_then _ _ ((built.during i).rinode inode) ?_ fun _ stop => stop.elim
  rintro _ s ⟨rfl, rfl⟩
  have loop := (built.during i).appendChunks inode type (fun k => p.getD k 0)
    (fun k => p.getD (k - (v.ino i).size.toNat) 0) p.length (v.ino i).size.toNat 0 p.length (by omega)
    (by intro k _; simp) (built.tight i inode type) covered.fits
  simp only [Nat.sub_zero] at loop
  refine wp_then _ _ loop ?_ fun _ stop => stop
  rintro d s₁ ⟨same, fits, v₁, during, wrote, tight, blocks⟩
  have word : (UInt32.ofNat ((v.ino i).size.toNat + p.length)).toNat = (v.ino i).size.toNat + p.length := by
    rw [UInt32.toNat_ofNat']
    apply Nat.mod_eq_of_lt
    simp only [MAXFILE, NDIRECT, NINDIRECT, BSIZE, Nat.reduceDiv, Nat.reduceAdd] at fits
    omega
  set d' : Dinode := { d with size := UInt32.ofNat ((v.ino i).size.toNat + p.length) } with hd'
  have mapped : Mapped sb v₁ (Function.update v₁.ino i d') := by
    rw [Mapped, @owner_attrs sb.ninodes v₁.blk v₁.ino d d' i rfl rfl]
    exact during.mapped
  refine wp_mono _ (during.winode inode d' mapped) ?_ fun _ stop => stop.elim
  rintro _ s₂ ⟨after, blocks', inodes'⟩
  refine ⟨inodes'.trans same, fits, blocks'.trans blocks, v₁.setIno i d', ?_⟩
  have types : d'.type = (v.ino i).type := by
    rw [hd', wrote.attrs]
  have written : Covered v₁.blk d' ∧ content v₁.blk d' =
      Spec.splice (content v.blk (v.ino i)) (v.ino i).size.toNat p.length fun k => p.getD k 0 :=
    wrote.content covered le_rfl fits (show d'.addrs = d.addrs from rfl) (by
      simp only [hd', word]
      omega)
  obtain ⟨covered', bytes⟩ := written
  have final : nodeOf (v₁.setIno i d').blk d' = { node i with data := (node i).data ++ p } := by
    rw [View.setIno_blk, nodeOf_typed _ _ (types ▸ type), bytes, data, ← content_length v.blk, splice_end, ← here,
      value, hd', wrote.attrs]
  rw [← final]
  refine built.update inode after ?_ (fun _ => covered') ?_ (by omega) (by omega) ?_
  · rw [View.setIno_ino, wrote.ino]
  · intro _
    simp only [hd', word]
    exact tight_congr tight fun q => ptr_addrs rfl q
  · intro j q x other held
    exact wrote.others j q x other (by rwa [Function.update_eq_self])

end Operations

section Totals

def total (node : Nat → Node) : Nat := ∑ i ∈ Finset.range NINODES, need (dataBlocks (node i).data.length)

theorem total_update (node : Nat → Node) (i : Nat) (x : Node) (inode : i < NINODES) :
    total (Function.update node i x) + need (dataBlocks (node i).data.length) =
      total node + need (dataBlocks x.data.length) := by
  have member := Finset.mem_range.mpr inode
  have moved : (fun j => need (dataBlocks (Function.update node i x j).data.length)) =
      Function.update (fun j => need (dataBlocks (node j).data.length)) i (need (dataBlocks x.data.length)) := by
    funext j
    by_cases same : j = i <;> simp [Function.update, same]
  rw [total, moved, Finset.sum_update_of_mem member, total, ← Finset.add_sum_erase _ _ member,
    Finset.sdiff_singleton_eq_erase]
  omega

theorem total_mono {node node' : Nat → Node} (longer : ∀ i, (node i).data.length ≤ (node' i).data.length) :
    total node ≤ total node' :=
  Finset.sum_le_sum fun i _ => need_mono (dataBlocks_mono (longer i))

end Totals

/-- All blocks that are taken belong to inodes. -/
structure Counted (s : Image) (v : View) (node : Nat → Node) : Prop extends Built s v node where
  blocks : s.freeblock = nmeta + total node

section Counting

variable {s : Image} {v : View} {node : Nat → Node} (counted : Counted s v node)

include counted

theorem Counted.ialloc (type : Int16) (typed : type ≠ 0) (room : s.freeinode < NINODES) :
    wp (ialloc type) (fun i s' => i = s.freeinode ∧ s'.freeinode = s.freeinode + 1 ∧
      ∃ v', Counted s' v' (Function.update node i ⟨type, 0, 0, 1, []⟩)) (fun _ => False) s := by
  refine wp_post _ (counted.toBuilt.ialloc type typed room) ?_
  rintro i s' ⟨rfl, inodes, blocks, v', built⟩
  refine ⟨rfl, inodes, v', built, ?_⟩
  have empty : node s.freeinode = Node.free := by
    rw [← counted.nodes _ room, counted.free _ le_rfl room]
    rfl
  have sum := total_update node s.freeinode ⟨type, 0, 0, 1, []⟩ room
  rw [empty] at sum
  simp only [Node.free] at sum
  rw [blocks, counted.blocks]
  simpa using sum.symm

theorem Counted.iappend {i : Nat} (inode : i < NINODES) (taken : i < s.freeinode) (typed : (node i).type ≠ 0)
    (p : List UInt8) :
    wp (iappend i p)
      (fun _ s' => s'.freeinode = s.freeinode ∧ (node i).data.length + p.length ≤ MAXFILE * BSIZE ∧
        ∃ v', Counted s' v' (Function.update node i { node i with data := (node i).data ++ p }))
      (fun _ => FSSIZE < nmeta + total (Function.update node i { node i with data := (node i).data ++ p }) ∨
        MAXFILE * BSIZE < (node i).data.length + p.length) s := by
  have sum := total_update node i { node i with data := (node i).data ++ p } inode
  have more := @need_mono (dataBlocks (node i).data.length) (dataBlocks ((node i).data.length + p.length))
    (dataBlocks_mono (by omega))
  rw [List.length_append] at sum
  have start := counted.blocks
  refine wp_mono _ (counted.toBuilt.iappend inode taken typed p) ?_ ?_
  · rintro _ s' ⟨inodes, fits, blocks, v', built⟩
    exact ⟨inodes, fits, v', built, by omega⟩
  · rintro _ (full | long)
    · left
      omega
    · exact Or.inr long

theorem Counted.appendReads {i : Nat} (inode : i < NINODES) (taken : i < s.freeinode) (typed : (node i).type ≠ 0)
    (reads : List (List UInt8)) :
    wp (appendReads i reads)
      (fun _ s' => s'.freeinode = s.freeinode ∧
        ∃ v', Counted s' v' (Function.update node i { node i with data := (node i).data ++ reads.flatten }))
      (fun _ => FSSIZE < nmeta + total (Function.update node i { node i with data := (node i).data ++ reads.flatten }) ∨
        MAXFILE * BSIZE < (node i).data.length + reads.flatten.length) s := by
  induction reads generalizing s v node with
  | nil =>
    refine ⟨rfl, v, ?_⟩
    rw [List.flatten_nil, List.append_nil, Function.update_eq_self]
    exact counted
  | cons buf reads ih =>
    refine wp_then _ _ (counted.iappend inode taken typed buf) ?_ ?_
    · rintro _ s₁ ⟨inodes, -, v₁, counted₁⟩
      have rest := ih counted₁ (by omega) (by simpa using typed)
      simp only [Function.update_self, Function.update_idem, List.append_assoc] at rest
      refine wp_mono _ rest ?_ ?_
      · rintro _ s₂ ⟨inodes₂, v₂, counted₂⟩
        exact ⟨inodes₂.trans inodes, v₂, counted₂⟩
      · rintro _ (full | long)
        · exact Or.inl full
        · right
          simp only [List.length_append, List.flatten_cons] at long ⊢
          omega
    · rintro _ (full | long)
      · left
        refine lt_of_lt_of_le full (Nat.add_le_add_left (total_mono fun j => ?_) _)
        by_cases same : j = i
        · subst same
          simp
        · simp [same]
      · right
        simp only [List.length_append, List.flatten_cons]
        omega

end Counting

section Files

theorem dirent_length (inum : Nat) (name : List UInt8) : (dirent inum name).bytes.length = 16 := by
  simp [dirent, Dirent.bytes, strncpy_length]

-- The inodes with one more entry in the root directory, and those with one more file.
def addEntry (node : Nat → Node) (inum : Nat) (name : List UInt8) : Nat → Node :=
  Function.update node ROOTINO { node ROOTINO with data := (node ROOTINO).data ++ (dirent inum name).bytes }

def addNode (node : Nat → Node) (g : Nat) (f : File) : Nat → Node :=
  Function.update (addEntry node g f.name) g ⟨tFile, 0, 0, 1, f.bytes⟩

def addNodes (node : Nat → Node) (g : Nat) : List File → Nat → Node
  | [] => node
  | f :: fs => addNodes (addNode node g f) (g + 1) fs

theorem addEntry_longer (node : Nat → Node) (inum : Nat) (name : List UInt8) (i : Nat) :
    (node i).data.length ≤ (addEntry node inum name i).data.length := by
  unfold addEntry
  by_cases root : i = ROOTINO
  · subst root
    simp
  · rw [Function.update_of_ne root]

theorem addEntry_update (node : Nat → Node) (g : Nat) (x : Node) (inum : Nat) (name : List UInt8)
    (other : g ≠ ROOTINO) :
    addEntry (Function.update node g x) inum name = Function.update (addEntry node inum name) g x := by
  rw [addEntry, addEntry, Function.update_of_ne other.symm, Function.update_comm other]

theorem addNode_longer (node : Nat → Node) (g : Nat) (f : File) (fresh : node g = Node.free) (i : Nat) :
    (node i).data.length ≤ (addNode node g f i).data.length := by
  unfold addNode
  by_cases same : i = g
  · subst same
    simp [fresh, Node.free]
  · rw [Function.update_of_ne same]
    exact addEntry_longer node g f.name i

theorem addNodes_longer (files : List File) (node : Nat → Node) (g : Nat) (above : ROOTINO < g)
    (fresh : ∀ i, g ≤ i → i < NINODES → node i = Node.free) (room : g + files.length ≤ NINODES) (i : Nat) :
    (node i).data.length ≤ (addNodes node g files i).data.length := by
  induction files generalizing node g with
  | nil => exact le_rfl
  | cons f files ih =>
    simp only [List.length_cons] at room
    refine (addNode_longer node g f (fresh g le_rfl (by omega)) i).trans ?_
    refine ih (addNode node g f) (g + 1) (by omega) ?_ (by omega)
    intro j later inside
    have other : j ≠ g ∧ j ≠ ROOTINO := by omega
    rw [addNode, Function.update_of_ne other.1, addEntry, Function.update_of_ne other.2]
    exact fresh j (by omega) inside

/-- Why `mkfs` could not add the files. -/
def Refused (node : Nat → Node) (g : Nat) (files : List File) : Prop :=
  (∃ f ∈ files, slash ∈ f.argv) ∨ (∃ f ∈ files, MAXFILE * BSIZE < f.bytes.length) ∨
    MAXFILE * BSIZE < (node ROOTINO).data.length + 16 * files.length ∨
    FSSIZE < nmeta + total (addNodes node g files)

theorem Built.fresh {s : Image} {v : View} {node : Nat → Node} (built : Built s v node) (i : Nat)
    (above : s.freeinode ≤ i) (inode : i < NINODES) : node i = Node.free := by
  rw [← built.nodes i inode, built.free i above inode]
  rfl

theorem Counted.entry {s : Image} {v : View} {node : Nat → Node} (counted : Counted s v node)
    (taken : ROOTINO < s.freeinode) (root : (node ROOTINO).type ≠ 0) (inum : Nat) (name : List UInt8) :
    wp (Mkfs.iappend ROOTINO (dirent inum name).bytes)
      (fun _ s' => s'.freeinode = s.freeinode ∧ ∃ v', Counted s' v' (addEntry node inum name))
      (fun _ => FSSIZE < nmeta + total (addEntry node inum name) ∨
        MAXFILE * BSIZE < (node ROOTINO).data.length + 16) s := by
  have append := counted.iappend (show ROOTINO < NINODES by decide) taken root (dirent inum name).bytes
  rw [dirent_length] at append
  refine wp_mono _ append ?_ fun _ stop => stop
  rintro _ s' ⟨inodes, -, v', counted'⟩
  exact ⟨inodes, v', counted'⟩

theorem Counted.addFiles {s : Image} {v : View} {node : Nat → Node} (counted : Counted s v node) (files : List File)
    (above : ROOTINO < s.freeinode) (room : s.freeinode + files.length ≤ NINODES)
    (root : (node ROOTINO).type ≠ 0) :
    wp (addFiles files)
      (fun _ s' => s'.freeinode = s.freeinode + files.length ∧
        ∃ v', Counted s' v' (addNodes node s.freeinode files))
      (fun _ => Refused node s.freeinode files) s := by
  induction files generalizing s v node with
  | nil => exact ⟨rfl, v, counted⟩
  | cons f files ih =>
    simp only [List.length_cons] at room
    have other : s.freeinode ≠ ROOTINO := by omega
    have fresh := counted.toBuilt.fresh
    -- What is left of the node numbers is free, so the later files only add to the inodes.
    have later : ∀ i, (addNode node s.freeinode f i).data.length ≤
        (addNodes node s.freeinode (f :: files) i).data.length := by
      refine addNodes_longer files (addNode node s.freeinode f) (s.freeinode + 1) (by omega) ?_ (by omega)
      intro i past inside
      have apart : i ≠ s.freeinode ∧ i ≠ ROOTINO := by omega
      rw [addNode, Function.update_of_ne apart.1, addEntry, Function.update_of_ne apart.2]
      exact fresh i (by omega) inside
    have full : ∀ node', (∀ i, (node' i).data.length ≤ (addNode node s.freeinode f i).data.length) →
        FSSIZE < nmeta + total node' → Refused node s.freeinode (f :: files) := by
      intro node' less more
      exact Or.inr (Or.inr (Or.inr (more.trans_le (Nat.add_le_add_left
        (total_mono fun i => (less i).trans (later i)) _))))
    rw [Mkfs.addFiles]
    split
    next bad => exact Or.inl ⟨f, List.mem_cons_self, bad⟩
    next =>
      refine wp_then _ _ (counted.ialloc tFile (by decide) (by omega)) ?_ fun _ stop => stop.elim
      rintro _ s₁ ⟨rfl, inodes₁, v₁, counted₁⟩
      have entry := counted₁.entry (by omega) (by rwa [Function.update_of_ne other.symm]) s.freeinode f.name
      rw [addEntry_update _ _ _ _ _ other, Function.update_of_ne other.symm] at entry
      refine wp_then _ _ entry ?_ ?_
      · rintro _ s₂ ⟨inodes₂, v₂, counted₂⟩
        have bytes := counted₂.appendReads (i := s.freeinode) (by omega) (by omega)
          (by rw [Function.update_self]; decide) f.reads
        rw [Function.update_idem, Function.update_self, List.nil_append, ← File.bytes] at bytes
        refine wp_then _ _ bytes ?_ ?_
        · rintro _ s₃ ⟨inodes₃, v₃, counted₃⟩
          have counted₃ : Counted s₃ v₃ (addNode node s.freeinode f) := counted₃
          have next : s₃.freeinode = s.freeinode + 1 := by omega
          have rest := ih counted₃ (by omega) (by omega) (by
            rw [addNode, Function.update_of_ne other.symm, addEntry, Function.update_self]
            exact root)
          rw [next] at rest
          refine wp_mono _ rest ?_ ?_
          · rintro _ s₄ ⟨inodes₄, v₄, counted₄⟩
            exact ⟨by simp only [List.length_cons]; omega, v₄, counted₄⟩
          · rintro _ (bad | long | long | more)
            · obtain ⟨h, member, bad⟩ := bad
              exact Or.inl ⟨h, List.mem_cons_of_mem _ member, bad⟩
            · obtain ⟨h, member, long⟩ := long
              exact Or.inr (Or.inl ⟨h, List.mem_cons_of_mem _ member, long⟩)
            · right; right; left
              rw [addNode, Function.update_of_ne other.symm, addEntry, Function.update_self] at long
              simp only [List.length_append, dirent_length, List.length_cons] at long ⊢
              omega
            · exact Or.inr (Or.inr (Or.inr more))
        · rintro _ (more | long)
          · exact full _ (fun _ => le_rfl) more
          · exact Or.inr (Or.inl ⟨f, List.mem_cons_self, by simpa using long⟩)
      · rintro _ (more | long)
        · refine full _ (fun i => ?_) more
          rw [addNode, Function.update_apply, Function.update_apply]
          split
          next => simp
          next => exact le_rfl
        · right; right; left
          simp only [List.length_cons]
          omega

end Files

end Xv6.Mkfs
