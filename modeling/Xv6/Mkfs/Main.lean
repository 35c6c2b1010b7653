import Xv6.Mkfs.Build

set_option autoImplicit false

/-!
# The image of a list of files

The stages of `main`: an empty image, the root directory, the files, the size of the root directory
rounded up, and the free map. What is on the image at the end follows from what the inodes contain.
-/

namespace Xv6.Mkfs

open Bytes Fs Prog

section Empty

theorem getLE_zeros {n : Nat} (off w : Nat) : getLE (fun _ => 0 : Buf n) off w = 0 := by
  induction w generalizing off with
  | zero => rfl
  | succ w ih => simp [getLE, getByte, ih]

theorem getDinode_zeros (k : Nat) : getDinode (fun _ => 0) k = Dinode.zero := by
  simp [getDinode, getShort, getUint, getLE_zeros, Dinode.zero]

theorem readsb_superBytes : readsb (Function.update (fun _ _ => 0) 1 superBytes) = sb := by
  simp only [readsb, Function.update_self]
  decide +kernel

theorem zeroSectors_spec (is : List Nat) (s : Image) (zeros : s.disk = fun _ _ => 0) :
    wp (zeroSectors is)
      (fun _ s' => s'.disk = s.disk ∧ s'.freeinode = s.freeinode ∧ s'.freeblock = s.freeblock ∧
        s.length ≤ s'.length ∧ (∀ i ∈ is, i < s'.length) ∧
        ∀ n, s.length ≤ n → (∀ i ∈ is, i < n) → s'.length ≤ n) (fun _ => False) s := by
  induction is generalizing s with
  | nil => exact ⟨rfl, rfl, rfl, le_rfl, by simp, fun n bound _ => bound⟩
  | cons i is ih =>
    have same : Function.update s.disk i (fun _ => 0) = s.disk := by
      rw [zeros]
      exact Function.update_eq_self i _
    simp only [zeroSectors, wsect, wp_bind, wp_modify]
    refine wp_post _ (ih _ (by rw [same, zeros])) ?_
    rintro _ s' ⟨disk, inodes, blocks, more, all, least⟩
    simp only at more least
    refine ⟨disk.trans same, inodes, blocks, by omega, ?_, fun n bound inside => ?_⟩
    · intro j member
      rcases List.mem_cons.mp member with rfl | later
      · omega
      · exact all j later
    · have first := inside i List.mem_cons_self
      exact least n (by omega) fun j later => inside j (List.mem_cons_of_mem _ later)

/-- Nothing is in the image but the superblock. -/
def blank : View := ⟨fun _ => Dinode.zero, fun b => decide (b < nmeta), fun _ _ => 0⟩

theorem nobody (key : Nat × Pos) : owner sb.ninodes blank.blk blank.ino key = none := by
  simp [owner, blank, Dinode.zero]

theorem mapped_blank : Mapped sb blank blank.ino := by
  constructor
  case inside => simp [nobody]
  case once => simp [nobody]
  case used_iff =>
    intro b _
    simp only [nobody, reduceCtorEq, exists_false, or_false, meta_iff]
    exact decide_eq_true_iff

theorem seen_blank : Seen (Function.update (fun _ _ => 0) 1 superBytes) blank := by
  refine ⟨readsb_superBytes, fun i inode => ?_, fun _ _ => rfl, fun b plain => ?_⟩
  · have other := layout.inodes_ne_one _ (iblock_inodes i inode)
    rw [dinodeAt, Function.update_of_ne other, getDinode_zeros]
    rfl
  · rw [Function.update_of_ne (data_ne_one b plain)]
    rfl

def noFiles : Nat → Node := fun _ => Node.free

theorem total_noFiles : total noFiles = 0 := by
  simp [total, noFiles, Node.free, dataBlocks, need, BSIZE]

theorem counted_start (s : Image) (disk : s.disk = fun _ _ => 0) (length : s.length = FSSIZE)
    (blocks : s.freeblock = nmeta) :
    wp (wsect 1 superBytes) (fun _ s' => s'.freeinode = s.freeinode ∧ Counted s' blank noFiles) (fun _ => False)
      s := by
  simp only [wsect, wp_modify, disk, length]
  refine ⟨trivial, ⟨fun i => ?_, fun _ _ => rfl, ?_, ?_, fun _ _ _ => rfl⟩, ?_⟩
  · rw [show blank.ino i = Dinode.zero from rfl]
    constructor
    case seen => exact seen_blank
    case length => exact max_eq_left (by decide)
    case low => exact blocks.ge
    case high => simp only [blocks]; decide
    case used => intro b; simp only [blocks]; rfl
    case zeros => exact fun _ _ => rfl
    case mapped =>
      rw [show Function.update blank.ino i Dinode.zero = blank.ino from Function.update_eq_self i _]
      exact mapped_blank
    case log =>
      have other : sb.logstart ≠ 1 := by decide
      simp only [Function.update_of_ne other]
  · intro i _ typed
    exact absurd rfl typed
  · intro i _ typed
    exact absurd rfl typed
  · rw [total_noFiles]
    exact blocks

end Empty

section Root

def rootOnly : Nat → Node :=
  addEntry (addEntry (Function.update noFiles ROOTINO ⟨tDir, 0, 0, 1, []⟩) ROOTINO dot) ROOTINO dotdot

theorem total_root : nmeta + total (addEntry (Function.update noFiles ROOTINO ⟨tDir, 0, 0, 1, []⟩) ROOTINO dot) ≤
    FSSIZE ∧ nmeta + total rootOnly ≤ FSSIZE := by
  decide +kernel

theorem Counted.makeRoot {s : Image} (counted : Counted s blank noFiles) (first : s.freeinode = ROOTINO) :
    wp makeRoot (fun _ s' => s'.freeinode = ROOTINO + 1 ∧ ∃ v', Counted s' v' rootOnly) (fun _ => False) s := by
  refine wp_seq _ _ (counted.ialloc tDir (by decide) (by rw [first]; decide)) ?_
  rintro _ s₁ ⟨rfl, inodes₁, v₁, counted₁⟩
  rw [first] at inodes₁ counted₁ ⊢
  simp only [ne_eq, not_true_eq_false, if_false]
  refine wp_then _ _ (counted₁.entry (by omega) (by decide) ROOTINO dot) ?_ ?_
  · rintro _ s₂ ⟨inodes₂, v₂, counted₂⟩
    refine wp_mono _ (counted₂.entry (by omega) (by decide) ROOTINO dotdot) ?_ ?_
    · rintro _ s₃ ⟨inodes₃, v₃, counted₃⟩
      exact ⟨by omega, v₃, counted₃⟩
    · rintro _ (more | long)
      · rw [← rootOnly] at more
        exact (Nat.not_lt.mpr total_root.2 more).elim
      · exact absurd long (by decide)
  · rintro _ (more | long)
    · exact (Nat.not_lt.mpr total_root.1 more).elim
    · exact absurd long (by decide)

end Root

section Ends

-- The root directory, its size rounded up to a block that is not full.
def rounded (d : Dinode) : Dinode := { d with size := (d.size / UInt32.ofNat BSIZE + 1) * UInt32.ofNat BSIZE }

theorem getBit_foldl_setBit {n : Nat} (bits : List Nat) (b : Buf n) (j : Nat) (inside : ∀ i ∈ bits, i < 8 * n) :
    getBit (bits.foldl setBit b) j = (decide (j ∈ bits) || getBit b j) := by
  induction bits generalizing b with
  | nil => simp
  | cons i bits ih =>
    rw [List.foldl_cons, ih _ fun k later => inside k (List.mem_cons_of_mem _ later),
      getBit_setBit b i j (inside i List.mem_cons_self)]
    by_cases same : i = j
    · simp [same]
    · simp [same, Ne.symm same]

theorem getBit_zeros {n : Nat} (j : Nat) : getBit (fun _ => 0 : Buf n) j = false := by
  simp [getBit, getByte]

/-- The inodes of the image, and what they contain but for the size of the root directory. -/
structure Finished (disk : Disk) (s : Image) (v : View) (node : Nat → Node) : Prop extends Counted s v node where
  shows : Shows sb disk (v.setIno ROOTINO (rounded (v.ino ROOTINO)))
  log : disk sb.logstart = fun _ => 0

theorem bblock_map (b : Nat) (block : b < FSSIZE) : bblock sb b = sb.bmapstart ∧ b % BPB = b := by
  simp only [bblock, BPB, BSIZE, FSSIZE] at *
  omega

theorem Seen.balloc {disk : Disk} {v : View} (seen : Seen disk v) (used : Nat) (few : used < BSIZE * 8)
    (marks : ∀ b, v.used b = decide (b < used)) :
    Shows sb (Function.update disk sb.bmapstart ((List.range used).foldl setBit fun _ => 0)) v := by
  have bitmap : sb.Bitmap sb.bmapstart := ⟨le_rfl, by decide⟩
  constructor
  case super => rw [readsb_update _ _ (layout.bitmap_ne_one _ bitmap), seen.super]
  case ino =>
    intro i inode
    have other := layout.inodes_ne_bitmap _ _ (iblock_inodes i inode) bitmap
    rw [dinodeAt, Function.update_of_ne other]
    exact seen.ino i inode
  case used =>
    intro b block
    obtain ⟨at_, index⟩ := bblock_map b block
    rw [bitAt, at_, Function.update_self, index, getBit_foldl_setBit, getBit_zeros, marks]
    · simp
    · intro i member
      have := List.mem_range.mp member
      omega
  case blk =>
    intro b plain
    have other : b ≠ sb.bmapstart := by
      rintro rfl
      exact plain (Or.inr (Or.inr (Or.inr (Or.inr bitmap))))
    rw [Function.update_of_ne other]
    exact seen.blk b plain

theorem Counted.finish {s : Image} {v : View} {node : Nat → Node} (counted : Counted s v node) :
    wp (fixRoot >>= fun _ => get >>= fun s => balloc s.freeblock)
      (fun _ s' => Finished s'.disk s v node) (fun _ => False) s := by
  have root : ROOTINO < NINODES := by decide
  have during := counted.during ROOTINO
  have mapped : Mapped sb v (Function.update v.ino ROOTINO (rounded (v.ino ROOTINO))) := by
    rw [Mapped, @owner_attrs sb.ninodes v.blk v.ino (v.ino ROOTINO) (rounded (v.ino ROOTINO)) ROOTINO rfl rfl]
    exact during.mapped
  have fixed : wp fixRoot (fun _ s' => (∀ j, During s' (v.setIno ROOTINO (rounded (v.ino ROOTINO))) j
      ((v.setIno ROOTINO (rounded (v.ino ROOTINO))).ino j)) ∧ s'.freeblock = s.freeblock ∧
      s'.freeinode = s.freeinode) (fun _ => False) s := by
    refine wp_seq _ _ (during.rinode root) ?_
    rintro _ s ⟨rfl, rfl⟩
    exact during.winode root (rounded (v.ino ROOTINO)) mapped
  refine wp_seq _ _ fixed ?_
  rintro _ s₁ ⟨after, blocks, -⟩
  have seen := after ROOTINO
  have few : s₁.freeblock < BSIZE * 8 := lt_of_le_of_lt seen.high (by decide)
  simp only [wp_bind, wp_get, Mkfs.balloc, few, if_true, wsect, wp_modify]
  refine ⟨counted, Seen.balloc seen.seen s₁.freeblock few seen.used, ?_⟩
  have other : sb.logstart ≠ sb.bmapstart := by decide
  simp only [Function.update_of_ne other]
  exact seen.log

end Ends

section Files

variable {node : Nat → Node} {g : Nat}

theorem addNode_file (f : File) : addNode node g f g = ⟨tFile, 0, 0, 1, f.bytes⟩ := Function.update_self ..

theorem addNode_root (f : File) (other : g ≠ ROOTINO) :
    addNode node g f ROOTINO =
      { node ROOTINO with data := (node ROOTINO).data ++ (dirent g f.name).bytes } := by
  rw [addNode, Function.update_of_ne other.symm, addEntry, Function.update_self]

theorem addNode_other (f : File) (i : Nat) (other : i ≠ g) (root : i ≠ ROOTINO) : addNode node g f i = node i := by
  rw [addNode, Function.update_of_ne other, addEntry, Function.update_of_ne root]

-- The entries of files that are numbered from `g` on.
def entries (g : Nat) : List File → List Dirent
  | [] => []
  | f :: fs => dirent g f.name :: entries (g + 1) fs

theorem entries_length (g : Nat) (files : List File) : (entries g files).length = files.length := by
  induction files generalizing g with
  | nil => rfl
  | cons f files ih => rw [entries, List.length_cons, List.length_cons, ih]

theorem entries_getElem? (g k : Nat) (files : List File) :
    (entries g files)[k]? = files[k]?.map fun f => dirent (g + k) f.name := by
  induction files generalizing g k with
  | nil => rfl
  | cons f files ih =>
    cases k with
    | zero => rfl
    | succ k => rw [entries, List.getElem?_cons_succ, List.getElem?_cons_succ, ih, Nat.add_right_comm, Nat.add_assoc]

theorem addNodes_root (files : List File) (above : ROOTINO < g) :
    addNodes node g files ROOTINO =
      { node ROOTINO with data := (node ROOTINO).data ++ (entries g files).flatMap Dirent.bytes } := by
  induction files generalizing node g with
  | nil => simp [addNodes, entries]
  | cons f files ih =>
    rw [addNodes, ih (by omega), addNode_root f (by omega)]
    simp [entries]

theorem addNodes_other (files : List File) (i : Nat) (root : i ≠ ROOTINO)
    (outside : i < g ∨ g + files.length ≤ i) : addNodes node g files i = node i := by
  induction files generalizing node g with
  | nil => rfl
  | cons f files ih =>
    simp only [List.length_cons] at outside
    rw [addNodes, ih (by omega), addNode_other f i (by omega) root]

theorem addNodes_file (files : List File) (k : Nat) (f : File) (above : ROOTINO < g) (file : files[k]? = some f) :
    addNodes node g files (g + k) = ⟨tFile, 0, 0, 1, f.bytes⟩ := by
  induction files generalizing node g k with
  | nil => simp at file
  | cons h files ih =>
    rw [addNodes]
    cases k with
    | zero =>
      obtain rfl : h = f := by simpa using file
      have outside : g ≠ ROOTINO ∧ (g < g + 1 ∨ g + 1 + files.length ≤ g) := by omega
      exact (addNodes_other files g outside.1 outside.2).trans (addNode_file h)
    | succ k =>
      rw [← Nat.add_assoc, Nat.add_right_comm]
      exact ih k (by omega) file

-- The blocks of the root directory and of the files.
def blocksNeeded (files : List File) : Nat :=
  need (dataBlocks (16 * (files.length + 2))) + (files.map fun f => need (dataBlocks f.bytes.length)).sum

theorem total_addNode (f : File) (inode : g < NINODES) (other : g ≠ ROOTINO) (fresh : node g = Node.free) :
    total (addNode node g f) + need (dataBlocks (node ROOTINO).data.length) =
      total node + need (dataBlocks ((node ROOTINO).data.length + 16)) + need (dataBlocks f.bytes.length) := by
  have entry := total_update node ROOTINO
    { node ROOTINO with data := (node ROOTINO).data ++ (dirent g f.name).bytes } (by decide)
  have file := total_update (addEntry node g f.name) g ⟨tFile, 0, 0, 1, f.bytes⟩ inode
  have empty : need (dataBlocks (addEntry node g f.name g).data.length) = 0 := by
    rw [addEntry, Function.update_of_ne other, fresh]
    rfl
  rw [← addEntry, List.length_append, dirent_length] at entry
  rw [← addNode] at file
  simp only at file
  omega

theorem total_addNodes (files : List File) (above : ROOTINO < g) (room : g + files.length ≤ NINODES)
    (fresh : ∀ i, g ≤ i → i < NINODES → node i = Node.free) :
    total (addNodes node g files) + need (dataBlocks (node ROOTINO).data.length) =
      total node + need (dataBlocks ((node ROOTINO).data.length + 16 * files.length)) +
        (files.map fun f => need (dataBlocks f.bytes.length)).sum := by
  induction files generalizing node g with
  | nil => simp [addNodes]
  | cons f files ih =>
    simp only [List.length_cons] at room
    have one := total_addNode f (by omega) (by omega) (fresh g le_rfl (by omega))
    have rest := @ih (addNode node g f) (g + 1) (by omega) (by omega) fun i above' inode => by
      rw [addNode_other f i (by omega) (by omega)]
      exact fresh i (by omega) inode
    rw [addNode_root f (by omega)] at rest
    simp only [List.length_append, dirent_length] at rest
    rw [addNodes, List.map_cons, List.sum_cons, List.length_cons,
      show (node ROOTINO).data.length + 16 * (files.length + 1) =
        (node ROOTINO).data.length + 16 + 16 * files.length by omega]
    omega

end Files

section Image

def nodes (files : List File) : Nat → Node := addNodes rootOnly 2 files

theorem rootOnly_root : rootOnly ROOTINO =
    ⟨tDir, 0, 0, 1, [dirent ROOTINO dot, dirent ROOTINO dotdot].flatMap Dirent.bytes⟩ := by
  decide

theorem rootOnly_other (i : Nat) (other : i ≠ ROOTINO) : rootOnly i = Node.free := by
  simp only [rootOnly, addEntry, Function.update_of_ne other, noFiles]

theorem nodes_root (files : List File) : nodes files ROOTINO = ⟨tDir, 0, 0, 1,
    (dirent ROOTINO dot :: dirent ROOTINO dotdot :: entries 2 files).flatMap Dirent.bytes⟩ := by
  rw [nodes, addNodes_root files (by decide), rootOnly_root]
  simp

theorem nodes_file (files : List File) (k : Nat) (f : File) (file : files[k]? = some f) :
    nodes files (2 + k) = ⟨tFile, 0, 0, 1, f.bytes⟩ :=
  addNodes_file files k f (by decide) file

theorem entries_bytes (g : Nat) (files : List File) : ∀ e ∈ entries g files, e.bytes.length = 16 := by
  induction files generalizing g with
  | nil => simp [entries]
  | cons f files ih =>
    rw [entries, List.forall_mem_cons]
    exact ⟨dirent_length g f.name, ih (g + 1)⟩

theorem flatMap_bytes_length (es : List Dirent) (all : ∀ e ∈ es, e.bytes.length = 16) :
    (es.flatMap Dirent.bytes).length = 16 * es.length := by
  induction es with
  | nil => rfl
  | cons e es ih =>
    rw [List.forall_mem_cons] at all
    rw [List.flatMap_cons, List.length_append, all.1, ih all.2, List.length_cons]
    omega

theorem nodes_root_length (files : List File) : (nodes files ROOTINO).data.length = 16 * (files.length + 2) := by
  rw [nodes, addNodes_root files (by decide), rootOnly_root]
  simp only [List.length_append, flatMap_bytes_length (entries 2 files) (entries_bytes 2 files), entries_length]
  simp [dirent_length]
  omega

theorem rootOnly_length : (rootOnly ROOTINO).data.length = 32 := by
  rw [rootOnly_root]
  simp [dirent_length]

theorem total_nodes (files : List File) (few : files.length + 1 < NINODES) :
    total (nodes files) = blocksNeeded files := by
  have sum := @total_addNodes rootOnly 2 files (by decide) (by omega) fun i above _ =>
    rootOnly_other i fun same => by subst same; exact absurd above (by decide)
  have root : total rootOnly = need (dataBlocks 32) := by decide +kernel
  rw [root, rootOnly_length] at sum
  rw [nodes, blocksNeeded, show 16 * (files.length + 2) = 32 + 16 * files.length by omega]
  omega

def Unfit (files : List File) : Prop :=
  (∃ f ∈ files, slash ∈ f.argv) ∨ (∃ f ∈ files, MAXFILE * BSIZE < f.bytes.length) ∨
    FSSIZE < nmeta + blocksNeeded files

theorem refused_unfit (files : List File) (few : files.length + 1 < NINODES) (refused : Refused rootOnly 2 files) :
    Unfit files := by
  rcases refused with bad | long | long | more
  · exact Or.inl bad
  · exact Or.inr (Or.inl long)
  · rw [rootOnly_length] at long
    simp only [NINODES, MAXFILE, NDIRECT, NINDIRECT, BSIZE] at few long
    omega
  · rw [← nodes, total_nodes files few] at more
    exact Or.inr (Or.inr more)

def start : Image := ⟨fun _ _ => 0, 0, 1, nmeta⟩

theorem mkfs_eq (files : List File) : mkfs files = (main files start).map Prod.snd := rfl

theorem main_spec (files : List File) (few : files.length + 1 < NINODES) :
    wp (main files) (fun _ image => ∃ s v, Finished image.disk s v (nodes files)) (fun _ => Unfit files) start := by
  rw [main]
  refine wp_then _ _ (zeroSectors_spec sectors start rfl) ?_ fun _ stop => stop.elim
  rintro _ s ⟨disk, inodes, blocks, -, low, high⟩
  have length : s.length = FSSIZE := by
    have last := low (FSSIZE - 1) (mem_sectors.mpr (by decide))
    have least := high FSSIZE (Nat.zero_le _) fun i member => mem_sectors.mp member
    omega
  refine wp_then _ _ (counted_start s disk length blocks) ?_ fun _ stop => stop.elim
  rintro _ s₁ ⟨inodes₁, counted₁⟩
  refine wp_then _ _ (counted₁.makeRoot (inodes₁.trans inodes)) ?_ fun _ stop => stop.elim
  rintro _ s₂ ⟨inodes₂, v₂, counted₂⟩
  have two : s₂.freeinode = 2 := inodes₂
  have added := counted₂.addFiles files (by omega) (by omega) (by rw [rootOnly_root]; decide)
  rw [two] at added
  refine wp_then _ _ added ?_ fun _ stop => refused_unfit files few stop
  rintro _ s₃ ⟨-, v₃, counted₃⟩
  refine wp_mono _ counted₃.finish ?_ fun _ stop => stop.elim
  exact fun _ image finished => ⟨s₃, v₃, finished⟩

theorem mkfs_finished (files : List File) (few : files.length + 1 < NINODES) (image : Image)
    (done : mkfs files = .ok image) : ∃ s v, Finished image.disk s v (nodes files) := by
  rw [mkfs_eq] at done
  cases result : main files start with
  | error why =>
    rw [result] at done
    cases done
  | ok r =>
    rw [result] at done
    cases done
    exact wp_ok (main files) r.1 r.2 result (main_spec files few)

theorem mkfs_total (files : List File) (few : files.length + 1 < NINODES) (fit : ¬ Unfit files) :
    ∃ image, mkfs files = .ok image := by
  rw [mkfs_eq]
  cases result : main files start with
  | error why => exact absurd (wp_error _ _ result (main_spec files few)) fit
  | ok r => exact ⟨r.2, rfl⟩

end Image

end Xv6.Mkfs
