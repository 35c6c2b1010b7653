import Xv6.Fs.Call
import Xv6.Fs.Reading
import Xv6.Log.Crash
import Xv6.Mkfs.Holes

set_option autoImplicit false

/-!
# The kernel reads what mkfs wrote

The first lookup after boot: `namei` from the root, then the attributes and the bytes of the file. The
log of a new image is empty, so recovery leaves the image as it is. `dirlookup` stops at the entry it
looks for, so that a hole behind the last entry is not met.
-/

namespace Xv6.Mkfs

open Bytes Fs Prog

section Recovery

theorem encodeHead_zeros : encodeHead (fun _ => 0) .empty = fun _ => 0 := by
  funext k
  simp only [encodeHead, LogHeader.empty, LogHeader.n, List.length_nil, List.range_zero, List.foldl_nil, putLE,
    putBytes]
  split <;> simp

theorem recover_zeros (start : Nat) (disk : Disk) (zeros : disk start = fun _ => 0) :
    (recoverFromLog start (Machine.boot disk)).map (·.disk) = some disk := by
  have head := readHead_encodeHead start disk (fun _ => 0) .empty (by rw [zeros, encodeHead_zeros])
  have buf : (Machine.boot disk).bread start = fun _ => 0 := by
    simp [Machine.boot, Machine.bread, zeros]
  have same : Function.update disk start (fun _ => 0) = disk := by
    rw [← zeros, Function.update_eq_self]
  simp only [recoverFromLog, head, Option.map_some, installTrans, LogHeader.n, LogHeader.empty, List.length_nil,
    List.range_zero, List.foldl_nil]
  simp only [writeHead, Machine.bwrite, buf]
  exact congrArg some (by rw [← LogHeader.empty, encodeHead_zeros]; exact same)

end Recovery

section Cache

-- The state after boot but for the first two entries of the cache.
def cached (disk : Disk) (a b : Inode) : State :=
  { bootFs disk with icache := fun ip => if ip = 0 then a else if ip = 1 then b else ⟨⟨0, 0, 0, false, false⟩, .zero⟩ }

variable {disk : Disk} {a b : Inode}

@[simp] theorem cached_zero : (cached disk a b).icache 0 = a := rfl

@[simp] theorem cached_one : (cached disk a b).icache 1 = b := rfl

@[simp] theorem cached_setEntry_zero (x : Inode) : (cached disk a b).setEntry 0 x = cached disk x b := by
  simp only [cached, State.setEntry, State.mk.injEq, true_and]
  funext ip
  by_cases same : ip = 0 <;> simp [same]

@[simp] theorem cached_setEntry_one (x : Inode) : (cached disk a b).setEntry 1 x = cached disk a x := by
  simp only [cached, State.setEntry, State.mk.injEq, true_and]
  funext ip
  by_cases same : ip = 1 <;> simp [same]

theorem slots_cons : ∃ rest, List.finRange NINODE = 0 :: 1 :: rest :=
  ⟨(List.finRange NINODE).drop 2, by decide⟩

theorem iget_zero (dev inum : Nat) (live : 0 < a.ref) (here : a.dev = dev ∧ a.inum = inum) :
    iget dev inum (cached disk a b) = .ok (0, cached disk { a with ref := a.ref + 1 } b) := by
  obtain ⟨rest, shape⟩ := slots_cons
  have found : (List.finRange NINODE).find? (fun ip => decide (0 < ((cached disk a b).icache ip).ref ∧
      ((cached disk a b).icache ip).dev = dev ∧ ((cached disk a b).icache ip).inum = inum)) = some 0 := by
    rw [shape]
    exact List.find?_cons_of_pos (decide_eq_true ⟨live, here⟩)
  rw [iget, bind_ok get_eq, found]
  simp only
  rw [bind_ok (setInode_eq _), cached_setEntry_zero]
  rfl

theorem iget_one (dev inum : Nat) (live : 0 < a.ref) (other : a.inum ≠ inum) (unused : b.ref = 0) :
    iget dev inum (cached disk a b) =
      .ok (1, cached disk a { b with dev := dev, inum := inum, ref := 1, busy := false, valid := false }) := by
  obtain ⟨rest, shape⟩ := slots_cons
  have missing : (List.finRange NINODE).find? (fun ip => decide (0 < ((cached disk a b).icache ip).ref ∧
      ((cached disk a b).icache ip).dev = dev ∧ ((cached disk a b).icache ip).inum = inum)) = none := by
    rw [List.find?_eq_none]
    intro ip _ found
    obtain ⟨used, -, same⟩ := of_decide_eq_true found
    simp only [cached] at used same
    split at used
    next zero => exact other (by simpa [zero] using same)
    next =>
      split at used
      next => omega
      next => simp at used
  have vacant : (List.finRange NINODE).find? (fun ip => decide (((cached disk a b).icache ip).ref = 0)) = some 1 := by
    rw [shape]
    have first : decide (((cached disk a b).icache 0).ref = 0) = false := decide_eq_false live.ne'
    have second : decide (((cached disk a b).icache 1).ref = 0) = true := decide_eq_true unused
    simp only [List.find?_cons, first, second]
  rw [iget, bind_ok get_eq, missing,
    vacant]
  simp only
  rw [bind_ok (setInode_eq _), cached_setEntry_one]
  rfl

theorem ilock_zero (live : 0 < a.ref) (free : a.busy = false) (unread : a.valid = false)
    (typed : (dinodeAt (readsb disk) disk a.inum).type ≠ 0) :
    ilock 0 (cached disk a b) = .ok ((), cached disk
      { a with toDinode := dinodeAt (readsb disk) disk a.inum, busy := true, valid := true } b) := by
  rw [@ilock_load (cached disk a b) 0 live free unread typed, cached_setEntry_zero]
  rfl

theorem ilock_one (live : 0 < b.ref) (free : b.busy = false) (unread : b.valid = false)
    (typed : (dinodeAt (readsb disk) disk b.inum).type ≠ 0) :
    ilock 1 (cached disk a b) = .ok ((), cached disk a
      { b with toDinode := dinodeAt (readsb disk) disk b.inum, busy := true, valid := true }) := by
  rw [@ilock_load (cached disk a b) 1 live free unread typed, cached_setEntry_one]
  rfl

end Cache

section Contents

variable {disk : Disk} {s : Image} {v : View} {files : List File} (finished : Finished disk s v (nodes files))

include finished

theorem Finished.typed (i : Nat) (inode : i < NINODES) : (v.ino i).type = (nodes files i).type := by
  rw [← finished.nodes i inode, nodeOf_type]

theorem Finished.size (i : Nat) (inode : i < NINODES) (typed : (v.ino i).type ≠ 0) :
    (v.ino i).size.toNat = (nodes files i).data.length := by
  rw [← finished.nodes i inode, nodeOf_typed _ _ typed, content_length]

theorem Finished.bytes (i : Nat) (inode : i < NINODES) (typed : (v.ino i).type ≠ 0) :
    (List.range (nodes files i).data.length).map (fileByte disk (dinodeAt sb disk i)) = (nodes files i).data := by
  have size := finished.size i inode typed
  have shown : ∀ q, Fs.ptr v.blk (v.ino i) q ≠ 0 →
      disk (Fs.ptr v.blk (v.ino i) q) = v.blk (Fs.ptr v.blk (v.ino i) q) := by
    intro q some_
    have held := owner_of_ptr sb.ninodes v.blk v.ino i q inode typed some_
    exact finished.shows.blk _ (finished.mapped.inside _ _ held).2
  conv_rhs => rw [← finished.nodes i inode, nodeOf_typed _ _ typed]
  rw [← size, content]
  refine List.map_congr_left fun k member => ?_
  have filled := (finished.covered i inode typed).filled k (List.mem_range.mp member)
  rw [fileByte, finished.ptr i _ inode typed, shown _ filled, fileByte]

theorem Finished.filled (i k : Nat) (inode : i < NINODES) (typed : (v.ino i).type ≠ 0)
    (inside : k < (nodes files i).data.length) :
    Fs.ptr disk (dinodeAt sb disk i) (dataPos (k / BSIZE)) ≠ 0 := by
  rw [finished.ptr i _ inode typed]
  exact (finished.covered i inode typed).filled k (by rwa [finished.size i inode typed])

end Contents

section Names

-- The name of a file as it is found in the root directory.
def File.stored (f : File) : List UInt8 := f.name.take DIRSIZ

theorem File.name_mem (f : File) (c : UInt8) (member : c ∈ f.name) : c ∈ f.argv := by
  unfold File.name at member
  split at member
  next => exact List.mem_of_mem_tail member
  next => exact member

theorem File.stored_string (f : File) : 0 ∉ f.stored := fun member =>
  f.string (f.name_mem 0 (List.mem_of_mem_take member))

theorem File.stored_length (f : File) : f.stored.length ≤ DIRSIZ := List.length_take_le _ _

theorem is_dirent (f : File) (inum : Nat) (name : List UInt8) (some_ : inum ≠ 0) :
    (dirent inum name).Is f.stored ↔ strncpy DIRSIZ f.stored = strncpy DIRSIZ name := by
  rw [Dirent.Is, namecmp_eq_zero_iff, dirent, strncpy_idem]
  exact and_iff_right some_

theorem strncpy_stored (f : File) : strncpy DIRSIZ f.stored = strncpy DIRSIZ f.name :=
  strncpy_take DIRSIZ DIRSIZ f.name le_rfl

/-- The files that the image has room for, with names that can be told apart. -/
structure Storable (files : List File) : Prop where
  inodes : files.length + 1 < NINODES
  blocks : nmeta + blocksNeeded files ≤ FSSIZE
  small : ∀ f ∈ files, f.bytes.length ≤ MAXFILE * BSIZE
  plain : ∀ f ∈ files, slash ∉ f.argv
  named : ∀ f ∈ files, f.stored ≠ []
  proper : ∀ f ∈ files, f.stored ≠ dot ∧ f.stored ≠ dotdot
  distinct : (files.map File.stored).Nodup

theorem Storable.fit {files : List File} (storable : Storable files) : ¬ Unfit files := by
  rintro (⟨f, member, bad⟩ | ⟨f, member, long⟩ | more)
  · exact storable.plain f member bad
  · exact absurd long (Nat.not_lt.mpr (storable.small f member))
  · exact absurd more (Nat.not_lt.mpr storable.blocks)

def rootEntries (files : List File) : List Dirent :=
  dirent ROOTINO dot :: dirent ROOTINO dotdot :: entries 2 files

theorem rootEntries_mem (files : List File) (d : Dirent) (member : d ∈ rootEntries files) :
    ∃ inum name, inum < 2 + files.length ∧ d = dirent inum name := by
  rcases List.mem_cons.mp member with rfl | later
  · exact ⟨ROOTINO, dot, by simp only [ROOTINO]; omega, rfl⟩
  · rcases List.mem_cons.mp later with rfl | file
    · exact ⟨ROOTINO, dotdot, by simp only [ROOTINO]; omega, rfl⟩
    · obtain ⟨k, entry⟩ := List.mem_iff_getElem?.mp file
      rw [entries_getElem?] at entry
      obtain ⟨f, here, rfl⟩ := Option.map_eq_some_iff.mp entry
      have := (List.getElem?_eq_some_iff.mp here).1
      exact ⟨2 + k, f.name, by omega, rfl⟩

theorem Storable.first {files : List File} (storable : Storable files) (k : Nat) (f : File)
    (file : files[k]? = some f) (j : Nat) (d : Dirent) (before : j < k + 2) (entry : (rootEntries files)[j]? = some d) :
    ¬ d.Is f.stored := by
  have member := List.mem_of_getElem? file
  have apart : ∀ name, 0 ∉ name → name.length ≤ DIRSIZ → f.stored ≠ name → ∀ inum, inum ≠ 0 →
      ¬ (dirent inum name).Is f.stored := by
    intro name string short other inum some_ found
    exact other (strncpy_inj DIRSIZ _ _ f.stored_length short f.stored_string string
      ((is_dirent f inum name some_).mp found))
  match j with
  | 0 =>
    obtain rfl : dirent ROOTINO dot = d := by simpa [rootEntries] using entry
    exact apart dot (by decide) (by decide) (storable.proper f member).1 ROOTINO (by decide)
  | 1 =>
    obtain rfl : dirent ROOTINO dotdot = d := by simpa [rootEntries] using entry
    exact apart dotdot (by decide) (by decide) (storable.proper f member).2 ROOTINO (by decide)
  | j + 2 =>
    have here : (entries 2 files)[j]? = some d := by simpa [rootEntries] using entry
    rw [entries_getElem?] at here
    obtain ⟨h, other, rfl⟩ := Option.map_eq_some_iff.mp here
    intro found
    have same := (is_dirent f _ h.name (by omega)).mp found
    rw [← strncpy_stored h] at same
    have names := strncpy_inj DIRSIZ _ _ f.stored_length h.stored_length f.stored_string h.stored_string same
    have less : j < (files.map File.stored).length := by
      rw [List.length_map]
      exact (List.getElem?_eq_some_iff.mp other).1
    have index : j = k := by
      rw [← List.getElem?_inj less storable.distinct, List.getElem?_map, List.getElem?_map, other, file,
        Option.map_some, Option.map_some, names]
    omega

end Names

section Fetch

variable {disk : Disk} {s : Image} {v : View} {files : List File} (finished : Finished disk s v (nodes files))
  (storable : Storable files)

-- The entry of the cache for the root directory, once it has been read.
def rootInode (disk : Disk) (ref : Int) (busy : Bool) : Inode :=
  ⟨⟨ROOTDEV, ROOTINO, ref, busy, true⟩, dinodeAt sb disk ROOTINO⟩

def rootStat (disk : Disk) : Stat :=
  ⟨ROOTDEV, ROOTINO, (dinodeAt sb disk ROOTINO).type, (dinodeAt sb disk ROOTINO).nlink, (dinodeAt sb disk ROOTINO).size⟩

theorem stati_root (ref : Int) (busy : Bool) (b : Inode) :
    inodeOps.stati 0 (cached disk (rootInode disk ref busy) b) =
      .ok (rootStat disk, cached disk (rootInode disk ref busy) b) := rfl

include finished

theorem Finished.root_type : (dinodeAt sb disk ROOTINO).type = tDir := by
  rw [finished.type ROOTINO (by decide), finished.typed ROOTINO (by decide), nodes_root]

theorem Finished.root_size : 16 * (files.length + 2) ≤ (dinodeAt sb disk ROOTINO).size.toNat := by
  obtain ⟨typed, size⟩ := finished.size_root
  have fits := (finished.covered ROOTINO (by decide) typed).fits
  rw [finished.shows.ino ROOTINO (by decide), View.setIno_ino, Function.update_self, rounded_size _ fits, size]
  simp only [BSIZE]
  omega

include storable

theorem Finished.lists (ref : Int) (busy : Bool) (b : Inode) :
    Lists inodeOps 0 (cached disk (rootInode disk ref busy) b) (rootEntries files) := by
  have root : ROOTINO < NINODES := by decide
  have typed := finished.size_root.1
  have few := storable.inodes
  have length : (rootEntries files).length = files.length + 2 := by
    simp [rootEntries, entries_length]
  have data : (nodes files ROOTINO).data.length = 16 * (rootEntries files).length := by
    rw [nodes_root_length, length]
  refine lists_of_bytes (rootEntries files) ?_ ?_ ?_ ?_ ?_ ?_ ?_
  · rw [cached_zero]
    exact fun device => absurd (finished.root_type.symm.trans device) (by decide)
  · intro d member
    obtain ⟨inum, name, small, rfl⟩ := rootEntries_mem files d member
    simp only [dirent, NINODES] at few ⊢
    omega
  · intro d member
    obtain ⟨inum, name, -, rfl⟩ := rootEntries_mem files d member
    exact strncpy_length DIRSIZ name
  · rw [cached_zero, length]
    exact finished.root_size
  · rw [length]
    simp only [NINODES, MAXFILE, NDIRECT, NINDIRECT, BSIZE] at few ⊢
    omega
  · intro k inside
    exact finished.filled ROOTINO k root typed (by rwa [data])
  · rw [← data]
    exact (finished.bytes ROOTINO root typed).trans (by rw [nodes_root]; rfl)

theorem Finished.dirlookup (k : Nat) (f : File) (file : files[k]? = some f) (b : Inode) (unused : b.ref = 0) :
    dirlookup inodeOps 0 f.stored (cached disk (rootInode disk 2 true) b) =
      .ok (some (1, 16 * (k + 2)), cached disk (rootInode disk 2 true) ⟨⟨ROOTDEV, 2 + k, 1, false, false⟩, b.toDinode⟩) := by
  have less := (List.getElem?_eq_some_iff.mp file).1
  have entry : (rootEntries files)[k + 2]? = some (dirent (2 + k) f.name) := by
    simp [rootEntries, entries_getElem?, file]
  have found : (dirent (2 + k) f.name).Is f.stored :=
    (is_dirent f _ f.name (by omega)).mpr (strncpy_stored f)
  have directory : ¬ (rootStat disk).type ≠ tDir := fun other => other finished.root_type
  have room : k + 2 < 0 + slots (rootStat disk).size := by
    have size : 16 * (files.length + 2) ≤ (rootStat disk).size.toNat := finished.root_size
    simp only [slots]
    omega
  have loop := (finished.lists storable 2 true b).lookupLoop_hit ROOTDEV f.stored (k + 2) _ entry found
    (storable.first k f file) (slots (rootStat disk).size) 0 (by omega) room
  have other : (rootInode disk 2 true).inum ≠ 2 + k := by
    simp only [rootInode, ROOTINO]
    omega
  have got : inodeOps.iget ROOTDEV (dirent (2 + k) f.name).inum (cached disk (rootInode disk 2 true) b) = _ :=
    iget_one ROOTDEV (2 + k) (show (0 : Int) < 2 by decide) other unused
  rw [Fs.dirlookup, bind_ok (stati_root 2 true b), if_neg directory]
  refine loop.trans ?_
  rw [bind_ok got]
  rfl

theorem Finished.namei (k : Nat) (f : File) (file : files[k]? = some f) (cwd : Slot) :
    namei inodeOps cwd (slash :: f.stored) (bootFs disk) =
      .ok (some 1, cached disk (rootInode disk 1 false) ⟨⟨ROOTDEV, 2 + k, 1, false, false⟩, .zero⟩) := by
  have member := List.mem_of_getElem? file
  have super : readsb disk = sb := finished.shows.super
  have start : bootFs disk =
      cached disk ⟨⟨ROOTDEV, ROOTINO, 1, false, false⟩, .zero⟩ ⟨⟨0, 0, 0, false, false⟩, .zero⟩ := by
    simp only [bootFs, cached, State.mk.injEq, true_and]
    funext ip
    split <;> simp
  have plain : slash ∉ f.stored := fun bad =>
    storable.plain f member (f.name_mem slash (List.mem_of_mem_take bad))
  have element : skipelem (slash :: f.stored) = some (f.stored, []) := by
    rw [skipelem_single _ (storable.named f member) plain, List.take_of_length_le f.stored_length]
  have got : inodeOps.iget ROOTDEV ROOTINO (bootFs disk) =
      .ok (0, cached disk ⟨⟨ROOTDEV, ROOTINO, 2, false, false⟩, .zero⟩ ⟨⟨0, 0, 0, false, false⟩, .zero⟩) := by
    rw [start]
    exact iget_zero ROOTDEV ROOTINO (by decide) ⟨rfl, rfl⟩
  have locked : inodeOps.ilock 0
      (cached disk ⟨⟨ROOTDEV, ROOTINO, 2, false, false⟩, .zero⟩ ⟨⟨0, 0, 0, false, false⟩, .zero⟩) =
      .ok ((), cached disk (rootInode disk 2 true) ⟨⟨0, 0, 0, false, false⟩, .zero⟩) := by
    have typed : (dinodeAt (readsb disk) disk ROOTINO).type ≠ 0 := by
      rw [super, finished.root_type]
      decide
    have loaded := @ilock_zero disk ⟨⟨ROOTDEV, ROOTINO, 2, false, false⟩, .zero⟩ ⟨⟨0, 0, 0, false, false⟩, .zero⟩
      (by decide) rfl rfl typed
    rw [super] at loaded
    exact loaded
  have directory : ¬ (rootStat disk).type ≠ tDir := fun other => other finished.root_type
  have unlocked : inodeOps.iunlock 0
      (cached disk (rootInode disk 2 true) ⟨⟨ROOTDEV, 2 + k, 1, false, false⟩, .zero⟩) =
      .ok ((), cached disk (rootInode disk 2 false) ⟨⟨ROOTDEV, 2 + k, 1, false, false⟩, .zero⟩) := by
    refine (iunlock_held (show (0 : Int) < 2 by decide) rfl).trans ?_
    rw [cached_setEntry_zero]
    rfl
  have put : inodeOps.iput 0
      (cached disk (rootInode disk 2 false) ⟨⟨ROOTDEV, 2 + k, 1, false, false⟩, .zero⟩) =
      .ok ((), cached disk (rootInode disk 1 false) ⟨⟨ROOTDEV, 2 + k, 1, false, false⟩, .zero⟩) := by
    refine (iput_keep (Or.inl (show (2 : Int) ≠ 1 by decide))).trans ?_
    rw [cached_setEntry_zero]
    rfl
  have walk : namexLoop inodeOps false (slash :: f.stored) [] 0
      (cached disk ⟨⟨ROOTDEV, ROOTINO, 2, false, false⟩, .zero⟩ ⟨⟨0, 0, 0, false, false⟩, .zero⟩) =
      .ok (some (1, f.stored), cached disk (rootInode disk 1 false) ⟨⟨ROOTDEV, 2 + k, 1, false, false⟩, .zero⟩) := by
    rw [namexLoop_elem inodeOps _ _ _ _ _ _ element, bind_ok locked, bind_ok (stati_root 2 true _), if_neg directory,
      if_neg (by simp), bind_ok (finished.dirlookup storable k f file _ rfl)]
    simp only [iunlockput, bind_assoc]
    rw [bind_ok unlocked, bind_ok put, namexLoop_end inodeOps _ _ _ _ (by decide)]
    rfl
  rw [Fs.namei, namex]
  simp only [List.head?_cons, if_true, bind_assoc]
  rw [bind_ok got, bind_ok walk]
  rfl

end Fetch

-- What a process finds under a path: the attributes and, from the start to the end, the bytes.
def fetch (cwd : Slot) (path : List UInt8) : Fs.M (Option (Stat × Int × List UInt8)) := do
  let found ← Fs.namei inodeOps cwd path
  match found with
  | none => return none
  | some ip => do
    inodeOps.ilock ip
    let st ← inodeOps.stati ip
    let bytes ← inodeOps.readi ip 0 st.size 0
    return some (st, bytes)

theorem Finished.fetch {disk : Disk} {s : Image} {v : View} {files : List File}
    (finished : Finished disk s v (nodes files)) (storable : Storable files) (k : Nat) (f : File)
    (file : files[k]? = some f) (cwd : Slot) :
    ∃ st t, fetch cwd (slash :: f.stored) (bootFs disk) = .ok (some (st, ((f.bytes.length : Int), f.bytes)), t) ∧
      st.type = tFile ∧ st.size.toNat = f.bytes.length := by
  have less := (List.getElem?_eq_some_iff.mp file).1
  have few := storable.inodes
  have inode : 2 + k < NINODES := by omega
  have node := nodes_file files k f file
  have type : (v.ino (2 + k)).type = tFile := by rw [finished.typed _ inode, node]
  have typed : (v.ino (2 + k)).type ≠ 0 := by
    rw [type]
    decide
  have here : dinodeAt sb disk (2 + k) = v.ino (2 + k) := by
    have other : 2 + k ≠ ROOTINO := by
      simp only [ROOTINO]
      omega
    rw [finished.shows.ino _ inode, View.setIno_ino, Function.update_of_ne other]
  have size : (dinodeAt sb disk (2 + k)).size.toNat = f.bytes.length := by
    rw [here, finished.size _ inode typed, node]
  set i : Inode := ⟨⟨ROOTDEV, 2 + k, 1, true, true⟩, dinodeAt sb disk (2 + k)⟩ with hi
  have locked : inodeOps.ilock 1
      (cached disk (rootInode disk 1 false) ⟨⟨ROOTDEV, 2 + k, 1, false, false⟩, .zero⟩) =
      .ok ((), cached disk (rootInode disk 1 false) i) := by
    have super : readsb disk = sb := finished.shows.super
    have loaded := @ilock_one disk (rootInode disk 1 false) ⟨⟨ROOTDEV, 2 + k, 1, false, false⟩, .zero⟩
      Int.one_pos rfl rfl (by rw [super, here]; exact typed)
    rw [super] at loaded
    exact loaded
  have bytes : inodeOps.readi 1 0 i.size 0 (cached disk (rootInode disk 1 false) i) =
      .ok (((f.bytes.length : Int), f.bytes), cached disk (rootInode disk 1 false) i) := by
    have fits : i.size.toNat ≤ MAXFILE * BSIZE := by
      rw [show i.size = (v.ino (2 + k)).size by rw [hi, here]]
      exact (finished.covered _ inode typed).fits
    have file_ : i.type ≠ tDev := by
      rw [show i.type = tFile by rw [hi, here, type]]
      decide
    have read := @readi_filled (cached disk (rootInode disk 1 false) i) 1 0 i.size i.size 0 file_ (by simp) (by simp)
      (by simp) (by simpa using fits) (by
        intro j _ below
        exact finished.filled (2 + k) j inode typed (by
          rw [node, ← size]
          simpa using below))
    have number : Sys.int i.size = f.bytes.length := by
      have small : i.size.toNat < 2 ^ 31 := lt_of_le_of_lt fits (by decide)
      rw [Sys.int_eq, if_pos small, ← size]
    have content := finished.bytes (2 + k) inode typed
    rw [node, ← size] at content
    refine read.trans ?_
    simp only [UInt32.toNat_zero, Nat.zero_add, number]
    exact congrArg (fun data => Except.ok (((f.bytes.length : Int), data), cached disk (rootInode disk 1 false) i)) content
  refine ⟨⟨ROOTDEV, 2 + k, i.type, i.nlink, i.size⟩, cached disk (rootInode disk 1 false) i, ?_, ?_, size⟩
  · rw [Mkfs.fetch, bind_ok (finished.namei storable k f file cwd)]
    simp only
    rw [bind_ok locked, bind_ok (show inodeOps.stati 1 (cached disk (rootInode disk 1 false) i) =
      .ok (⟨ROOTDEV, 2 + k, i.type, i.nlink, i.size⟩, cached disk (rootInode disk 1 false) i) from rfl), bind_ok bytes]
    rfl
  · rw [← type, ← here]

/-- The kernel finds every file in the image under its stored name, with the same bytes. -/
theorem kernel_reads_back (files : List File) (storable : Storable files) :
    ∃ image disk, mkfs files = .ok image ∧
      (recoverFromLog (readsb image.disk).logstart (Machine.boot image.disk)).map (·.disk) = some disk ∧
      ∀ f ∈ files, ∀ cwd, ∃ st s,
        fetch cwd (slash :: f.stored) (bootFs disk) = .ok (some (st, ((f.bytes.length : Int), f.bytes)), s) ∧
        st.type = tFile ∧ st.size.toNat = f.bytes.length := by
  obtain ⟨image, done⟩ := mkfs_total files storable.inodes storable.fit
  obtain ⟨s, v, finished⟩ := mkfs_finished files storable.inodes image done
  refine ⟨image, image.disk, done, recover_zeros _ _ (by rw [finished.shows.super]; exact finished.log), ?_⟩
  intro f member cwd
  obtain ⟨k, file⟩ := List.mem_iff_getElem?.mp member
  exact finished.fetch storable k f file cwd

-- Two programs, one of them read in two pieces.
def twoFiles : List File :=
  [⟨[95, 115, 104], [[127, 69], [76, 70]], by decide⟩, ⟨[82, 69, 65, 68, 77, 69], [[120]], by decide⟩]

theorem kernel_reads_back_two : Storable twoFiles ∧ ∃ image disk, mkfs twoFiles = .ok image ∧
    (recoverFromLog (readsb image.disk).logstart (Machine.boot image.disk)).map (·.disk) = some disk ∧
    ∀ f ∈ twoFiles, ∀ cwd, ∃ st s,
      fetch cwd (slash :: f.stored) (bootFs disk) = .ok (some (st, ((f.bytes.length : Int), f.bytes)), s) ∧
      st.type = tFile ∧ st.size.toNat = f.bytes.length := by
  have storable : Storable twoFiles := by
    refine ⟨by decide, by decide, by decide, by decide, by decide, by decide, by decide⟩
  exact ⟨storable, kernel_reads_back twoFiles storable⟩

end Xv6.Mkfs
