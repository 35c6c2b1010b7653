import Xv6.Fs.Inode

set_option autoImplicit false

/-!
# Directories, names and creation

The upper half of `fs.c` and the part of `sysfile.c` that changes directories, written over the
operations of the inode layer.
-/

namespace Xv6.Fs

-- What the upper layers read off a locked inode.
structure Stat where
  dev : Nat
  ino : Nat
  type : Int16
  nlink : Int16
  size : UInt32

-- What they assign to it, each time followed by `iupdate`.
structure Attr where
  major : Int16
  minor : Int16
  nlink : Int16

structure Ops (σ : Type) where
  beginOp : Op σ Unit
  endOp : Op σ Unit
  iget (dev inum : Nat) : Op σ Slot
  idup (ip : Slot) : Op σ Slot
  ialloc (dev : Nat) (type : Int16) : Op σ Slot
  ilock (ip : Slot) : Op σ Unit
  iunlock (ip : Slot) : Op σ Unit
  iput (ip : Slot) : Op σ Unit
  stati (ip : Slot) : Op σ Stat
  iupdate (ip : Slot) (assign : Attr → Attr) : Op σ Unit
  readi (ip : Slot) (off n : UInt32) (console : Int) : Op σ (Int × List UInt8)
  writei (ip : Slot) (src : Nat → UInt8) (off n : UInt32) : Op σ Int

def inodeOps : Ops State where
  beginOp := beginOp
  endOp := endOp
  iget := iget
  idup := idup
  ialloc := ialloc
  ilock := ilock
  iunlock := iunlock
  iput := iput
  stati ip := do
    let i ← inodeOf ip
    return ⟨i.dev, i.inum, i.type, i.nlink, i.size⟩
  iupdate ip assign := do
    setInode ip fun i =>
      let a := assign ⟨i.major, i.minor, i.nlink⟩
      { i with major := a.major, minor := a.minor, nlink := a.nlink }
    iupdate ip
  readi := readi
  writei := writei

section Strings

-- A string is the list of its characters before the NUL, or an array that need not have one.
def strncmp : Nat → List UInt8 → List UInt8 → Int
  | 0, _, _ => 0
  | n + 1, p, q =>
    if p.headD 0 ≠ 0 ∧ p.headD 0 = q.headD 0 then strncmp n p.tail q.tail
    else (p.headD 0).toNat - (q.headD 0).toNat

def strncpy : Nat → List UInt8 → List UInt8
  | 0, _ => []
  | n + 1, t => if t.headD 0 = 0 then List.replicate (n + 1) 0 else t.headD 0 :: strncpy n t.tail

def namecmp (s t : List UInt8) : Int := strncmp DIRSIZ s t

def slash : UInt8 := 47

def dot : List UInt8 := [46]

def dotdot : List UInt8 := [46, 46]

-- The name holds at most `DIRSIZ` characters of the element, without a NUL if there are as many.
def skipelem (path : List UInt8) : Option (List UInt8 × List UInt8) :=
  let path := path.dropWhile (· = slash)
  if path = [] then none
  else
    let elem := path.takeWhile (· ≠ slash)
    some (elem.take DIRSIZ, (path.dropWhile (· ≠ slash)).dropWhile (· = slash))

theorem skipelem_shorter (path name rest : List UInt8) (found : skipelem path = some (name, rest)) :
    rest.length < path.length := by
  have skipped := (List.dropWhile_suffix (l := path) (· = slash)).length_le
  simp only [skipelem] at found
  split at found
  next => cases found
  next more =>
    cases found
    obtain ⟨c, cs, shape⟩ := List.exists_cons_of_ne_nil more
    have other : ¬ c = slash := by
      have := List.head_dropWhile_not (fun x => decide (x = slash)) more
      simpa [shape] using this
    have tail : (List.dropWhile (fun x => decide (x ≠ slash)) (c :: cs)).length ≤ cs.length := by
      rw [List.dropWhile_cons_of_pos (by simpa using other)]
      exact (List.dropWhile_suffix _).length_le
    have last := (List.dropWhile_suffix (l := List.dropWhile (fun x => decide (x ≠ slash)) (c :: cs))
      (fun x => decide (x = slash))).length_le
    rw [shape] at skipped ⊢
    simp only [List.length_cons] at skipped
    omega

end Strings

structure Dirent where
  inum : Nat
  name : List UInt8
deriving DecidableEq

-- The two bytes of `inum`, then the name.
def Dirent.ofBytes (bytes : List UInt8) : Dirent where
  inum := (bytes.getD 0 0).toNat + 256 * (bytes.getD 1 0).toNat
  name := (bytes.drop 2).take DIRSIZ

def Dirent.bytes (de : Dirent) : List UInt8 :=
  [UInt8.ofNat de.inum, UInt8.ofNat (de.inum / 256)] ++ de.name

-- How many entries start below `size`.
def slots (size : UInt32) : Nat := (size.toNat + 15) / 16

section Directories

variable {σ : Type} (ops : Ops σ)

def iunlockput (ip : Slot) : Op σ Unit := do
  ops.iunlock ip
  ops.iput ip

def readDirent (dp : Slot) (off : Nat) (why : Panic) : Op σ Dirent := do
  let r ← ops.readi dp (UInt32.ofNat off) 16 0
  if r.1 ≠ 16 then throw (.panic why) else return Dirent.ofBytes r.2

-- `left` more entries, the next one at `off`.
def lookupLoop (dp : Slot) (dev : Nat) (name : List UInt8) : Nat → Nat → Op σ (Option (Slot × Nat))
  | 0, _ => return none
  | left + 1, off => do
    let de ← readDirent ops dp off .dirlinkRead
    if de.inum ≠ 0 ∧ namecmp name de.name = 0 then do
      let ip ← ops.iget dev de.inum
      return some (ip, off)
    else lookupLoop dp dev name left (off + 16)

def dirlookup (dp : Slot) (name : List UInt8) : Op σ (Option (Slot × Nat)) := do
  let st ← ops.stati dp
  if st.type ≠ tDir then throw (.panic .dirlookupNotDIR)
  else lookupLoop ops dp st.dev name (slots st.size) 0

def emptyLoop (dp : Slot) : Nat → Nat → Op σ Nat
  | 0, off => return off
  | left + 1, off => do
    let de ← readDirent ops dp off .dirlinkRead
    if de.inum = 0 then return off else emptyLoop dp left (off + 16)

def writeDirent (dp : Slot) (de : Dirent) (off : Nat) (why : Panic) : Op σ Unit := do
  let r ← ops.writei dp (fun k => de.bytes.getD k 0) (UInt32.ofNat off) 16
  if r ≠ 16 then throw (.panic why) else return ()

def dirlink (dp : Slot) (name : List UInt8) (inum : Nat) : Op σ Bool := do
  let found ← dirlookup ops dp name
  match found with
  | some (ip, _) => do
    ops.iput ip
    return false
  | none => do
    let st ← ops.stati dp
    let off ← emptyLoop ops dp (slots st.size) 0
    writeDirent ops dp ⟨inum, strncpy DIRSIZ name⟩ off .dirlink
    return true

def namexLoop (nameiparent : Bool) (path name : List UInt8) (ip : Slot) :
    Op σ (Option (Slot × List UInt8)) :=
  match _found : skipelem path with
  | none => do
    if nameiparent then do
      ops.iput ip
      return none
    else return some (ip, name)
  | some (name, rest) => do
    ops.ilock ip
    let st ← ops.stati ip
    if st.type ≠ tDir then do
      iunlockput ops ip
      return none
    else if nameiparent ∧ rest = [] then do
      -- Stop one level early.
      ops.iunlock ip
      return some (ip, name)
    else do
      let next ← dirlookup ops ip name
      match next with
      | none => do
        iunlockput ops ip
        return none
      | some (next, _) => do
        iunlockput ops ip
        namexLoop nameiparent rest name next
termination_by path.length
decreasing_by exact skipelem_shorter _ _ _ ‹_›

theorem namexLoop_end (nameiparent : Bool) (path name : List UInt8) (ip : Slot) (none_ : skipelem path = none) :
    namexLoop ops nameiparent path name ip =
      if nameiparent then do
        ops.iput ip
        return none
      else return some (ip, name) := by
  rw [namexLoop.eq_def]
  split
  next => rfl
  next found => simp [none_] at found

theorem namexLoop_elem (nameiparent : Bool) (path before name rest : List UInt8) (ip : Slot)
    (some_ : skipelem path = some (name, rest)) :
    namexLoop ops nameiparent path before ip = (do
      ops.ilock ip
      let st ← ops.stati ip
      if st.type ≠ tDir then do
        iunlockput ops ip
        return none
      else if nameiparent ∧ rest = [] then do
        ops.iunlock ip
        return some (ip, name)
      else do
        let next ← dirlookup ops ip name
        match next with
        | none => do
          iunlockput ops ip
          return none
        | some (next, _) => do
          iunlockput ops ip
          namexLoop ops nameiparent rest name next) := by
  rw [namexLoop.eq_def]
  split
  next found => simp [some_] at found
  next found =>
    obtain ⟨rfl, rfl⟩ := Prod.mk.inj (Option.some.inj (some_.symm.trans found))
    rfl

-- The result comes with the contents of `name`.
def namex (cwd : Slot) (path : List UInt8) (nameiparent : Bool) : Op σ (Option (Slot × List UInt8)) := do
  let ip ← if path.head? = some slash then ops.iget ROOTDEV ROOTINO else ops.idup cwd
  namexLoop ops nameiparent path [] ip

def namei (cwd : Slot) (path : List UInt8) : Op σ (Option Slot) := do
  let r ← namex ops cwd path false
  return r.map Prod.fst

def nameiparent (cwd : Slot) (path : List UInt8) : Op σ (Option (Slot × List UInt8)) :=
  namex ops cwd path true

def createDots (ip dp : Slot) : Op σ Unit := do
  let st ← ops.stati ip
  let self ← dirlink ops ip dot st.ino
  if self then do
    let st ← ops.stati dp
    let parent ← dirlink ops ip dotdot st.ino
    if parent then return () else throw (.panic .createDots)
  else throw (.panic .createDots)

-- A new directory gets its entries, and its parent a link for "..".
def createDir (ip dp : Slot) (type : Int16) : Op σ Unit := do
  if type = tDir then do
    ops.iupdate dp fun a => { a with nlink := a.nlink + 1 }
    createDots ops ip dp
  else return ()

-- A new inode, locked, with its first name in the locked directory `dp`.
def createNew (dp : Slot) (name : List UInt8) (type major minor : Int16) : Op σ (Option Slot) := do
  let dst ← ops.stati dp
  let ip ← ops.ialloc dst.dev type
  ops.ilock ip
  ops.iupdate ip fun _ => ⟨major, minor, 1⟩
  createDir ops ip dp type
  let st ← ops.stati ip
  let linked ← dirlink ops dp name st.ino
  if linked then do
    iunlockput ops dp
    return some ip
  else throw (.panic .createDirlink)

def create (cwd : Slot) (path : List UInt8) (type major minor : Int16) : Op σ (Option Slot) := do
  let parent ← nameiparent ops cwd path
  match parent with
  | none => return none
  | some (dp, name) => do
    ops.ilock dp
    let found ← dirlookup ops dp name
    match found with
    | some (ip, _) => do
      iunlockput ops dp
      ops.ilock ip
      let st ← ops.stati ip
      if type = tFile ∧ st.type = tFile then return some ip
      else do
        iunlockput ops ip
        return none
    | none => createNew ops dp name type major minor

def emptyFrom (dp : Slot) : Nat → Nat → Op σ Bool
  | 0, _ => return true
  | left + 1, off => do
    let de ← readDirent ops dp off .isdiremptyReadi
    if de.inum ≠ 0 then return false else emptyFrom dp left (off + 16)

def isdirempty (dp : Slot) : Op σ Bool := do
  let st ← ops.stati dp
  emptyFrom ops dp (slots st.size - 2) 32

end Directories

end Xv6.Fs
