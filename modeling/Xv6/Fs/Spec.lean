import Xv6.Fs.Dir

set_option autoImplicit false

/-!
# The specification of the inode layer

An inode is its attributes and an array of bytes. There are no blocks, no free map and no copies;
what is left of the cache is who refers to which inode, and the two flags. An operation outside its
contract stops with `misuse`.
-/

namespace Xv6.Fs

structure Node where
  type : Int16
  major : Int16
  minor : Int16
  nlink : Int16
  data : List UInt8
deriving DecidableEq

def Node.free : Node := ⟨0, 0, 0, 0, []⟩

structure Nodes where
  count : Nat
  cache : Slot → Entry
  node : Nat → Node

namespace Nodes

def setEntry (a : Nodes) (ip : Slot) (e : Entry) : Nodes := { a with cache := Function.update a.cache ip e }

def setNode (a : Nodes) (i : Nat) (n : Node) : Nodes := { a with node := Function.update a.node i n }

@[simp] theorem setEntry_node (a : Nodes) (ip : Slot) (e : Entry) : (a.setEntry ip e).node = a.node := rfl

@[simp] theorem setEntry_cache (a : Nodes) (ip : Slot) (e : Entry) :
    (a.setEntry ip e).cache = Function.update a.cache ip e := rfl

@[simp] theorem setNode_cache (a : Nodes) (i : Nat) (n : Node) : (a.setNode i n).cache = a.cache := rfl

@[simp] theorem setNode_node (a : Nodes) (i : Nat) (n : Node) :
    (a.setNode i n).node = Function.update a.node i n := rfl

end Nodes

namespace Spec

def ilock (ip : Slot) : Op Nodes Unit := fun a =>
  let e := a.cache ip
  if e.ref < 1 then .error (.panic .ilock)
  else if e.busy then .error .asleep
  else if e.valid = false ∧ (a.node e.inum).type = 0 then .error (.panic .ilockNoType)
  else .ok ((), a.setEntry ip { e with busy := true, valid := true })

theorem ilock_defined (ip : Slot) (a : Nodes) : ilock ip a ≠ .error .misuse := by
  unfold ilock
  dsimp only
  split_ifs <;> simp

theorem ilock_ok {ip : Slot} {a a' : Nodes} {u : Unit} (locked : ilock ip a = .ok (u, a')) :
    (a.cache ip).busy = false ∧ a' = a.setEntry ip { a.cache ip with busy := true, valid := true } := by
  unfold ilock at locked
  dsimp only at locked
  split_ifs at locked with dead busy free
  exact ⟨by simpa using busy, (Prod.mk.inj (Except.ok.inj locked)).2.symm⟩

def iunlock (ip : Slot) : Op Nodes Unit := fun a =>
  let e := a.cache ip
  if e.busy = false ∨ e.ref < 1 then .error (.panic .iunlock)
  else .ok ((), a.setEntry ip { e with busy := false })

theorem iunlock_defined (ip : Slot) (a : Nodes) : iunlock ip a ≠ .error .misuse := by
  unfold iunlock
  dsimp only
  split_ifs <;> simp

theorem iunlock_ok {ip : Slot} {a a' : Nodes} {u : Unit} (unlocked : iunlock ip a = .ok (u, a')) :
    a' = a.setEntry ip { a.cache ip with busy := false } := by
  unfold iunlock at unlocked
  dsimp only at unlocked
  split_ifs at unlocked
  exact (Prod.mk.inj (Except.ok.inj unlocked)).2.symm

-- Entries of inodes that may be looked at: referred to, and loaded.
def Usable (e : Entry) : Prop := 0 < e.ref ∧ e.valid = true

instance (e : Entry) : Decidable (Usable e) := by
  unfold Usable
  infer_instance

-- What a read of `n` bytes at `off` returns.
def readBytes (n : Node) (off len : UInt32) (console : Int) : Int × List UInt8 :=
  let size := UInt32.ofNat n.data.length
  if n.type = tDev then
    if n.major.toInt = CONSOLE then (console, []) else (-1, [])
  else if off > size ∨ off + len < off then (-1, [])
  else
    let len := if off + len > size then size - off else len
    (Sys.int len, (n.data.drop off.toNat).take len.toNat)

/-- The array with the `len` bytes from `off` on replaced, longer if it ended before. -/
def splice (data : List UInt8) (off len : Nat) (src : Nat → UInt8) : List UInt8 :=
  data.take off ++ (List.range len).map src ++ data.drop (off + len)

theorem splice_length (data : List UInt8) (off len : Nat) (src : Nat → UInt8) (start : off ≤ data.length) :
    (splice data off len src).length = max data.length (off + len) := by
  simp only [splice, List.length_append, List.length_take, List.length_map, List.length_range,
    List.length_drop]
  omega

theorem splice_getElem? (data : List UInt8) (off len k : Nat) (src : Nat → UInt8) (start : off ≤ data.length) :
    (splice data off len src)[k]? = if off ≤ k ∧ k < off + len then some (src (k - off)) else data[k]? := by
  have taken : (data.take off).length = off := by simp [start]
  by_cases before : k < off
  · rw [if_neg (by omega), splice, List.append_assoc, List.getElem?_append_left (by omega),
      List.getElem?_take_of_lt before]
  · by_cases inside : k < off + len
    · rw [if_pos ⟨by omega, inside⟩, splice, List.append_assoc, List.getElem?_append_right (by omega), taken,
        List.getElem?_append_left (by simp; omega), List.getElem?_map, List.getElem?_range (by omega)]
      rfl
    · rw [if_neg (by omega), splice, List.append_assoc, List.getElem?_append_right (by omega), taken,
        List.getElem?_append_right (by simp; omega), List.length_map, List.length_range, List.getElem?_drop]
      congr 1
      omega

def writeBytes (n : Node) (src : Nat → UInt8) (off len : UInt32) : Int × Node :=
  let size := UInt32.ofNat n.data.length
  if n.type = tDev then
    if n.major.toInt = CONSOLE then (Sys.int len, n) else (-1, n)
  else if off > size ∨ off + len < off then (-1, n)
  else if (off + len).toNat > MAXFILE * BSIZE then (-1, n)
  else (Sys.int len, { n with data := splice n.data off.toNat len.toNat src })

def writei (ip : Slot) (src : Nat → UInt8) (off len : UInt32) : Op Nodes Int := fun a =>
  let e := a.cache ip
  if Usable e then
    let r := writeBytes (a.node e.inum) src off len
    .ok (r.1, a.setNode e.inum r.2)
  else .error .misuse

end Spec

end Xv6.Fs
