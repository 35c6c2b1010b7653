import Xv6.Fs.View

set_option autoImplicit false

/-!
# Who owns a block

A block of an inode is found at a position: a direct address, the address of the indirect block, or
an entry of the indirect block. `bmap` fills an empty position with a free block and `itrunc`
empties all of them, so that a mark in the free map always has one owner.
-/

namespace Xv6.Fs

open Bytes Prog

inductive Pos where
  | direct (k : Fin NDIRECT)
  | indirect
  | entry (j : Fin NINDIRECT)
deriving DecidableEq

def ptr (blk : Nat → Block) (d : Dinode) : Pos → Nat
  | .direct k => (d.addrs k.castSucc).toNat
  | .indirect => (d.addrs (Fin.last NDIRECT)).toNat
  | .entry j =>
    if d.addrs (Fin.last NDIRECT) = 0 then 0 else entryAt (blk (d.addrs (Fin.last NDIRECT)).toNat) j

def addrPos (k : Fin (NDIRECT + 1)) : Pos :=
  if small : k.val < NDIRECT then .direct ⟨k.val, small⟩ else .indirect

def dataPos (bn : Nat) : Pos :=
  if small : bn < NDIRECT then .direct ⟨bn, small⟩
  else .entry ⟨(bn - NDIRECT) % NINDIRECT, Nat.mod_lt _ (by decide)⟩

def owner (n : Nat) (blk : Nat → Block) (ino : Nat → Dinode) (key : Nat × Pos) : Option Nat :=
  if key.1 < n ∧ (ino key.1).type ≠ 0 ∧ ptr blk (ino key.1) key.2 ≠ 0 then
    some (ptr blk (ino key.1) key.2)
  else none

/-- The free map of a view is exact for the given inodes. -/
abbrev Mapped (sb : Superblock) (v : View) (ino : Nat → Dinode) : Prop :=
  Owners.Exact sb.Meta sb.size (owner sb.ninodes v.blk ino) v.used

theorem owner_eq_some_iff (n : Nat) (blk : Nat → Block) (ino : Nat → Dinode) (i : Nat) (p : Pos) (b : Nat) :
    owner n blk ino (i, p) = some b ↔ i < n ∧ (ino i).type ≠ 0 ∧ b ≠ 0 ∧ ptr blk (ino i) p = b := by
  unfold owner
  split
  next some_ =>
    simp only [Option.some.injEq]
    constructor
    · rintro rfl
      exact ⟨some_.1, some_.2.1, some_.2.2, rfl⟩
    · exact fun h => h.2.2.2
  next none_ =>
    simp only [reduceCtorEq, false_iff]
    rintro ⟨inode, typed, positive, rfl⟩
    exact none_ ⟨inode, typed, positive⟩

theorem owner_of_ptr (n : Nat) (blk : Nat → Block) (ino : Nat → Dinode) (i : Nat) (p : Pos) (inode : i < n)
    (typed : (ino i).type ≠ 0) (some_ : ptr blk (ino i) p ≠ 0) :
    owner n blk ino (i, p) = some (ptr blk (ino i) p) :=
  (owner_eq_some_iff ..).mpr ⟨inode, typed, some_, rfl⟩

@[simp] theorem ptr_addrPos (blk : Nat → Block) (d : Dinode) (k : Fin (NDIRECT + 1)) :
    ptr blk d (addrPos k) = (d.addrs k).toNat := by
  unfold addrPos
  split
  next small => rfl
  next large =>
    have last : k = Fin.last NDIRECT := by
      apply Fin.ext
      have := k.isLt
      simp only [Fin.val_last]
      omega
    rw [last]
    rfl

theorem addrPos_direct (k : Fin NDIRECT) : addrPos k.castSucc = .direct k := by
  simp [addrPos]

@[simp] theorem addrPos_last : addrPos (Fin.last NDIRECT) = .indirect := by
  simp [addrPos]

theorem ofNat_direct {bn : Nat} (direct : bn < NDIRECT) : Fin.ofNat (NDIRECT + 1) bn = Fin.castSucc ⟨bn, direct⟩ :=
  Fin.ext (Nat.mod_eq_of_lt (by omega))

theorem dataPos_direct {bn : Nat} (direct : bn < NDIRECT) : dataPos bn = .direct ⟨bn, direct⟩ := by
  simp [dataPos, direct]

theorem addrPos_ofNat {bn : Nat} (direct : bn < NDIRECT) : addrPos (Fin.ofNat (NDIRECT + 1) bn) = dataPos bn := by
  rw [ofNat_direct direct, addrPos_direct, dataPos_direct direct]

theorem indirect_lt {bn : Nat} (inside : bn < MAXFILE) (large : ¬ bn < NDIRECT) : bn - NDIRECT < NINDIRECT := by
  simp only [MAXFILE] at inside
  omega

theorem dataPos_entry {bn : Nat} (large : ¬ bn < NDIRECT) (room : bn - NDIRECT < NINDIRECT) :
    dataPos bn = .entry ⟨bn - NDIRECT, room⟩ := by
  simp [dataPos, large, Nat.mod_eq_of_lt room]

theorem ptr_congr (blk blk' : Nat → Block) (d : Dinode) (p : Pos)
    (same : ptr blk d .indirect ≠ 0 → blk' (ptr blk d .indirect) = blk (ptr blk d .indirect)) :
    ptr blk' d p = ptr blk d p := by
  cases p with
  | direct k => rfl
  | indirect => rfl
  | entry j =>
    simp only [ptr] at *
    split
    next => rfl
    next some_ =>
      rw [same]
      intro zero
      exact some_ (UInt32.toNat_inj.mp (by simpa using zero))

theorem owner_congr (n : Nat) (blk blk' : Nat → Block) (ino : Nat → Dinode)
    (same : ∀ i x, owner n blk ino (i, .indirect) = some x → blk' x = blk x) :
    owner n blk' ino = owner n blk ino := by
  funext ⟨i, p⟩
  by_cases inode : i < n
  · by_cases typed : (ino i).type = 0
    · simp [owner, typed]
    · have moved : ptr blk' (ino i) p = ptr blk (ino i) p := by
        apply ptr_congr
        intro some_
        exact same i _ (owner_of_ptr n blk ino i .indirect inode typed some_)
      simp [owner, moved]
  · simp [owner, inode]

section Change

variable {n : Nat} {blk blk' : Nat → Block} {ino : Nat → Dinode}

/-- Storing `b` as address `k` of inode `i`: only that position changes its owner. A new indirect
block has no entries. -/
theorem owner_setAddr (i : Nat) (k : Fin (NDIRECT + 1)) (b : UInt32) (inode : i < n)
    (typed : (ino i).type ≠ 0)
    (others : ∀ j x, owner n blk ino (j, .indirect) = some x → (j = i → k ≠ Fin.last NDIRECT) →
      blk' x = blk x)
    (entries : k = Fin.last NDIRECT → ∀ j, ptr blk (ino i) (.entry j) = 0 ∧
      (b ≠ 0 → entryAt (blk' b.toNat) j = 0)) :
    owner n blk' (Function.update ino i { ino i with addrs := Function.update (ino i).addrs k b }) =
      Function.update (owner n blk ino) (i, addrPos k) (if b = 0 then none else some b.toNat) := by
  funext ⟨j, p⟩
  by_cases same : j = i
  · subst same
    set d := { ino j with addrs := Function.update (ino j).addrs k b } with hd
    have here : ∀ q, q ≠ addrPos k → ptr blk' d q = ptr blk (ino j) q := by
      intro q other
      cases q with
      | direct m =>
        have away : m.castSucc ≠ k := by
          rintro rfl
          exact other (addrPos_direct m).symm
        simp [ptr, hd, away]
      | indirect =>
        have away : Fin.last NDIRECT ≠ k := by
          rintro rfl
          exact other addrPos_last.symm
        simp [ptr, hd, away]
      | entry m =>
        by_cases last : k = Fin.last NDIRECT
        · have fresh := entries last m
          rw [fresh.1]
          by_cases zero : b = 0
          · simp [ptr, hd, last, zero]
          · simp [ptr, hd, last, zero, fresh.2 zero]
        · have kept : d.addrs (Fin.last NDIRECT) = (ino j).addrs (Fin.last NDIRECT) := by
            simp [hd, Ne.symm last]
          have moved : ptr blk' (ino j) (.entry m) = ptr blk (ino j) (.entry m) := by
            apply ptr_congr
            intro some_
            exact others j _ (owner_of_ptr n blk ino j .indirect inode typed some_) (fun _ => last)
          rw [← moved]
          simp [ptr, kept]
    by_cases key : p = addrPos k
    · subst key
      have value : ptr blk' d (addrPos k) = b.toNat := by simp [hd]
      have zero : b.toNat = 0 ↔ b = 0 := by
        rw [← UInt32.toNat_inj]
        rfl
      by_cases none_ : b = 0
      · simp [owner, value, none_]
      · have type : d.type ≠ 0 := typed
        simp [owner, value, none_, inode, type, zero]
    · have apart : ((j, p) : Nat × Pos) ≠ (j, addrPos k) := by simp [key]
      rw [Function.update_of_ne apart]
      simp only [owner, Function.update_self, here p key]
      rfl
  · have apart : ((j, p) : Nat × Pos) ≠ (i, addrPos k) := by simp [same]
    rw [Function.update_of_ne apart]
    by_cases small : j < n
    · by_cases type : (ino j).type = 0
      · simp [owner, Function.update_of_ne same, type]
      · have moved : ptr blk' (ino j) p = ptr blk (ino j) p := by
          apply ptr_congr
          intro some_
          exact others j _ (owner_of_ptr n blk ino j .indirect small type some_)
            (fun equal => absurd equal same)
        simp [owner, Function.update_of_ne same, moved]
    · simp [owner, small]

theorem owner_setEntry (i : Nat) (j : Fin NINDIRECT) (b x : Nat) (inode : i < n) (typed : (ino i).type ≠ 0)
    (held : owner n blk ino (i, .indirect) = some x) (small : b < 2 ^ 32) (positive : b ≠ 0)
    (others : ∀ m y, m ≠ i → owner n blk ino (m, .indirect) = some y → blk' y = blk y)
    (stored : blk' x = putEntry (blk x) j b) :
    owner n blk' ino = Function.update (owner n blk ino) (i, .entry j) (some b) := by
  obtain ⟨_, _, nonzero, address⟩ := (owner_eq_some_iff ..).mp held
  have address' : ((ino i).addrs (Fin.last NDIRECT)).toNat = x := address
  have some_ : (ino i).addrs (Fin.last NDIRECT) ≠ 0 := by
    intro zero
    rw [zero] at address'
    exact nonzero address'.symm
  have entries : ∀ m : Fin NINDIRECT, entryAt (blk' x) m = if m = j then b else entryAt (blk x) m := by
    intro m
    have inside : m.val < 128 := m.isLt
    have inside' : j.val < 128 := j.isLt
    rw [stored, entryAt, putEntry]
    split
    next same =>
      subst same
      rw [getLE_putLE_same _ _ _ _ (by simp only [BSIZE]; omega)]
      exact Nat.mod_eq_of_lt small
    next other =>
      have apart : m.val ≠ j.val := fun equal => other (Fin.ext equal)
      rw [getLE_putLE_disjoint _ _ _ _ _ _ (by omega), entryAt]
  funext ⟨m, p⟩
  by_cases same : m = i
  · subst same
    cases p with
    | direct k =>
      rw [Function.update_of_ne (by simp)]
      rfl
    | indirect =>
      rw [Function.update_of_ne (by simp)]
      rfl
    | entry l =>
      have value : ptr blk' (ino m) (.entry l) = entryAt (blk' x) l := by
        simp [ptr, some_, address']
      have before : ptr blk (ino m) (.entry l) = entryAt (blk x) l := by
        simp [ptr, some_, address']
      rw [entries l] at value
      by_cases key : l = j
      · subst key
        simp only [if_true] at value
        simp [owner, value, inode, typed, positive]
      · have apart : ((m, .entry l) : Nat × Pos) ≠ (m, .entry j) := by simp [key]
        rw [Function.update_of_ne apart]
        simp [owner, value, before, key]
  · have apart : ((m, p) : Nat × Pos) ≠ (i, .entry j) := by simp [same]
    rw [Function.update_of_ne apart]
    by_cases room : m < n
    · by_cases type : (ino m).type = 0
      · simp [owner, type]
      · have moved : ptr blk' (ino m) p = ptr blk (ino m) p := by
          apply ptr_congr
          intro nonempty
          exact others m _ same (owner_of_ptr n blk ino m .indirect room type nonempty)
        simp [owner, moved]
    · simp [owner, room]

end Change

section Copies

variable (c : Slot → Inode) (ip : Slot) (d e : Dinode)

def setCopy : Slot → Inode := Function.update c ip { c ip with toDinode := d }

@[simp] theorem setCopy_self : setCopy c ip d ip = { c ip with toDinode := d } := by
  simp [setCopy]

theorem setCopy_other (ip' : Slot) (other : ip' ≠ ip) : setCopy c ip d ip' = c ip' := by
  simp [setCopy, other]

@[simp] theorem setCopy_setCopy : setCopy (setCopy c ip d) ip e = setCopy c ip e := by
  simp [setCopy]

@[simp] theorem setCopy_copy : setCopy c ip (c ip).toDinode = c := by
  simp [setCopy]

end Copies

/-- Position `p` of inode `i` has block `b`, which it had or which was free. The copy of the inode
has gone from `d` to `d'`; the dinode on disk has not changed. -/
structure Grown (sb : Superblock) (i : Nat) (v v' : View) (d d' : Dinode) (p : Pos) (b : Nat) : Prop where
  ino : v'.ino = v.ino
  mapped : Mapped sb v' (Function.update v'.ino i d')
  attrs : d' = { d with addrs := d'.addrs }
  target : ptr v'.blk d' p = b
  positive : b ≠ 0
  keeps : ∀ q, ptr v.blk d q ≠ 0 → ptr v'.blk d' q = ptr v.blk d q
  blocks : ∀ key x, key ≠ (i, .indirect) →
    owner sb.ninodes v.blk (Function.update v.ino i d) key = some x → v'.blk x = v.blk x
  stable : ptr v.blk d p ≠ 0 → v' = v ∧ d' = d

section Growth

variable {sb : Superblock} {i : Nat} {v v' v'' : View} {d d' d'' : Dinode} {p q : Pos} {b b' : Nat}

theorem Grown.refl (mapped : Mapped sb v (Function.update v.ino i d)) (some_ : ptr v.blk d p ≠ 0) :
    Grown sb i v v d d p (ptr v.blk d p) :=
  ⟨rfl, mapped, rfl, rfl, some_, fun _ _ => rfl, fun _ _ _ _ => rfl, fun _ => ⟨rfl, rfl⟩⟩

theorem Grown.typed (grown : Grown sb i v v' d d' p b) (typed : d.type ≠ 0) : d'.type ≠ 0 := by
  rw [grown.attrs]
  exact typed

theorem Grown.target_owner (grown : Grown sb i v v' d d' p b) (inode : i < sb.ninodes) (typed : d.type ≠ 0) :
    owner sb.ninodes v'.blk (Function.update v'.ino i d') (i, p) = some b := by
  apply (owner_eq_some_iff ..).mpr
  simpa using ⟨inode, grown.typed typed, grown.positive, grown.target⟩

-- An entry of the indirect block that the inode has now.
theorem Grown.entry_ptr (grown : Grown sb i v v' d d' .indirect b) (k : Fin NINDIRECT) :
    ptr v'.blk d' (.entry k) = entryAt (v'.blk b) k := by
  have address : (d'.addrs (Fin.last NDIRECT)).toNat = b := grown.target
  have word : d'.addrs (Fin.last NDIRECT) ≠ 0 := by
    intro zero
    rw [zero] at address
    exact grown.positive address.symm
  simp [ptr, word, address]

theorem Grown.owner (grown : Grown sb i v v' d d' p b) (key : Nat × Pos) (x : Nat)
    (held : owner sb.ninodes v.blk (Function.update v.ino i d) key = some x) :
    owner sb.ninodes v'.blk (Function.update v'.ino i d') key = some x := by
  obtain ⟨j, q⟩ := key
  obtain ⟨inode, typed, positive, at_⟩ := (owner_eq_some_iff ..).mp held
  apply (owner_eq_some_iff ..).mpr
  by_cases same : j = i
  · subst same
    simp only [Function.update_self] at *
    have type : d'.type = d.type := by rw [grown.attrs]
    exact ⟨inode, type ▸ typed, positive, by rw [grown.keeps q (by rwa [at_]), at_]⟩
  · simp only [Function.update_of_ne same, grown.ino] at *
    have kept : ptr v'.blk (v.ino j) q = ptr v.blk (v.ino j) q := by
      apply ptr_congr
      intro some_
      have indirect := owner_of_ptr sb.ninodes v.blk (Function.update v.ino i d) j .indirect inode
        (by simpa [same] using typed) (by simpa [same] using some_)
      simp only [Function.update_of_ne same] at indirect
      exact grown.blocks (j, .indirect) _ (by simp [same]) indirect
    exact ⟨inode, typed, positive, kept.trans at_⟩

theorem Grown.trans (first : Grown sb i v v' d d' q b) (second : Grown sb i v' v'' d' d'' p b')
    (before : ptr v.blk d p ≠ 0 → ptr v.blk d q ≠ 0) : Grown sb i v v'' d d'' p b' where
  ino := second.ino.trans first.ino
  mapped := second.mapped
  attrs := by rw [second.attrs, first.attrs]
  target := second.target
  positive := second.positive
  keeps := by
    intro r some_
    have kept := first.keeps r some_
    rw [second.keeps r (by rwa [kept]), kept]
  blocks := by
    intro key x other held
    rw [second.blocks key x other (first.owner key x held), first.blocks key x other held]
  stable := by
    intro some_
    obtain ⟨rfl, rfl⟩ := first.stable (before some_)
    exact second.stable some_

end Growth

theorem entryAt_zero (j : Nat) : entryAt (fun _ => 0) j = 0 := by
  have zeros : ∀ off w, getLE (fun _ => 0 : Block) off w = 0 := by
    intro off w
    induction w generalizing off with
    | zero => rfl
    | succ w ih =>
      have byte : getByte (fun _ => 0 : Block) off = 0 := by
        unfold getByte
        split <;> rfl
      simp [getLE, ih, byte]
  exact zeros _ _

section Bmap

variable {sb : Superblock} {s : State} {v : View} {c : Slot → Inode} {ip : Slot}

theorem Mapped.marked {ino : Nat → Dinode} (mapped : Mapped sb v ino) :
    ∀ b, b < sb.size → sb.Meta b → v.used b = true :=
  fun b block reserved => (mapped.used_iff b block).mpr (Or.inl reserved)

variable (layout : Layout sb)

include layout

theorem grown_addr (i : Nat) (d : Dinode) (k : Fin (NDIRECT + 1)) (b : Nat) (inode : i < sb.ninodes)
    (typed : d.type ≠ 0) (mapped : Mapped sb v (Function.update v.ino i d)) (empty : d.addrs k = 0)
    (block : b < sb.size) (unused : v.used b = false) :
    Grown sb i v ((v.mark b true).setBlk b fun _ => 0) d
      { d with addrs := Function.update d.addrs k (UInt32.ofNat b) } (addrPos k) b := by
  obtain ⟨plain, nobody⟩ := mapped.unheld b block unused
  have word : (UInt32.ofNat b).toNat = b := by
    have := layout.size
    rw [UInt32.toNat_ofNat', Nat.mod_eq_of_lt (by omega)]
  have positive : b ≠ 0 := by
    rintro rfl
    exact plain (Or.inl rfl)
  have nonzero : UInt32.ofNat b ≠ 0 := by
    intro zero
    rw [zero] at word
    exact positive word.symm
  have apart : ∀ key x, owner sb.ninodes v.blk (Function.update v.ino i d) key = some x →
      Function.update v.blk b (fun _ => 0) x = v.blk x := by
    intro key x held
    have other : x ≠ b := by
      rintro rfl
      exact nobody key held
    exact Function.update_of_ne other _ _
  have owned : owner sb.ninodes ((v.mark b true).setBlk b fun _ => 0).blk
      (Function.update v.ino i { d with addrs := Function.update d.addrs k (UInt32.ofNat b) }) =
      Function.update (owner sb.ninodes v.blk (Function.update v.ino i d)) (i, addrPos k) (some b) := by
    have set := @owner_setAddr sb.ninodes v.blk (Function.update v.blk b fun _ => 0)
      (Function.update v.ino i d) i k (UInt32.ofNat b) inode (by simpa using typed) (fun j x held _ => apart _ x held) (by
        intro last j
        subst last
        refine ⟨by simp [ptr, empty], fun _ => ?_⟩
        rw [word, Function.update_self, entryAt_zero])
    simpa [nonzero, word] using set
  have vacant : owner sb.ninodes v.blk (Function.update v.ino i d) (i, addrPos k) = none := by
    simp [owner, empty]
  have taken := mapped.take (i, addrPos k) b vacant block unused
  refine ⟨rfl, ?_, rfl, ?_, positive, ?_, ?_, ?_⟩
  · rw [Mapped]
    simp only [View.setBlk_ino, View.mark_ino]
    rw [owned]
    exact taken
  · simp [word]
  · intro q some_
    have before : owner sb.ninodes v.blk (Function.update v.ino i d) (i, q) = some (ptr v.blk d q) := by
      apply (owner_eq_some_iff ..).mpr
      simpa using ⟨inode, typed, some_⟩
    have other : ((i, q) : Nat × Pos) ≠ (i, addrPos k) := by
      intro same
      rw [same, vacant] at before
      cases before
    rw [← Function.update_of_ne other (some b) (owner sb.ninodes v.blk (Function.update v.ino i d)),
      ← owned] at before
    have after := (owner_eq_some_iff ..).mp before
    simpa using after.2.2.2
  · exact fun key x _ held => apart key x held
  · intro some_
    simp [empty] at some_

theorem At.loadAddr (at_ : At sb s v c) (k : Fin (NDIRECT + 1)) (inode : (c ip).inum < sb.ninodes)
    (typed : (c ip).type ≠ 0)
    (mapped : Mapped sb v (Function.update v.ino (c ip).inum (c ip).toDinode)) :
    wp (loadAddr ip k)
      (fun b s' => ∃ v' d', At sb s' v' (setCopy c ip d') ∧
        Grown sb (c ip).inum v v' (c ip).toDinode d' (addrPos k) b) Stop.Limit s := by
  refine wp_seq _ _ (at_.inodeOf ip) ?_
  rintro _ _ ⟨rfl, rfl⟩
  split
  next empty =>
    refine wp_seq _ _ (at_.balloc layout mapped.marked) ?_
    rintro b s' ⟨block, unused, after⟩
    refine wp_seq _ _ (after.setInode ip _) ?_
    intro _ s'' final
    exact ⟨_, _, final, grown_addr layout _ _ k b inode typed mapped empty block unused⟩
  next some_ =>
    have nonzero : ptr v.blk (c ip).toDinode (addrPos k) ≠ 0 := by
      rw [ptr_addrPos]
      intro zero
      exact some_ (UInt32.toNat_inj.mp (by simpa using zero))
    refine ⟨v, (c ip).toDinode, by simpa using at_, ?_⟩
    simpa using Grown.refl mapped nonzero

theorem grown_entry (i : Nat) (d : Dinode) (j : Fin NINDIRECT) (b x : Nat) (inode : i < sb.ninodes)
    (typed : d.type ≠ 0) (mapped : Mapped sb v (Function.update v.ino i d)) (address : ptr v.blk d .indirect = x)
    (nonzero : x ≠ 0) (empty : entryAt (v.blk x) j = 0) (block : b < sb.size) (unused : v.used b = false) :
    Grown sb i v (((v.mark b true).setBlk b fun _ => 0).setBlk x (putEntry (v.blk x) j b)) d d
      (.entry j) b := by
  obtain ⟨plain, nobody⟩ := mapped.unheld b block unused
  have small : b < 2 ^ 32 := by
    have := layout.size
    omega
  have positive : b ≠ 0 := by
    rintro rfl
    exact plain (Or.inl rfl)
  have held : owner sb.ninodes v.blk (Function.update v.ino i d) (i, .indirect) = some x := by
    apply (owner_eq_some_iff ..).mpr
    simpa using ⟨inode, typed, nonzero, address⟩
  have apart : ∀ key y, key ≠ (i, .indirect) →
      owner sb.ninodes v.blk (Function.update v.ino i d) key = some y →
      Function.update (Function.update v.blk b fun _ => 0) x (putEntry (v.blk x) j b) y = v.blk y := by
    intro key y other owned
    have away : y ≠ x := by
      rintro rfl
      exact other (mapped.once _ _ _ owned held)
    have fresh : y ≠ b := by
      rintro rfl
      exact nobody key owned
    rw [Function.update_of_ne away, Function.update_of_ne fresh]
  have owned := @owner_setEntry sb.ninodes v.blk
    (Function.update (Function.update v.blk b fun _ => 0) x (putEntry (v.blk x) j b))
    (Function.update v.ino i d) i j b x inode (by simpa using typed) held small positive
    (fun m y other owned => apart (m, .indirect) y (by simp [other]) owned) (by simp)
  have word : d.addrs (Fin.last NDIRECT) ≠ 0 := by
    intro zero
    simp only [ptr, zero] at address
    exact nonzero address.symm
  have value : ptr v.blk d (.entry j) = 0 := by
    have address' : (d.addrs (Fin.last NDIRECT)).toNat = x := address
    simp [ptr, word, address', empty]
  have vacant : owner sb.ninodes v.blk (Function.update v.ino i d) (i, .entry j) = none := by
    simp [owner, value]
  have taken := mapped.take (i, .entry j) b vacant block unused
  have after : ∀ q y, Function.update (owner sb.ninodes v.blk (Function.update v.ino i d)) (i, .entry j)
      (some b) (i, q) = some y →
      ptr (((v.mark b true).setBlk b fun _ => 0).setBlk x (putEntry (v.blk x) j b)).blk d q = y := by
    intro q y held
    rw [← owned] at held
    simpa using ((owner_eq_some_iff ..).mp held).2.2.2
  refine ⟨rfl, ?_, rfl, ?_, positive, ?_, ?_, ?_⟩
  · rw [Mapped]
    simp only [View.setBlk_ino, View.mark_ino, View.setBlk_blk, View.mark_blk]
    rw [owned]
    exact taken
  · exact after (.entry j) b (Function.update_self ..)
  · intro q some_
    have other : ((i, q) : Nat × Pos) ≠ (i, .entry j) := by
      intro same
      cases same
      exact some_ value
    apply after q
    rw [Function.update_of_ne other]
    apply (owner_eq_some_iff ..).mpr
    simpa using ⟨inode, typed, some_⟩
  · exact apart
  · exact fun some_ => absurd value some_

-- The steps go by the rules of `wp`; to unfold it would evaluate the rest of the program.
attribute [local irreducible] wp

theorem At.bmap (at_ : At sb s v c) (bn : Nat) (inside : bn < MAXFILE) (inode : (c ip).inum < sb.ninodes)
    (typed : (c ip).type ≠ 0)
    (mapped : Mapped sb v (Function.update v.ino (c ip).inum (c ip).toDinode)) :
    wp (bmap ip bn)
      (fun b s' => ∃ v' d', At sb s' v' (setCopy c ip d') ∧
        Grown sb (c ip).inum v v' (c ip).toDinode d' (dataPos bn) b) Stop.Limit s := by
  unfold Fs.bmap
  split
  next direct =>
    rw [← addrPos_ofNat direct]
    exact at_.loadAddr layout _ inode typed mapped
  next large =>
    have room := indirect_lt inside large
    rw [if_pos room, dataPos_entry large room]
    refine wp_seq _ _ (at_.loadAddr layout (Fin.last NDIRECT) inode typed mapped) ?_
    rintro x s₁ ⟨v₁, d₁, at₁, first⟩
    rw [addrPos_last] at first
    have typed₁ := first.typed typed
    have held := first.target_owner inode typed
    have before : ∀ j, ptr v.blk (c ip).toDinode (.entry j) ≠ 0 →
        ptr v.blk (c ip).toDinode .indirect ≠ 0 := by
      intro j some_ zero
      apply some_
      have word : (c ip).addrs (Fin.last NDIRECT) = 0 := UInt32.toNat_inj.mp (by simpa [ptr] using zero)
      simp [ptr, word]
    have plain := (first.mapped.inside _ _ held).2
    refine wp_seq _ _ (at₁.bread x plain) ?_
    rintro _ _ ⟨rfl, rfl⟩
    split
    next empty =>
      refine wp_seq _ _ (at₁.balloc layout first.mapped.marked) ?_
      rintro b s₂ ⟨block, unused, at₂⟩
      have away : x ≠ b := by
        rintro rfl
        exact (first.mapped.unheld x block unused).2 _ held
      refine wp_seq _ _ (at₂.bread x plain) ?_
      rintro _ _ ⟨rfl, rfl⟩
      refine wp_seq _ _ (at₂.logWrite_data x _ plain) ?_
      intro _ s₃ at₃
      have second := grown_entry layout (c ip).inum d₁ ⟨bn - NDIRECT, room⟩ b x inode typed₁
        first.mapped first.target first.positive empty block unused
      rw [wp_pure]
      refine ⟨_, d₁, ?_, first.trans second (before _)⟩
      simpa [Function.update_of_ne away] using at₃
    next some_ =>
      have value := first.entry_ptr ⟨bn - NDIRECT, room⟩
      have second := Grown.refl first.mapped (p := .entry ⟨bn - NDIRECT, room⟩) (by rwa [value])
      rw [value] at second
      rw [wp_pure]
      exact ⟨v₁, d₁, at₁, first.trans second (before _)⟩

end Bmap

end Xv6.Fs
