import Xv6.Fs.Content
import Xv6.Fs.Spec

set_option autoImplicit false

/-!
# The inode layer meets its specification

A view of the disk with the copies in the cache stands for a state of the specification when the
free map is exact, no block map has holes and every valid copy is the inode on disk. Every
operation of the inode layer leads from such a state to such a state.
-/

namespace Xv6.Fs

open Bytes Prog

def nodeOf (blk : Nat → Block) (d : Dinode) : Node :=
  if d.type = 0 then Node.free else ⟨d.type, d.major, d.minor, d.nlink, content blk d⟩

theorem nodeOf_typed (blk : Nat → Block) (d : Dinode) (typed : d.type ≠ 0) :
    nodeOf blk d = ⟨d.type, d.major, d.minor, d.nlink, content blk d⟩ := if_neg typed

@[simp] theorem nodeOf_type (blk : Nat → Block) (d : Dinode) : (nodeOf blk d).type = d.type := by
  unfold nodeOf
  split
  next free => simp [Node.free, free]
  next => rfl

theorem content_length (blk : Nat → Block) (d : Dinode) : (content blk d).length = d.size.toNat := by
  simp [content]

theorem untouched (n : Nat) (blk blk' : Nat → Block) (ino : Nat → Dinode) (j : Nat) (inode : j < n)
    (typed : (ino j).type ≠ 0) (covered : Covered blk (ino j))
    (same : ∀ q x, owner n blk ino (j, q) = some x → blk' x = blk x) :
    Covered blk' (ino j) ∧ nodeOf blk' (ino j) = nodeOf blk (ino j) := by
  have indirect : ptr blk (ino j) .indirect ≠ 0 →
      blk' (ptr blk (ino j) .indirect) = blk (ptr blk (ino j) .indirect) :=
    fun some_ => same .indirect _ (owner_of_ptr n blk ino j .indirect inode typed some_)
  have ptrs := fun q => ptr_congr blk blk' (ino j) q indirect
  refine ⟨⟨covered.fits, fun k below => by rw [ptrs]; exact covered.filled k below⟩, ?_⟩
  have bytes : content blk' (ino j) = content blk (ino j) := by
    apply List.map_congr_left
    intro k member
    have some_ := covered.filled k (List.mem_range.mp member)
    exact fileByte_congr blk blk' (ino j) k indirect
      (same _ _ (owner_of_ptr n blk ino j _ inode typed some_))
  rw [nodeOf_typed _ _ typed, nodeOf_typed _ _ typed, bytes]

structure Holds (sb : Superblock) (v : View) (c : Slot → Inode) (a : Nodes) : Prop where
  count : a.count = sb.ninodes
  mapped : Mapped sb v v.ino
  covered : ∀ i, i < sb.ninodes → (v.ino i).type ≠ 0 → Covered v.blk (v.ino i)
  node : ∀ i, i < sb.ninodes → a.node i = nodeOf v.blk (v.ino i)
  entry : ∀ ip, a.cache ip = (c ip).toEntry
  nonneg : ∀ ip, 0 ≤ (c ip).ref
  live : ∀ ip, 0 < (c ip).ref → (c ip).dev = ROOTDEV ∧ 0 < (c ip).inum ∧ (c ip).inum < sb.ninodes
  unique : ∀ ip ip', 0 < (c ip).ref → 0 < (c ip').ref → (c ip).inum = (c ip').inum → ip = ip'
  copy : ∀ ip, 0 < (c ip).ref → (c ip).valid = true →
    (c ip).toDinode = v.ino (c ip).inum ∧ (v.ino (c ip).inum).type ≠ 0

/-- The state of the code stands for a state of the specification. -/
def Rep (sb : Superblock) (s : State) (a : Nodes) : Prop := ∃ v c, At sb s v c ∧ Holds sb v c a

def fsLink (sb : Superblock) : Link State Nodes Stop := ⟨Rep sb, Stop.Limit, .misuse⟩

section Changes

variable {sb : Superblock} {v : View} {c : Slot → Inode} {a : Nodes}

theorem Holds.setSlot (holds : Holds sb v c a) (ip : Slot) (x : Inode) (nonneg : 0 ≤ x.ref)
    (live : 0 < x.ref → x.dev = ROOTDEV ∧ 0 < x.inum ∧ x.inum < sb.ninodes)
    (unique : 0 < x.ref → ∀ ip', ip' ≠ ip → 0 < (c ip').ref → (c ip').inum ≠ x.inum)
    (copy : 0 < x.ref → x.valid = true → x.toDinode = v.ino x.inum ∧ (v.ino x.inum).type ≠ 0) :
    Holds sb v (Function.update c ip x) (a.setEntry ip x.toEntry) where
  count := holds.count
  mapped := holds.mapped
  covered := holds.covered
  node := holds.node
  entry ip' := by
    by_cases same : ip' = ip
    · subst same
      simp
    · simp [same, holds.entry ip']
  nonneg ip' := by
    by_cases same : ip' = ip
    · subst same
      simpa using nonneg
    · simpa [same] using holds.nonneg ip'
  live ip' := by
    by_cases same : ip' = ip
    · subst same
      simpa using live
    · simpa [same] using holds.live ip'
  unique ip' ip'' := by
    by_cases one : ip' = ip <;> by_cases two : ip'' = ip
    · intro _ _ _
      rw [one, two]
    · subst one
      simp only [Function.update_self, Function.update_of_ne two]
      intro here there equal
      exact absurd equal.symm (unique here ip'' two there)
    · subst two
      simp only [Function.update_self, Function.update_of_ne one]
      intro there here equal
      exact absurd equal (unique here ip' one there)
    · simpa [one, two] using holds.unique ip' ip''
  copy ip' := by
    by_cases same : ip' = ip
    · subst same
      simpa using copy
    · simpa [same] using holds.copy ip'

theorem Holds.touch (holds : Holds sb v c a) (ip : Slot) (here : 0 < (c ip).ref) (ref : Int) (nonneg : 0 ≤ ref)
    (busy : Bool) :
    Holds sb v (Function.update c ip { c ip with ref := ref, busy := busy })
      (a.setEntry ip { (c ip).toEntry with ref := ref, busy := busy }) :=
  holds.setSlot ip _ nonneg (fun _ => holds.live ip here)
    (fun _ ip' other there equal => other (holds.unique ip' ip there here equal))
    (fun _ valid => holds.copy ip here valid)

theorem Holds.setInode (holds : Holds sb v c a) (ip : Slot) (v' : View) (d' : Dinode)
    (live : 0 < (c ip).ref) (valid : (c ip).valid = true) (typed : d'.type ≠ 0)
    (ino : v'.ino = Function.update v.ino (c ip).inum d') (mapped : Mapped sb v' v'.ino)
    (covered : Covered v'.blk d')
    (others : ∀ j q x, j ≠ (c ip).inum → owner sb.ninodes v.blk v.ino (j, q) = some x →
      v'.blk x = v.blk x) :
    Holds sb v' (setCopy c ip d') (a.setNode (c ip).inum (nodeOf v'.blk d')) := by
  have kept : ∀ j, j < sb.ninodes → j ≠ (c ip).inum → (v.ino j).type ≠ 0 →
      Covered v'.blk (v.ino j) ∧ nodeOf v'.blk (v.ino j) = nodeOf v.blk (v.ino j) := by
    intro j inode other type
    exact untouched sb.ninodes v.blk v'.blk v.ino j inode type (holds.covered j inode type)
      fun q x held => others j q x other held
  have entries : ∀ ip', (setCopy c ip d' ip').toEntry = (c ip').toEntry := by
    intro ip'
    by_cases same : ip' = ip
    · subst same
      simp
    · rw [setCopy_other c ip d' ip' same]
  have inums : ∀ ip', 0 < (c ip').ref → ip' ≠ ip → (c ip').inum ≠ (c ip).inum :=
    fun ip' here other equal => other (holds.unique ip' ip here live equal)
  constructor
  case count => exact holds.count
  case mapped => exact mapped
  case covered =>
    intro i inode type
    rw [ino] at type ⊢
    by_cases same : i = (c ip).inum
    · subst same
      simpa using covered
    · rw [Function.update_of_ne same] at type ⊢
      exact (kept i inode same type).1
  case node =>
    intro i inode
    rw [ino, Nodes.setNode_node]
    by_cases same : i = (c ip).inum
    · subst same
      simp
    · rw [Function.update_of_ne same, Function.update_of_ne same, holds.node i inode]
      by_cases type : (v.ino i).type = 0
      · rw [nodeOf, nodeOf, if_pos type, if_pos type]
      · exact (kept i inode same type).2.symm
  case entry =>
    intro ip'
    rw [Nodes.setNode_cache, holds.entry ip', entries ip']
  case nonneg =>
    intro ip'
    rw [show (setCopy c ip d' ip').ref = (c ip').ref from congrArg Entry.ref (entries ip')]
    exact holds.nonneg ip'
  case live =>
    intro ip'
    have same := entries ip'
    rw [same]
    exact holds.live ip'
  case unique =>
    intro ip' ip''
    rw [entries ip', entries ip'']
    exact holds.unique ip' ip''
  case copy =>
    intro ip'
    by_cases same : ip' = ip
    · subst same
      simp only [setCopy_self, ino, Function.update_self]
      exact fun _ _ => ⟨trivial, typed⟩
    · rw [setCopy_other c ip d' ip' same, ino]
      intro here valid'
      rw [Function.update_of_ne (inums ip' here same)]
      exact holds.copy ip' here valid'

end Changes

section Cache

variable {sb : Superblock}

theorem iunlock_refines (ip : Slot) : (fsLink sb).Refines (iunlock ip) (Spec.iunlock ip) := by
  rintro s a ⟨v, c, at_, holds⟩ _
  refine Link.refines_seq (at_.inodeOf ip) ?_
  rintro _ _ ⟨rfl, rfl⟩
  split
  next bad => exact Or.inr (by simp only [Spec.iunlock, holds.entry]; rw [if_pos bad])
  next good =>
    have here : 0 < (c ip).ref := by
      simp only [not_or] at good
      omega
    refine Link.refines_at (at_.setInode ip _) ?_
    intro _ s' final
    refine ⟨_, by simp only [Spec.iunlock, holds.entry]; rw [if_neg good], v, _, final, ?_⟩
    exact holds.touch _ here _ (by omega) _

theorem ilock_refines (ip : Slot) : (fsLink sb).Refines (ilock ip) (Spec.ilock ip) := by
  rintro s a ⟨v, c, at_, holds⟩ _
  simp only [ilock, wp_bind, wp_get]
  refine wp_mono _ (at_.inodeOf ip) ?_ fun _ limit => Or.inl limit
  rintro _ _ ⟨rfl, rfl⟩
  split
  next bad => exact Or.inr (by simp only [Spec.ilock, holds.entry]; rw [if_pos bad])
  next good =>
    have here : 0 < (c ip).ref := by omega
    have inode := (holds.live ip here).2.2
    split
    next busy => exact Or.inr (by simp only [Spec.ilock, holds.entry]; rw [if_neg good, if_pos busy])
    next free =>
      refine Link.refines_seq (at_.setInode ip _) ?_
      intro _ s₁ at₁
      split
      next valid =>
        refine ⟨a.setEntry ip { a.cache ip with busy := true }, ?_, v, _, at₁, ?_⟩
        · have loaded : ¬ ((c ip).valid = false ∧ (a.node (c ip).inum).type = 0) := by simp [valid]
          simp only [Spec.ilock, holds.entry]
          rw [if_neg good, if_neg free, if_neg loaded]
          rw [← valid]
        · rw [holds.entry]
          exact holds.touch _ here _ (by omega) _
      next stale =>
        have load : getDinode (s₁.disk (iblock sb (c ip).inum)) ((c ip).inum % IPB) = v.ino (c ip).inum :=
          at₁.shows.ino _ inode
        have type : (a.node (c ip).inum).type = (v.ino (c ip).inum).type := by
          rw [holds.node _ inode, nodeOf_type]
        have invalid : (c ip).valid = false := by simpa using stale
        simp only [wp_bind, bread, wp_get, wp_pure, at_.super, load]
        refine wp_mono _ (at₁.setInode ip _) ?_ fun _ limit => Or.inl limit
        intro _ s₂ at₂
        simp only [Function.update_self, Function.update_idem] at at₂
        split
        next zero =>
          refine Or.inr ?_
          simp only [Spec.ilock, holds.entry]
          rw [if_neg good, if_neg free, if_pos ⟨invalid, type.trans zero⟩]
        next typed =>
          refine ⟨a.setEntry ip { a.cache ip with busy := true, valid := true }, ?_, v, _, at₂, ?_⟩
          · have loaded : ¬ ((c ip).valid = false ∧ (a.node (c ip).inum).type = 0) := by
              rw [type]
              exact fun both => typed both.2
            simp only [Spec.ilock, holds.entry]
            rw [if_neg good, if_neg free, if_neg loaded]
          · rw [holds.entry]
            refine holds.setSlot _ _ (by simp only; omega) (fun _ => holds.live _ here) ?_ ?_
            · exact fun _ ip' other there equal => other (holds.unique ip' _ there here equal)
            · exact fun _ _ => ⟨rfl, typed⟩

variable {s : State} {v : View} {c : Slot → Inode} {ip : Slot} (layout : Layout sb)

include layout

end Cache

end Xv6.Fs
