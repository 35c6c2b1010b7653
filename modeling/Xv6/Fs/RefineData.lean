import Xv6.Fs.Refine

set_option autoImplicit false

/-!
# Contents meet their specification

`readi` and `writei`: an inode is an array of bytes with attributes, whatever blocks hold it.
-/

namespace Xv6.Fs

open Bytes Prog

section Attributes

variable {n : Nat} {blk : Nat → Block} {ino : Nat → Dinode} {d d' : Dinode}

theorem ptr_addrs (same : d'.addrs = d.addrs) (p : Pos) : ptr blk d' p = ptr blk d p := by
  cases p <;> simp [ptr, same]

theorem fileByte_addrs (same : d'.addrs = d.addrs) : fileByte blk d' = fileByte blk d := by
  funext k
  rw [fileByte, fileByte, ptr_addrs same]

theorem owner_attrs (i : Nat) (type : d'.type = d.type) (addrs : d'.addrs = d.addrs) :
    owner n blk (Function.update ino i d') = owner n blk (Function.update ino i d) := by
  funext ⟨j, p⟩
  by_cases same : j = i
  · subst same
    simp [owner, type, ptr_addrs addrs]
  · simp [owner, same]

theorem owner_blank (i : Nat) (blank : ∀ k, d.addrs k = 0) (free : (ino i).type = 0) :
    owner n blk (Function.update ino i d) = owner n blk ino := by
  have none_ : ∀ p, ptr blk d p = 0 := by
    intro p
    cases p <;> simp [ptr, blank]
  funext key
  obtain ⟨j, p⟩ := key
  by_cases same : j = i
  · subst same
    simp [owner, none_, free]
  · simp [owner, same]

end Attributes

section Words

theorem add_toNat_of_no_wrap (off len : UInt32) (fits : ¬ off + len < off) :
    (off + len).toNat = off.toNat + len.toNat := by
  have one := off.toNat_lt
  have two := len.toNat_lt
  rw [UInt32.lt_iff_toNat_lt, UInt32.toNat_add] at fits
  rw [UInt32.toNat_add]
  omega

theorem clipped (off len size : UInt32) (start : ¬ off > size) (fits : ¬ off + len < off) :
    off.toNat + (if off + len > size then size - off else len).toNat ≤ size.toNat := by
  have sum := add_toNat_of_no_wrap off len fits
  have low : off.toNat ≤ size.toNat := by
    rw [gt_iff_lt, UInt32.lt_iff_toNat_lt] at start
    omega
  split
  next =>
    rw [UInt32.toNat_sub_of_le size off (by rwa [UInt32.le_iff_toNat_le])]
    omega
  next below =>
    rw [gt_iff_lt, UInt32.lt_iff_toNat_lt, sum] at below
    omega

end Words

theorem drop_take_map_range {α : Type} (f : Nat → α) (m off n : Nat) (inside : off + n ≤ m) :
    (((List.range m).map f).drop off).take n = (List.range n).map fun k => f (off + k) := by
  apply List.ext_getElem
  · simp
    omega
  · intro k _ _
    simp

theorem Wrote.content {sb : Superblock} {i : Nat} {v v' : View} {d d' d'' : Dinode} {off len : Nat}
    {src : Nat → UInt8}
    (wrote : Wrote sb i v v' d d' off (off + len) fun k => src (k - off)) (covered : Covered v.blk d)
    (start : off ≤ d.size.toNat) (fits : off + len ≤ MAXFILE * BSIZE) (addrs : d''.addrs = d'.addrs)
    (size : d''.size.toNat = max d.size.toNat (off + len)) :
    Covered v'.blk d'' ∧ content v'.blk d'' = Spec.splice (content v.blk d) off len src := by
  have old := covered.fits
  have limit : d''.size.toNat ≤ MAXFILE * BSIZE := by omega
  refine ⟨⟨limit, ?_⟩, ?_⟩
  · intro k below
    rw [ptr_addrs addrs]
    by_cases new : off ≤ k ∧ k < off + len
    · exact wrote.filled k new.1 new.2
    · have some_ := covered.filled k (by omega)
      rwa [wrote.keeps _ some_]
  · apply List.ext_getElem?
    intro k
    rw [Spec.splice_getElem? _ _ _ _ _ (by rwa [content_length])]
    simp only [Fs.content, List.getElem?_map, fileByte_addrs addrs]
    by_cases new : off ≤ k ∧ k < off + len
    · rw [if_pos new, List.getElem?_range (by omega), Option.map_some, wrote.inside k new.1 new.2]
    · rw [if_neg new]
      by_cases below : k < d.size.toNat
      · rw [List.getElem?_range (by omega), List.getElem?_range below, Option.map_some, Option.map_some,
          wrote.outside k (by omega) new (covered.filled k below)]
      · rw [List.getElem?_eq_none (by simp; omega), List.getElem?_eq_none (by simp; omega)]
        rfl

section Operations

variable {sb : Superblock}

theorem Holds.usable {v : View} {c : Slot → Inode} {a : Nodes} (holds : Holds sb v c a) (ip : Slot)
    (usable : Spec.Usable (a.cache ip)) :
    0 < (c ip).ref ∧ (c ip).valid = true ∧ (c ip).inum < sb.ninodes ∧
      (c ip).toDinode = v.ino (c ip).inum ∧ (c ip).type ≠ 0 ∧ Covered v.blk (c ip).toDinode ∧
      Mapped sb v (Function.update v.ino (c ip).inum (c ip).toDinode) ∧
      a.node (a.cache ip).inum =
        ⟨(c ip).type, (c ip).major, (c ip).minor, (c ip).nlink, content v.blk (c ip).toDinode⟩ := by
  rw [holds.entry] at usable ⊢
  obtain ⟨here, valid⟩ := usable
  have inode := (holds.live ip here).2.2
  obtain ⟨copied, typed⟩ := holds.copy ip here valid
  have type : (c ip).type ≠ 0 := by rwa [copied]
  refine ⟨here, valid, inode, copied, type, ?_, ?_, ?_⟩
  · rw [copied]
    exact holds.covered _ inode typed
  · rw [copied, Function.update_eq_self]
    exact holds.mapped
  · rw [holds.node _ inode, ← copied, nodeOf_typed _ _ type]

theorem beginOp_refines : (fsLink sb).Refines beginOp (pure ()) := by
  rintro s a ⟨v, c, at_, holds⟩ _
  simp only [beginOp, wp_bind, wp_get]
  split
  next => exact Or.inl trivial
  next log _ => exact ⟨a, rfl, v, c, ⟨at_.super, at_.shows, at_.cache⟩, holds⟩

theorem endOp_refines : (fsLink sb).Refines endOp (pure ()) := by
  rintro s a ⟨v, c, at_, holds⟩ _
  simp only [endOp, wp_bind, wp_get]
  split
  next why stops =>
    left
    simp only [Xv6.endOp] at stops
    split_ifs at stops
    cases stops
    exact Or.inr (Or.inr (Or.inr rfl))
  next log _ => exact ⟨a, rfl, v, c, ⟨at_.super, at_.shows, at_.cache⟩, holds⟩
  next log _ => exact ⟨a, rfl, v, c, ⟨at_.super, at_.shows, at_.cache⟩, holds⟩

theorem readi_eq {s : State} {v : View} {c : Slot → Inode} {a : Nodes} (at_ : At sb s v c) (holds : Holds sb v c a)
    (ip : Slot) (usable : Spec.Usable (a.cache ip)) (off len : UInt32) (console : Int) :
    readi ip off len console s = .ok (Spec.readBytes (a.node (a.cache ip).inum) off len console, s) := by
  obtain ⟨_, _, inode, _, typed, covered, mapped, node⟩ := holds.usable ip usable
  have size : UInt32.ofNat (content v.blk (c ip).toDinode).length = (c ip).size := by
    rw [content_length, UInt32.ofNat_toNat]
  have entry : inodeOf ip s = .ok (c ip, s) := by
    rw [← at_.cache]
    rfl
  rw [readi, bind_ok entry, node]
  simp only [Spec.readBytes, size]
  by_cases device : (c ip).type = tDev
  · rw [if_pos device, if_pos device]
    split <;> rfl
  · rw [if_neg device, if_neg device]
    by_cases outside : off > (c ip).size ∨ off + len < off
    · rw [if_pos outside, if_pos outside]
      rfl
    · rw [if_neg outside, if_neg outside]
      rw [not_or] at outside
      set rest := if off + len > (c ip).size then (c ip).size - off else len with hrest
      have bound : off.toNat + rest.toNat ≤ (c ip).size.toNat := clipped off len (c ip).size outside.1 outside.2
      have fits := covered.fits
      have bytes := at_.readChunks rest.toNat off.toNat 0 rest.toNat (by omega)
        (by simp only [Nat.sub_zero]; omega)
        (fun k _ below => covered.filled k (by simp only [Nat.sub_zero] at below; omega)) inode typed mapped
      rw [content, drop_take_map_range _ _ _ _ bound]
      refine (bind_ok bytes).trans ?_
      rw [Nat.sub_zero]
      rfl

theorem Holds.wrote {v v' v'' : View} {c : Slot → Inode} {a : Nodes} {ip : Slot} {d' d'' : Dinode} {off len : Nat}
    {src : Nat → UInt8} (holds : Holds sb v c a) (usable : Spec.Usable (a.cache ip))
    (wrote : Wrote sb (c ip).inum v v' (c ip).toDinode d' off (off + len) fun k => src (k - off))
    (start : off ≤ (c ip).size.toNat) (fits : off + len ≤ MAXFILE * BSIZE)
    (size : d''.size.toNat = max (c ip).size.toNat (off + len)) (attrs : d'' = { d' with size := d''.size })
    (ino : v''.ino = Function.update v.ino (c ip).inum d'') (used : v''.used = v'.used) (blk : v''.blk = v'.blk) :
    Holds sb v'' (setCopy c ip d'') (a.setNode (a.cache ip).inum { a.node (a.cache ip).inum with
      data := Spec.splice (a.node (a.cache ip).inum).data off len src }) := by
  obtain ⟨here, valid, inode, copied, typed, covered, mapped, node⟩ := holds.usable ip usable
  have addrs : d''.addrs = d'.addrs := by rw [attrs]
  have type : d''.type = (c ip).type := by rw [attrs, wrote.attrs]
  have after := wrote.content covered start fits addrs size
  have moved : Mapped sb v'' v''.ino := by
    have same := wrote.mapped
    rw [wrote.ino, Mapped, ← @owner_attrs sb.ninodes v'.blk v.ino d' d'' _ (by rw [attrs]) addrs, ← ino, ← used,
      ← blk] at same
    exact same
  have result := holds.setInode ip v'' d'' here valid (type ▸ typed) ino moved (blk ▸ after.1) (by
    intro j q x other held
    rw [blk]
    refine wrote.others j q x other ?_
    rwa [copied, Function.update_eq_self])
  have contents : nodeOf v''.blk d'' = { a.node (a.cache ip).inum with
      data := Spec.splice (a.node (a.cache ip).inum).data off len src } := by
    rw [nodeOf_typed _ _ (type ▸ typed), node, blk, after.2, attrs, wrote.attrs]
  rw [contents] at result
  rw [holds.entry] at result ⊢
  exact result

variable (layout : Layout sb)

include layout

theorem writei_refines (ip : Slot) (src : Nat → UInt8) (off len : UInt32) :
    (fsLink sb).Refines (writei ip src off len) (Spec.writei ip src off len) := by
  rintro s a ⟨v, c, at_, holds⟩ defined
  by_cases usable : Spec.Usable (a.cache ip)
  swap
  · exact absurd (by simp only [Spec.writei, if_neg usable]; rfl) defined
  obtain ⟨here, valid, inode, copied, typed, covered, mapped, node⟩ := holds.usable ip usable
  have spec : Spec.writei ip src off len a =
      .ok ((Spec.writeBytes (a.node (a.cache ip).inum) src off len).1,
        a.setNode (a.cache ip).inum (Spec.writeBytes (a.node (a.cache ip).inum) src off len).2) := by
    simp only [Spec.writei, if_pos usable]
  have size : UInt32.ofNat (a.node (a.cache ip).inum).data.length = (c ip).size := by
    rw [node, content_length, UInt32.ofNat_toNat]
  have type : (a.node (a.cache ip).inum).type = (c ip).type ∧ (a.node (a.cache ip).inum).major = (c ip).major := by
    rw [node]
    exact ⟨rfl, rfl⟩
  have same : a.setNode (a.cache ip).inum (a.node (a.cache ip).inum) = a := by
    simp [Nodes.setNode]
  simp only [Spec.writeBytes, size] at spec
  refine Link.refines_seq (at_.inodeOf ip) ?_
  rintro _ s ⟨rfl, rfl⟩
  split
  next device =>
    rw [if_pos (type.1.trans device), type.2] at spec
    split
    next console => exact ⟨a, by rw [spec, if_pos console, same], v, c, at_, holds⟩
    next other => exact ⟨a, by rw [spec, if_neg other, same], v, c, at_, holds⟩
  next file =>
    rw [if_neg (type.1 ▸ file)] at spec
    split
    next outside => exact ⟨a, by rw [spec, if_pos outside, same], v, c, at_, holds⟩
    next inside =>
      rw [if_neg inside] at spec
      split
      next long => exact ⟨a, by rw [spec, if_pos long, same], v, c, at_, holds⟩
      next short =>
        rw [if_neg short] at spec
        rw [not_or] at inside
        have sum := add_toNat_of_no_wrap off len inside.2
        have start : off.toNat ≤ (c ip).size.toNat := by
          have low := inside.1
          rw [gt_iff_lt, UInt32.lt_iff_toNat_lt] at low
          omega
        have fits : off.toNat + len.toNat ≤ MAXFILE * BSIZE := by omega
        have loop := At.writeChunks layout (show At sb s v (setCopy c ip (c ip).toDinode) by rwa [setCopy_copy]) src
          (fun k => src (k - off.toNat)) len.toNat off.toNat 0 len.toNat (by omega) (by omega)
          (by intro k _; simp) inode typed mapped
        rw [Nat.sub_zero] at loop
        refine Link.refines_seq loop ?_
        rintro _ s₁ ⟨v₁, d₁, at₁, wrote, -, -⟩
        split
        next grows =>
          have more : (c ip).size.toNat < (off + len).toNat := UInt32.lt_iff_toNat_lt.mp grows.2
          refine Link.refines_seq (at₁.setInode ip _) ?_
          intro _ s₂ at₂
          simp only [setCopy_self] at at₂
          have at₂' : At sb s₂ v₁ (setCopy c ip { d₁ with size := off + len }) := by
            simpa [setCopy] using at₂
          refine Link.refines_seq (at₂'.iupdate layout ip (by simpa using inode)) ?_
          intro _ s₃ at₃
          simp only [setCopy_self] at at₃
          refine ⟨_, spec, _, _, at₃, ?_⟩
          refine holds.wrote usable wrote start fits ?_ rfl ?_ rfl rfl
          · simp only
            omega
          · rw [View.setIno_ino, wrote.ino]
        next stays =>
          -- Nothing has been allocated, since the bytes written were all inside the file.
          have within : off.toNat + len.toNat ≤ (c ip).size.toNat := by
            rw [not_and_or, gt_iff_lt, UInt32.lt_iff_toNat_lt, gt_iff_lt, UInt32.lt_iff_toNat_lt, sum] at stays
            simp only [UInt32.toNat_zero] at stays
            omega
          have unchanged := wrote.stable fun k _ below => covered.filled k (by omega)
          rw [unchanged] at wrote at₁
          refine ⟨_, spec, _, _, at₁, ?_⟩
          refine holds.wrote usable wrote start fits ?_ rfl ?_ rfl rfl
          · omega
          · rw [wrote.ino, copied, Function.update_eq_self]

end Operations

end Xv6.Fs
