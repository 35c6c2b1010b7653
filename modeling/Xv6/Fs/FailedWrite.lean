import Xv6.Fs.SharedFile

set_option autoImplicit false

/-!
# Writes that fail

A call of `filewrite` goes through its bytes in transactions of at most `maxWrite` bytes. When the file
reaches its maximum size in one of them, the call returns -1, but the transactions before it are done.
So a call that fails has written nothing exactly when already its first transaction is refused.
Nothing is asked of the state of the disk here.
-/

namespace Xv6.Fs

open Prog Shared

/-- The inode as `ilock` makes it available. -/
def loaded (s : State) (ip : Slot) : Dinode :=
  if (s.icache ip).valid then (s.icache ip).toDinode else dinodeAt s.sb s.disk (s.icache ip).inum

/-- The bytes of the file; their number is its size. -/
def contents (s : State) (ip : Slot) : List UInt8 := content s.disk (loaded s ip)

theorem contents_length (s : State) (ip : Slot) : (contents s ip).length = (loaded s ip).size.toNat :=
  content_length _ _

section Inversion

variable {s s' : State} {ip : Slot}

theorem beginOp_done (begun : beginOp s = .ok ((), s')) : s' = { s with log := s'.log } := by
  obtain ⟨log, -, rfl⟩ := beginOp_ok begun
  rfl

theorem endOp_done (ended : endOp s = .ok ((), s')) : s' = { s with log := s'.log } := by
  rw [endOp, bind_ok get_eq] at ended
  cases left : Xv6.endOp s.log with
  | error why =>
    rw [left] at ended
    cases ended
  | ok r =>
    obtain ⟨log, commits⟩ := r
    rw [left] at ended
    cases commits <;> cases ended <;> rfl

theorem ilock_done (locked : ilock ip s = .ok ((), s')) :
    s' = s.setEntry ip { s.icache ip with busy := true, valid := true, toDinode := loaded s ip } := by
  rw [ilock, bind_ok get_eq, bind_ok inodeOf_eq] at locked
  split_ifs at locked with dead busy valid
  · cases locked
  · cases locked
  · rw [bind_ok (setInode_eq _)] at locked
    cases locked
    rw [loaded, if_pos valid, ← valid]
  · rw [bind_ok (setInode_eq _), bind_ok (bread_eq _)] at locked
    rw [bind_ok (setInode_eq _)] at locked
    split_ifs at locked with free
    · cases locked
    · cases locked
      simp only [State.setEntry, Function.update_self, Function.update_idem, loaded, if_neg valid]
      rfl

theorem iunlock_done (unlocked : iunlock ip s = .ok ((), s')) : s' = s.setEntry ip { s.icache ip with busy := false } := by
  rw [iunlock, bind_ok inodeOf_eq] at unlocked
  split_ifs at unlocked
  · cases unlocked
  · cases unlocked
    rfl

theorem writei_done {src : Nat → UInt8} {off n : UInt32} {r : Int} (file : (s.icache ip).type ≠ tDev)
    (written : writei ip src off n s = .ok (r, s')) :
    (Refuses (s.icache ip).size.toNat off n ∧ r = -1 ∧ s' = s) ∨
      (¬ Refuses (s.icache ip).size.toNat off n ∧ r = Sys.int n) := by
  rw [refuses_iff]
  rw [writei, bind_ok inodeOf_eq, if_neg file] at written
  split_ifs at written with outside long grows
  · cases written
    exact .inl ⟨.inl outside, rfl, rfl⟩
  · cases written
    exact .inl ⟨.inr long, rfl, rfl⟩
  · obtain ⟨_, s₁, -, written⟩ := ok_of_bind written
    obtain ⟨_, s₂, -, written⟩ := ok_of_bind written
    obtain ⟨_, s₃, -, written⟩ := ok_of_bind written
    cases written
    exact .inr ⟨by tauto, rfl⟩
  · obtain ⟨_, s₁, -, written⟩ := ok_of_bind written
    cases written
    exact .inr ⟨by tauto, rfl⟩

/-- A write changes neither the type of an inode nor whether it has been read. -/
def SameType (ip : Slot) (s s' : State) : Prop :=
  (s'.icache ip).type = (s.icache ip).type ∧ (s'.icache ip).valid = (s.icache ip).valid

instance : Std.Refl (SameType ip) := ⟨fun _ => ⟨rfl, rfl⟩⟩

instance : IsTrans State (SameType ip) :=
  ⟨fun _ _ _ first second => ⟨second.1.trans first.1, second.2.trans first.2⟩⟩

theorem logWrite_sameType (b : Nat) (data : Block) : Within (SameType ip) (logWrite b data) := by
  intro s
  simp only [logWrite, wp_bind, wp_get]
  split
  next => trivial
  next =>
    split
    next => trivial
    next => exact ⟨rfl, rfl⟩

theorem setInode_sameType (f : Inode → Inode) (type : ∀ i, (f i).type = i.type) (valid : ∀ i, (f i).valid = i.valid) :
    Within (SameType ip) (setInode ip f) := by
  intro s
  change SameType ip s (s.setEntry ip (f (s.icache ip)))
  simp only [SameType, State.setEntry, Function.update_self]
  exact ⟨type _, valid _⟩

theorem writei_sameType (src : Nat → UInt8) (off n : UInt32) : Within (SameType ip) (writei ip src off n) :=
  within_writei logWrite_sameType (fun _ _ => setInode_sameType _ (fun _ => rfl) fun _ => rfl)
    (fun _ => setInode_sameType _ (fun _ => rfl) fun _ => rfl) src off n

end Inversion

section Loop

variable {k k' : Kernel State} {f : FileId} {ip : Slot} {src : Nat → UInt8} {r : Int}

theorem count_word {n : Nat} (small : n ≤ maxWrite) : (UInt32.ofNat n).toNat = n ∧ Sys.int (UInt32.ofNat n) = n := by
  have large : maxWrite < 2 ^ 31 := by decide
  have count : (UInt32.ofNat n).toNat = n := by
    rw [UInt32.toNat_ofNat']
    omega
  refine ⟨count, ?_⟩
  rw [Sys.int_eq, count, if_pos (by omega)]

theorem writeTurn_done {n : Nat} (some_ : 0 < n) (small : n ≤ maxWrite) (file : (loaded k.fs ip).type ≠ tDev)
    (turn : writeTurn inodeOps f ip src n k = .ok (r, k')) :
    (Refuses (loaded k.fs ip).size.toNat (k.file f).off (UInt32.ofNat n) ∧ r = -1 ∧ k'.file = k.file ∧
      contents k'.fs ip = contents k.fs ip) ∨
    (¬ Refuses (loaded k.fs ip).size.toNat (k.file f).off (UInt32.ofNat n) ∧ r = n ∧
      (k'.file f).off.toNat = (k.file f).off.toNat + n ∧ (loaded k'.fs ip).type = (loaded k.fs ip).type) := by
  obtain ⟨s₁, s₂, s₃, s₄, begun, locked, written, unlocked, ended, files⟩ := writeTurn_ok turn
  have one := beginOp_done begun
  have same : loaded s₁ ip = loaded k.fs ip := by
    rw [one]
    rfl
  have entry : s₂.icache ip =
      { s₁.icache ip with busy := true, valid := true, toDinode := loaded k.fs ip } := by
    rw [ilock_done locked]
    simp only [State.setEntry, Function.update_self, same]
  have last := endOp_done ended
  have after : loaded k'.fs ip = loaded s₄ ip := by
    rw [last]
    rfl
  obtain ⟨count, number⟩ := count_word small
  rcases writei_done (by rw [entry]; exact file) written with ⟨refuses, rfl, rfl⟩ | ⟨accepts, rfl⟩
  · refine .inl ⟨by rwa [entry] at refuses, rfl, files, ?_⟩
    have disk : k'.fs.disk = k.fs.disk := by
      rw [last, iunlock_done unlocked, ilock_done locked, one]
      rfl
    rw [contents, contents, disk, after, iunlock_done unlocked]
    simp only [loaded, State.setEntry, Function.update_self, entry, if_true]
  · rw [entry] at accepts
    refine .inr ⟨accepts, number, ?_, ?_⟩
    · rw [Refuses, count] at accepts
      rw [files, number, if_pos (by omega), Function.update_self, Int.toNat_natCast, UInt32.toNat_add, count]
      omega
    · obtain ⟨type, valid⟩ := (writei_sameType _ _ _).ok written
      rw [after, iunlock_done unlocked]
      simp only [loaded, State.setEntry, Function.update_self, valid, entry, if_true, type]

theorem writeLoop_moves (n left i : Nat) (file : (loaded k.fs ip).type ≠ tDev)
    (looped : writeLoop inodeOps f ip src n left i k = .ok (r, k')) :
    (k.file f).off.toNat ≤ (k'.file f).off.toNat := by
  induction left generalizing i k with
  | zero =>
    cases looped
    exact le_rfl
  | succ left ih =>
    rw [writeLoop] at looped
    by_cases more : i < n
    · rw [if_pos more] at looped
      obtain ⟨r₁, k₁, turn, looped⟩ := ok_of_bind looped
      have large : 0 < maxWrite := by decide
      rcases writeTurn_done (by omega) (min_le_right _ _) file turn with ⟨-, rfl, files, -⟩ | ⟨-, rfl, moved, type⟩
      · cases looped
        rw [files]
      · rw [if_neg (by omega), if_neg (not_not.mpr rfl)] at looped
        have later := ih (i + min (n - i) maxWrite) (by rwa [type]) looped
        omega
    · rw [if_neg more] at looped
      cases looped
      exact le_rfl

theorem writeLoop_turn {n left i : Nat} (more : i < n)
    (turn : writeTurn inodeOps f ip (fun j => src (i + j)) (min (n - i) maxWrite) k =
      .ok (((min (n - i) maxWrite : Nat) : Int), k')) :
    writeLoop inodeOps f ip src n (left + 1) i k = writeLoop inodeOps f ip src n left (i + min (n - i) maxWrite) k' := by
  rw [writeLoop, if_pos more, bind_ok turn, if_neg (by omega), if_neg (not_not.mpr rfl)]

theorem writeLoop_refuses {n left i : Nat} (more : i < n)
    (turn : writeTurn inodeOps f ip (fun j => src (i + j)) (min (n - i) maxWrite) k = .ok (-1, k')) :
    writeLoop inodeOps f ip src n (left + 1) i k = .ok (-1, k') := by
  rw [writeLoop, if_pos more, bind_ok turn]
  rfl

end Loop

/-- A call that returns -1 has left the file and the offset alone exactly when the file is not open for writing
or the first transaction does not fit. -/
theorem failed_write_wrote_nothing_iff (k k' : Kernel State) (f : FileId) (ip : Slot) (src : Nat → UInt8) (n other : Int)
    (type : (k.file f).type = .inode ip) (file : (loaded k.fs ip).type = tFile) (nonneg : 0 ≤ n)
    (failed : filewrite inodeOps f src n other k = .ok (-1, k')) :
    (contents k'.fs ip = contents k.fs ip ∧ (k'.file f).off = (k.file f).off) ↔
      ((k.file f).writable = false ∨
        Refuses (contents k.fs ip).length (k.file f).off (UInt32.ofNat (min n.toNat maxWrite))) := by
  have regular : (loaded k.fs ip).type ≠ tDev := by
    rw [file]
    decide
  rw [filewrite, bind_ok tables_eq] at failed
  by_cases readonly : (k.file f).writable = false
  · rw [if_pos readonly] at failed
    cases failed
    exact ⟨fun _ => .inl readonly, fun _ => ⟨rfl, rfl⟩⟩
  rw [if_neg readonly, type] at failed
  simp only [if_neg (not_lt.mpr nonneg)] at failed
  obtain ⟨m, rfl⟩ := Int.eq_ofNat_of_zero_le nonneg
  simp only [Int.toNat_natCast] at failed ⊢
  cases m with
  | zero => cases failed
  | succ m =>
    rw [writeLoop, if_pos (Nat.succ_pos m)] at failed
    obtain ⟨r₁, k₁, turn, looped⟩ := ok_of_bind failed
    have large : 0 < maxWrite := by decide
    rw [Nat.sub_zero] at turn
    rcases writeTurn_done (by omega) (min_le_right _ _) regular turn with
      ⟨refuses, rfl, files, same⟩ | ⟨accepts, rfl, moved, kept⟩
    · cases looped
      rw [contents_length]
      exact ⟨fun _ => .inr refuses, fun _ => ⟨same, by rw [files]⟩⟩
    · rw [Nat.sub_zero, if_neg (by omega), if_neg (not_not.mpr rfl)] at looped
      have later := writeLoop_moves _ _ _ (by rwa [kept]) looped
      rw [contents_length]
      constructor
      · rintro ⟨-, off⟩
        rw [off] at later
        omega
      · rintro (readonly' | refuses)
        · exact absurd readonly' readonly
        · exact absurd refuses accepts

-- A file of the maximum size, open at the offset where one transaction reaches the end.
def fullFile : Tables :=
  { bootTables [] with file := fun _ => ⟨.inode 1, 1, true, true, UInt32.ofNat (MAXFILE * BSIZE - maxWrite)⟩ }

theorem fullFile_run : ∃ (k k' : Kernel State) (a : Nodes), Rep Mkfs.sb k.fs a ∧ (k.file 0).type = .inode 1 ∧
    (loaded k.fs 1).type = tFile ∧ (k'.file 0).off ≠ (k.file 0).off ∧
    filewrite inodeOps 0 (fun _ => 0) (maxWrite + 1) 0 k = .ok (-1, k') := by
  obtain ⟨disk, v, opened⟩ := Mkfs.exists_opened_file (List.replicate (MAXFILE * BSIZE) 0) (by rw [List.length_replicate])
  obtain ⟨rep, node, -⟩ := opened 0 false
  let k : Kernel State := ⟨fullFile, Mkfs.opened disk 0 false⟩
  let a := Mkfs.found v (Mkfs.opened disk 0 false).icache
  have full : a.node (a.cache 1).inum = ⟨tFile, 0, 0, 1, List.replicate (MAXFILE * BSIZE) 0⟩ := node
  have usable : Spec.Usable (a.cache 1) := ⟨one_pos, rfl⟩
  have regular : (a.node (a.cache 1).inum).type ≠ tDev := by
    rw [full]
    decide
  have length : (a.node (a.cache 1).inum).data.length = MAXFILE * BSIZE := by
    rw [full, List.length_replicate]
  have off : (k.file 0).off.toNat = MAXFILE * BSIZE - maxWrite := show (UInt32.ofNat _).toNat = _ by decide
  -- The first transaction writes over the end of the file.
  have none := missing_empty k.fs.disk (k.fs.icache 1).toDinode (MAXFILE * BSIZE - maxWrite) maxWrite fun j _ high =>
    Rep.filled rep usable j (by rw [length]; exact lt_of_lt_of_eq high (by decide))
  obtain ⟨k₁, a₁, turn₁, idle₁, -, rep₁, usable₁, free₁, type₁, length₁⟩ := @writeTurn_returns Mkfs.sb k a 0 1 Mkfs.layout
    rep usable rfl regular ⟨rfl, rfl, rfl⟩ (fun _ => 0) maxWrite (by decide) (by rw [off, length]; decide)
    (by rw [off]; decide) (by rw [off, none]; exact Nat.zero_le _) (by rw [off]; decide +kernel)
    (by rw [off]; exact show (Split.chunks BSIZE _ maxWrite).length + _ + 3 < 30 from by decide +kernel)
  obtain ⟨-, -, -, -, -, -, -, -, -, files₁⟩ := writeTurn_ok turn₁
  rw [if_pos (by decide)] at files₁
  have end_ : (k₁.file 0).off.toNat = MAXFILE * BSIZE := by
    rw [files₁, Function.update_self]
    exact show (UInt32.ofNat _ + UInt32.ofNat _).toNat = _ by decide
  obtain ⟨k₂, turn₂⟩ := @writeTurn_refuses Mkfs.sb k₁ a₁ 0 1 rep₁ usable₁ free₁ (by rwa [type₁]) idle₁ (fun _ => 0) 1
    (.inr (.inr (by rw [end_]; decide)))
  obtain ⟨-, -, -, -, -, -, -, -, -, files₂⟩ := writeTurn_ok turn₂
  rw [if_neg (by decide)] at files₂
  refine ⟨k, k₂, a, rep, rfl, ?_, fun same => ?_, ?_⟩
  · rw [show loaded k.fs 1 = (k.fs.icache 1).toDinode from rfl, (rep.entry usable).1, full]
  · rw [← UInt32.toNat_inj, off, files₂, end_] at same
    exact absurd same (by decide)
  · have whole : min (maxWrite + 1 - 0) maxWrite = maxWrite := by decide
    have last : min (maxWrite + 1 - (0 + maxWrite)) maxWrite = 1 := by decide
    have looped : writeLoop inodeOps 0 1 (fun _ => 0) (maxWrite + 1) (maxWrite + 1) 0 k = .ok (-1, k₂) := by
      rw [writeLoop_turn (Nat.succ_pos maxWrite) (by rw [whole]; exact turn₁), whole]
      exact writeLoop_refuses (by decide) (by rw [last]; exact turn₂)
    exact looped

/-- A write of one byte too many fails, after the bytes of its first transaction. -/
theorem failed_write_moved_offset : ∃ (k k' : Kernel State) (a : Nodes), Rep Mkfs.sb k.fs a ∧
    (k.file 0).type = .inode 1 ∧ (loaded k.fs 1).type = tFile ∧
    filewrite inodeOps 0 (fun _ => 0) (maxWrite + 1) 0 k = .ok (-1, k') ∧ (k'.file 0).off ≠ (k.file 0).off := by
  obtain ⟨k, k', a, rep, type, file, moved, failed⟩ := fullFile_run
  exact ⟨k, k', a, rep, type, file, failed, moved⟩

theorem failed_write_wrote_nothing_iff_full : ∃ (k k' : Kernel State), (k.file 0).type = .inode 1 ∧
    filewrite inodeOps 0 (fun _ => 0) (maxWrite + 1) 0 k = .ok (-1, k') ∧
    ((contents k'.fs 1 = contents k.fs 1 ∧ (k'.file 0).off = (k.file 0).off) ↔
      ((k.file 0).writable = false ∨
        Refuses (contents k.fs 1).length (k.file 0).off (UInt32.ofNat (min (maxWrite + 1 : Int).toNat maxWrite)))) := by
  obtain ⟨k, k', -, -, type, file, -, failed⟩ := fullFile_run
  exact ⟨k, k', type, failed, failed_write_wrote_nothing_iff k k' 0 1 _ _ 0 type file (by decide) failed⟩

end Xv6.Fs
