import Xv6.Fs.Footprint

set_option autoImplicit false

/-!
# What one transaction of a write logs

`begin_op` reserves `MAXOPBLOCKS` blocks of the log for each operation. A turn of the loop of `filewrite`
writes up to `maxWrite` bytes, a number that comes from `LOGSIZE` instead. The blocks that it logs are
those of `logsBlocks`, whatever the log already holds: a program runs in the same way with less in the log.
-/

namespace Xv6.Fs

open Bytes Prog Shared

/-- The log `t` holds some of what `log` holds. -/
structure Fewer (t log : Log) : Prop where
  same : t = { log with lh := t.lh }
  nodup : t.lh.block.Nodup
  fewer : t.lh.block ⊆ log.lh.block

section Fewer

variable {t log log' : Log} {b : Nat}

theorem Fewer.fields (less : Fewer t log) :
    t.size = log.size ∧ t.outstanding = log.outstanding ∧ t.committing = log.committing ∧ t.lh.n ≤ log.lh.n := by
  refine ⟨?_, ?_, ?_, (less.nodup.subperm less.fewer).length_le⟩
  all_goals rw [less.same]

theorem Fewer.check (less : Fewer t log) (passed : logWriteCheck log = .ok ()) : logWriteCheck t = .ok () := by
  obtain ⟨size, outstanding, -, shorter⟩ := less.fields
  unfold logWriteCheck at passed ⊢
  split_ifs at passed with full outside
  rw [size, outstanding, if_neg (by omega), if_neg outside]

theorem logWrite_ok (logs : Xv6.logWrite log b = .ok log') :
    b < 2 ^ 32 ∧ b ∈ log'.lh.block ∧ log.lh.block ⊆ log'.lh.block ∧ log' = { log with lh := log'.lh } := by
  unfold Xv6.logWrite at logs
  split at logs
  next here =>
    cases logs
    exact ⟨log.lh.uint b here, here, List.Subset.refl _, rfl⟩
  next =>
    cases appended : log.lh.append b with
    | none => simp [appended] at logs
    | some lh =>
      simp only [appended, Except.ok.injEq] at logs
      subst logs
      have block := LogHeader.append_block _ _ _ appended
      have last : b ∈ lh.block := by simp [block]
      exact ⟨lh.uint b last, last, by simp [block], rfl⟩

theorem Fewer.logWrite (less : Fewer t log) (passed : logWriteCheck log = .ok ())
    (logs : Xv6.logWrite log b = .ok log') : ∃ t', Xv6.logWrite t b = .ok t' ∧ Fewer t' log' := by
  obtain ⟨uint, here, more, same⟩ := logWrite_ok logs
  by_cases member : b ∈ t.lh.block
  · exact ⟨t, if_pos member, by rw [less.same, same], less.nodup, List.Subset.trans less.fewer more⟩
  · have fits : t.lh.block.length + 1 ≤ LOGSIZE ∧ b < 2 ^ 32 := by
      have shorter := less.fields.2.2.2
      unfold logWriteCheck at passed
      split_ifs at passed with full outside
      simp only [LogHeader.n] at full shorter
      exact ⟨by omega, uint⟩
    obtain ⟨lh, appended⟩ : ∃ lh, t.lh.append b = some lh := ⟨_, dif_pos fits⟩
    have block := LogHeader.append_block _ _ _ appended
    refine ⟨{ t with lh := lh }, by rw [Xv6.logWrite, if_neg member, appended], ?_, ?_, ?_⟩
    · rw [less.same, same]
    · rw [block]
      refine List.nodup_append.mpr ⟨less.nodup, List.nodup_singleton b, ?_⟩
      rintro x old _ new rfl
      exact member (List.mem_singleton.mp new ▸ old)
    · rw [block]
      intro x found
      rcases List.mem_append.mp found with old | new
      · exact more (less.fewer old)
      · rw [List.mem_singleton.mp new]
        exact here

theorem Fewer.beginOp (less : Fewer t log) (begun : Xv6.beginOp log = some log') :
    ∃ t', Xv6.beginOp t = some t' ∧ Fewer t' log' := by
  obtain ⟨-, outstanding, committing, shorter⟩ := less.fields
  unfold Xv6.beginOp at begun ⊢
  split_ifs at begun with busy full
  cases begun
  rw [committing, outstanding, if_neg busy, if_neg (by omega)]
  exact ⟨_, rfl, by rw [less.same], less.nodup, less.fewer⟩

end Fewer

/-- Two states that differ only in what the log holds. -/
def Under (s t : State) : Prop := t = { s with log := t.log } ∧ Fewer t.log s.log

/-- If the program returns, it does so with less in the log. -/
def Follows {α : Type} (m : M α) : Prop :=
  ∀ s t, Under s t → ∀ a s', m s = .ok (a, s') → ∃ t', m t = .ok (a, t') ∧ Under s' t'

section Follow

variable {α β : Type}

theorem Follows.bind {m : M α} {f : α → M β} (first : Follows m) (rest : ∀ a, Follows (f a)) : Follows (m >>= f) := by
  intro s t under b s' returns
  obtain ⟨a, s₁, one, two⟩ := ok_of_bind returns
  obtain ⟨t₁, one', under₁⟩ := first s t under a s₁ one
  obtain ⟨t', two', under'⟩ := rest a s₁ t₁ under₁ b s' two
  exact ⟨t', by rw [bind_ok one', two'], under'⟩

theorem Follows.ite {c : Prop} [Decidable c] {m m' : M α} (yes : Follows m) (no : Follows m') :
    Follows (if c then m else m') := by
  split
  · exact yes
  · exact no

theorem follows_pure (a : α) : Follows (pure a : M α) := by
  intro s t under b s' returns
  cases returns
  exact ⟨t, rfl, under⟩

theorem follows_throw (e : Stop) : Follows (throw e : M α) := by
  intro s t under b s' returns
  cases returns

theorem follows_get {f : State → M α} (blind : ∀ s log, f { s with log := log } = f s)
    (rest : ∀ s, Follows (f s)) : Follows (get >>= f) := by
  intro s t under a s' returns
  obtain ⟨t', returns', under'⟩ := rest s s t under a s' (by rwa [bind_ok get_eq] at returns)
  have same : f t = f s := by
    rw [under.1]
    exact blind s t.log
  exact ⟨t', by rw [bind_ok get_eq, same, returns'], under'⟩

theorem follows_setInode (ip : Slot) (f : Inode → Inode) : Follows (setInode ip f) := by
  intro s t under a s' returns
  cases returns
  refine ⟨_, rfl, ?_, under.2⟩
  rw [under.1]

theorem logWrite_run (b : Nat) (data : Block) (s : State) :
    logWrite b data s = match logWriteCheck s.log with
      | .error why => .error (.ofLog why)
      | .ok _ => match Xv6.logWrite s.log b with
        | .error why => .error (.ofLog why)
        | .ok log => .ok ((), { s with log := log, disk := Function.update s.disk b data }) := by
  rw [logWrite, bind_ok get_eq]
  cases logWriteCheck s.log with
  | error why => rfl
  | ok _ =>
    cases Xv6.logWrite s.log b with
    | error why => rfl
    | ok log => rfl

theorem follows_logWrite (b : Nat) (data : Block) : Follows (logWrite b data) := by
  intro s t under a s' returns
  rw [logWrite_run] at returns ⊢
  cases check : logWriteCheck s.log with
  | error why =>
    rw [check] at returns
    cases returns
  | ok _ =>
    cases result : Xv6.logWrite s.log b with
    | error why =>
      simp only [check, result] at returns
      cases returns
    | ok log =>
      simp only [check, result] at returns
      cases returns
      obtain ⟨log', result', less⟩ := under.2.logWrite check result
      rw [under.2.check check]
      simp only [result']
      refine ⟨_, rfl, ?_, less⟩
      rw [under.1]

theorem follows_beginOp : Follows beginOp := by
  intro s t under a s' returns
  obtain ⟨log, begun, rfl⟩ := beginOp_ok returns
  obtain ⟨log', begun', less⟩ := under.2.beginOp begun
  refine ⟨_, beginOp_admitted begun', ?_, less⟩
  rw [under.1]

theorem follows_inodeOf (ip : Slot) : Follows (inodeOf ip) := follows_get (fun _ _ => rfl) fun _ => follows_pure _

theorem follows_bread (b : Nat) : Follows (bread b) := follows_get (fun _ _ => rfl) fun _ => follows_pure _

theorem follows_balloc : Follows balloc := by
  refine follows_get (fun _ _ => rfl) fun s => ?_
  split
  next => exact follows_throw _
  next b _ =>
    exact (follows_bread _).bind fun _ => (follows_logWrite _ _).bind fun _ => (follows_logWrite _ _).bind fun _ =>
      follows_pure _

theorem follows_iupdate (ip : Slot) : Follows (iupdate ip) :=
  follows_get (fun _ _ => rfl) fun _ => (follows_inodeOf ip).bind fun _ => (follows_bread _).bind fun _ =>
    follows_logWrite _ _

theorem follows_loadAddr (ip : Slot) (k : Fin (NDIRECT + 1)) : Follows (loadAddr ip k) :=
  (follows_inodeOf ip).bind fun _ =>
    (follows_balloc.bind fun _ => (follows_setInode _ _).bind fun _ => follows_pure _).ite (follows_pure _)

theorem follows_bmap (ip : Slot) (bn : Nat) : Follows (bmap ip bn) := by
  refine (follows_loadAddr ip _).ite (Follows.ite ?_ (follows_throw _))
  refine (follows_loadAddr ip _).bind fun _ => (follows_bread _).bind fun _ => Follows.ite ?_ (follows_pure _)
  exact follows_balloc.bind fun _ => (follows_bread _).bind fun _ => (follows_logWrite _ _).bind fun _ => follows_pure _

theorem follows_writeChunks (ip : Slot) (src : Nat → UInt8) (cs : List Split.Chunk) : Follows (writeChunks ip src cs) := by
  induction cs with
  | nil => exact follows_pure _
  | cons c cs ih =>
    exact (follows_bmap ip _).bind fun _ => (follows_bread _).bind fun _ => (follows_logWrite _ _).bind fun _ => ih

theorem follows_writei (ip : Slot) (src : Nat → UInt8) (off n : UInt32) : Follows (writei ip src off n) := by
  refine (follows_inodeOf ip).bind fun i => ?_
  refine ((follows_pure _).ite (follows_pure _)).ite ((follows_pure _).ite ((follows_pure _).ite ?_))
  refine (follows_writeChunks ip src _).bind fun _ => Follows.ite ?_ (follows_pure _)
  exact (follows_setInode _ _).bind fun _ => (follows_iupdate ip).bind fun _ => follows_pure _

theorem follows_ilock (ip : Slot) : Follows (ilock ip) := by
  refine follows_get (fun _ _ => rfl) fun s => (follows_inodeOf ip).bind fun i => ?_
  refine (follows_throw _).ite ((follows_throw _).ite ((follows_setInode _ _).bind fun _ => ?_))
  refine (follows_pure _).ite ((follows_bread _).bind fun _ => (follows_setInode _ _).bind fun _ => ?_)
  exact (follows_throw _).ite (follows_pure _)

theorem follows_iunlock (ip : Slot) : Follows (iunlock ip) :=
  (follows_inodeOf ip).bind fun _ => (follows_throw _).ite (follows_setInode _ _)

end Follow

section Turn

/-- A turn of the loop of `filewrite` up to `end_op`. -/
def transaction (ip : Slot) (src : Nat → UInt8) (off : UInt32) (n : Nat) : M Int := do
  beginOp
  ilock ip
  let r ← writei ip src off (UInt32.ofNat n)
  iunlock ip
  return r

/-- The blocks that a program passes to `log_write`: those in the log at its end, if the log is empty at its start. -/
def logWrites {α : Type} (m : M α) (s : State) : Finset Nat :=
  match m { s with log := { s.log with lh := .empty } } with
  | .ok (_, s') => logged s'
  | .error _ => ∅

theorem follows_transaction (ip : Slot) (src : Nat → UInt8) (off : UInt32) (n : Nat) : Follows (transaction ip src off n) :=
  follows_beginOp.bind fun _ => (follows_ilock ip).bind fun _ => (follows_writei ip src _ _).bind fun _ =>
    (follows_iunlock ip).bind fun _ => follows_pure _

variable {sb : Superblock} {s s' : State} {a : Nodes} {ip : Slot} {src : Nat → UInt8} {off : UInt32} {n : Nat} {r : Int}

theorem beginOp_logged (begun : beginOp s = .ok ((), s')) : logged s' = logged s := by
  obtain ⟨log, admitted, rfl⟩ := beginOp_ok begun
  rw [Xv6.beginOp] at admitted
  split_ifs at admitted with busy full
  cases admitted
  rfl

theorem ilock_live (locked : ilock ip s = .ok ((), s')) : 0 < (s.icache ip).ref := by
  rw [ilock, bind_ok get_eq, bind_ok inodeOf_eq] at locked
  split_ifs at locked with dead busy
  · cases locked
  · cases locked
  all_goals omega

theorem transaction_logs (layout : Layout sb) (rep : Rep sb s a) (file : (loaded s ip).type ≠ tDev) (small : n ≤ maxWrite)
    (returns : transaction ip src off n s = .ok (r, s')) :
    (Refuses (loaded s ip).size.toNat off (UInt32.ofNat n) → (logWrites (transaction ip src off n) s).card = 0) ∧
    (¬ Refuses (loaded s ip).size.toNat off (UInt32.ofNat n) →
      (logWrites (transaction ip src off n) s).card = logsBlocks sb s.disk (loaded s ip) off.toNat n) := by
  obtain ⟨t, ht⟩ : ∃ t : State, t = { s with log := { s.log with lh := .empty } } := ⟨_, rfl⟩
  have under : Under s t := by
    rw [ht]
    exact ⟨rfl, rfl, List.nodup_nil, List.nil_subset _⟩
  obtain ⟨t', returns', -⟩ := follows_transaction ip src off n s t under r s' returns
  have empty : logged t = ∅ := by
    rw [ht]
    rfl
  have rep' : Rep sb t a := by
    rw [ht]
    exact rep_log rep _
  have set : logWrites (transaction ip src off n) s = logged t' := by
    rw [logWrites, ← ht, returns']
  have same : loaded s ip = loaded t ip ∧ s.disk = t.disk := by
    rw [ht]
    exact ⟨rfl, rfl⟩
  rw [set, same.1, same.2]
  rw [same.1] at file
  obtain ⟨_, t₁, begun, run⟩ := ok_of_bind returns'
  obtain ⟨_, t₂, locked, run⟩ := ok_of_bind run
  obtain ⟨r', t₃, written, run⟩ := ok_of_bind run
  obtain ⟨_, t₄, unlocked, run⟩ := ok_of_bind run
  cases run
  have one := beginOp_done begun
  have two := ilock_done locked
  obtain ⟨a₁, same₁, rep₁⟩ := beginOp_refines.ok rep' nofun begun
  cases same₁
  obtain ⟨a₂, same₂, rep₂⟩ := (ilock_refines ip).ok rep₁ (Spec.ilock_defined ip a) locked
  obtain ⟨live, rfl⟩ := Spec.ilock_ok same₂
  have logs₂ : logged t₂ = ∅ := by
    rw [two, ← empty, ← beginOp_logged begun]
    rfl
  have logs₄ : logged t' = logged t₃ := by
    rw [iunlock_done unlocked]
    rfl
  have entry : (t₂.icache ip).toDinode = loaded t ip ∧ t₂.disk = t.disk := by
    rw [two, one]
    exact ⟨by simp only [State.setEntry, Function.update_self]; rfl, rfl⟩
  obtain ⟨count, -⟩ := count_word small
  rw [logs₄]
  have usable : Spec.Usable ((a.setEntry ip { a.cache ip with busy := true, valid := true }).cache ip) := by
    rw [Nodes.setEntry_cache, Function.update_self]
    obtain ⟨v, c, at_, holds⟩ := rep₁
    have live := ilock_live locked
    rw [at_.cache] at live
    exact ⟨by rw [holds.entry]; exact live, rfl⟩
  rw [← entry.1] at file
  constructor
  · intro refuses
    rw [← entry.1] at refuses
    rcases writei_done file written with ⟨-, -, rfl⟩ | ⟨accepts, -⟩
    · rw [logs₂, Finset.card_empty]
    · exact absurd refuses accepts
  · intro accepts
    rw [← entry.1] at accepts
    obtain ⟨blocks, logs, number⟩ := wp_ok _ _ _ written (rep₂.writei_logs layout usable file src off _ accepts)
    rw [logs, logs₂, Finset.empty_union, number, entry.1, entry.2, count]

theorem writeTurn_transaction {k k' : Kernel State} {f : FileId} (turn : writeTurn inodeOps f ip src n k = .ok (r, k')) :
    ∃ s', transaction ip src (k.file f).off n k.fs = .ok (r, s') := by
  obtain ⟨s₁, s₂, s₃, s₄, begun, locked, written, unlocked, -, -⟩ := writeTurn_ok turn
  refine ⟨s₄, ?_⟩
  rw [transaction, bind_ok (show beginOp k.fs = .ok ((), s₁) from begun), bind_ok (show ilock ip s₁ = .ok ((), s₂) from locked),
    bind_ok (show writei ip src _ _ s₂ = .ok (r, s₃) from written),
    bind_ok (show iunlock ip s₃ = .ok ((), s₄) from unlocked)]
  rfl

end Turn

section Overwrite

def atStart : Tables := { bootTables [] with file := fun _ => ⟨.inode 1, 1, true, true, 0⟩ }

theorem overwrite_run : ∃ (k k' : Kernel State) (a : Nodes), Rep Mkfs.sb k.fs a ∧ (k.file 0).type = .inode 1 ∧
    (k.file 0).writable = true ∧ (k.file 0).off = 0 ∧ (loaded k.fs 1).type = tFile ∧ (loaded k.fs 1).size.toNat = maxWrite ∧
    writeTurn inodeOps 0 1 (fun _ => 0) maxWrite k = .ok (maxWrite, k') := by
  obtain ⟨disk, v, opened⟩ := Mkfs.exists_opened_file (List.replicate maxWrite 0) (by
    rw [List.length_replicate]
    decide)
  obtain ⟨rep, node, -⟩ := opened 0 false
  let k : Kernel State := ⟨atStart, Mkfs.opened disk 0 false⟩
  let a := Mkfs.found v (Mkfs.opened disk 0 false).icache
  have full : a.node (a.cache 1).inum = ⟨tFile, 0, 0, 1, List.replicate maxWrite 0⟩ := node
  have usable : Spec.Usable (a.cache 1) := ⟨one_pos, rfl⟩
  have regular : (a.node (a.cache 1).inum).type ≠ tDev := by
    rw [full]
    decide
  have length : (a.node (a.cache 1).inum).data.length = maxWrite := by
    rw [full, List.length_replicate]
  have off : (k.file 0).off.toNat = 0 := rfl
  have none := missing_empty k.fs.disk (k.fs.icache 1).toDinode 0 maxWrite fun j _ high =>
    Rep.filled rep usable j (by rw [length]; omega)
  obtain ⟨k', a', turn, -⟩ := @writeTurn_returns Mkfs.sb k a 0 1 Mkfs.layout rep usable rfl regular ⟨rfl, rfl, rfl⟩
    (fun _ => 0) maxWrite (by decide) (by rw [off]; exact Nat.zero_le _) (by rw [off]; decide)
    (by rw [off, none]; exact Nat.zero_le _) (by rw [off]; decide +kernel)
    (by rw [off]; exact show (Split.chunks BSIZE _ maxWrite).length + _ + 3 < 30 from by decide +kernel)
  obtain ⟨type, size, -⟩ := rep.entry usable
  exact ⟨k, k', a, rep, rfl, rfl, rfl, by rw [show (loaded k.fs 1).type = tFile from type.trans (by rw [full])],
    size.trans length, turn⟩

end Overwrite

/-- A turn of the loop of `filewrite` stays within its reservation exactly when it is refused or the blocks of its data,
of the new entries, of the free map and of the inode are at most `MAXOPBLOCKS` together. -/
theorem write_fits_reservation_iff {sb : Superblock} {k k' : Kernel State} {a : Nodes} {f : FileId} {ip : Slot}
    {src : Nat → UInt8} {n : Nat} {r : Int} (layout : Layout sb) (rep : Rep sb k.fs a)
    (file : (loaded k.fs ip).type = tFile) (small : n ≤ maxWrite) (turn : writeTurn inodeOps f ip src n k = .ok (r, k')) :
    (logWrites (transaction ip src (k.file f).off n) k.fs).card ≤ MAXOPBLOCKS ↔
      Refuses (loaded k.fs ip).size.toNat (k.file f).off (UInt32.ofNat n) ∨
        logsBlocks sb k.fs.disk (loaded k.fs ip) (k.file f).off.toNat n ≤ MAXOPBLOCKS := by
  obtain ⟨s', returns⟩ := writeTurn_transaction turn
  have regular : (loaded k.fs ip).type ≠ tDev := by
    rw [file]
    decide
  obtain ⟨none_, some_⟩ := transaction_logs layout rep regular small returns
  by_cases refuses : Refuses (loaded k.fs ip).size.toNat (k.file f).off (UInt32.ofNat n)
  · rw [none_ refuses]
    exact ⟨fun _ => .inl refuses, fun _ => Nat.zero_le _⟩
  · rw [some_ refuses]
    exact ⟨.inr, fun cases_ => cases_.resolve_left refuses⟩

/-- The blocks of the data alone are more than the transaction has reserved. -/
theorem write_exceeds_reservation : ∃ (k k' : Kernel State) (a : Nodes), Rep Mkfs.sb k.fs a ∧ (k.file 0).type = .inode 1 ∧
    (loaded k.fs 1).type = tFile ∧ filewrite inodeOps 0 (fun _ => 0) maxWrite 0 k = .ok (maxWrite, k') ∧
    MAXOPBLOCKS < (logWrites (transaction 1 (fun _ => 0) (k.file 0).off maxWrite) k.fs).card := by
  obtain ⟨k, k', a, rep, type, writable, off, file, size, turn⟩ := overwrite_run
  obtain ⟨s', returns⟩ := writeTurn_transaction turn
  have accepts : ¬ Refuses (loaded k.fs 1).size.toNat (k.file 0).off (UInt32.ofNat maxWrite) := by
    rw [size, off]
    unfold Refuses
    decide
  have count := (transaction_logs Mkfs.layout rep (by rw [file]; decide) le_rfl returns).2 accepts
  have many : 13 ≤ (through 0 maxWrite).card := le_card_through 13
  refine ⟨k, k', a, rep, type, file, ?_, ?_⟩
  · have whole : min (maxWrite - 0) maxWrite = maxWrite := by decide
    have looped : writeLoop inodeOps 0 1 (fun _ => 0) maxWrite (6655 + 1) 0 k = .ok (maxWrite, k') := by
      rw [writeLoop_turn (by decide) (by rw [whole]; exact turn), whole, Nat.zero_add, writeLoop, if_neg (lt_irrefl _),
        if_pos rfl]
      rfl
    rw [filewrite, bind_ok tables_eq, if_neg (by simp [writable]), type]
    exact looped
  · rw [count, off, logsBlocks]
    have reserved : MAXOPBLOCKS < 13 := by decide
    rw [show (0 : UInt32).toNat = 0 from rfl]
    omega

theorem write_fits_reservation_iff_overwrite : ∃ (k k' : Kernel State),
    writeTurn inodeOps 0 1 (fun _ => 0) maxWrite k = .ok (maxWrite, k') ∧
    ((logWrites (transaction 1 (fun _ => 0) (k.file 0).off maxWrite) k.fs).card ≤ MAXOPBLOCKS ↔
      Refuses (loaded k.fs 1).size.toNat (k.file 0).off (UInt32.ofNat maxWrite) ∨
        logsBlocks Mkfs.sb k.fs.disk (loaded k.fs 1) (k.file 0).off.toNat maxWrite ≤ MAXOPBLOCKS) := by
  obtain ⟨k, k', a, rep, -, -, -, file, -, turn⟩ := overwrite_run
  exact ⟨k, k', turn, write_fits_reservation_iff Mkfs.layout rep file le_rfl turn⟩

end Xv6.Fs
