import Xv6.Log.Commit

set_option autoImplicit false

namespace Xv6

open Replay Bytes Machine

namespace Machine

def issue (m : Machine) (ws : List (Nat × Block)) : Machine :=
  ws.foldl (fun m w => m.bwrite w.1 w.2) m

theorem issue_append (m : Machine) (ws vs : List (Nat × Block)) :
    m.issue (ws ++ vs) = (m.issue ws).issue vs := by
  simp [issue, List.foldl_append]

@[simp] theorem issue_disk (m : Machine) (ws : List (Nat × Block)) :
    (m.issue ws).disk = replay m.disk ws := by
  induction ws generalizing m with
  | nil => rfl
  | cons w ws ih => exact ih (m.bwrite w.1 w.2)

@[simp] theorem issue_writes (m : Machine) (ws : List (Nat × Block)) :
    (m.issue ws).writes = m.writes ++ ws := by
  induction ws generalizing m with
  | nil => simp [issue]
  | cons w ws ih =>
    have rest := ih (m.bwrite w.1 w.2)
    simpa [issue, bwrite] using rest

theorem bwrite_bread_other (m : Machine) (b c : Nat) (data : Block) (other : c ≠ b) :
    (m.bwrite b data).bread c = m.bread c := by
  simp [bread, bwrite, write, Function.update_of_ne other]

theorem bwrite_bread_same (m : Machine) (b : Nat) (data : Block) :
    (m.bwrite b data).bread b = data := by
  simp [bread, bwrite]

theorem issue_bread_untouched (m : Machine) (ws : List (Nat × Block)) (b : Nat)
    (untouched : b ∉ ws.map Prod.fst) : (m.issue ws).bread b = m.bread b := by
  induction ws generalizing m with
  | nil => rfl
  | cons w ws ih =>
    simp only [List.map_cons, List.mem_cons, not_or] at untouched
    have rest := ih (m.bwrite w.1 w.2) untouched.2
    rw [bwrite_bread_other m w.1 b w.2 untouched.1] at rest
    exact rest

theorem issue_bread_written (m : Machine) (ws : List (Nat × Block))
    (distinct : (ws.map Prod.fst).Nodup) (b : Nat) (data : Block) (member : (b, data) ∈ ws) :
    (m.issue ws).bread b = data := by
  induction ws generalizing m with
  | nil => simp at member
  | cons w ws ih =>
    simp only [List.map_cons, List.nodup_cons] at distinct
    rcases List.mem_cons.mp member with rfl | later
    · have kept := issue_bread_untouched (m.bwrite b data) ws b distinct.1
      rw [bwrite_bread_same] at kept
      exact kept
    · exact ih (m.bwrite w.1 w.2) distinct.2 later

-- The loops of `write_log` and `install_trans` read no block that they write.
theorem copy_fold (m : Machine) (dst src : Nat → Nat) (tails : List Nat)
    (apart : ∀ s ∈ tails, ∀ t ∈ tails, src t ≠ dst s) :
    tails.foldl (fun m tail => m.bwrite (dst tail) (m.bread (src tail))) m =
      m.issue (tails.map fun tail => (dst tail, m.bread (src tail))) := by
  induction tails generalizing m with
  | nil => rfl
  | cons tail tails ih =>
    have rest := ih (m.bwrite (dst tail) (m.bread (src tail)))
      (fun s hs t ht => apart s (List.mem_cons_of_mem _ hs) t (List.mem_cons_of_mem _ ht))
    have sources : ∀ t ∈ tails,
        (m.bwrite (dst tail) (m.bread (src tail))).bread (src t) = m.bread (src t) := by
      intro t ht
      exact bwrite_bread_other m _ _ _ (apart tail (by simp) t (List.mem_cons_of_mem _ ht))
    rw [List.foldl_cons, rest, List.map_congr_left (fun t ht => by rw [sources t ht])]
    rfl

end Machine

theorem LogHeader.ext_block (a b : LogHeader) (same : a.block = b.block) : a = b := by
  cases a
  cases b
  simpa using same

theorem encodeHead_words (buf : Block) (lh : LogHeader) :
    getLE (encodeHead buf lh) 0 4 = lh.n ∧
      ∀ i, i < lh.n → headBlock (encodeHead buf lh) i = lh.block.getD i 0 := by
  have room : lh.n ≤ 30 := lh.room
  -- after `k` rounds of the loop the count and the first `k` entries are in place
  have loop (k : Nat) (within : k ≤ lh.n) :
      let out := (List.range k).foldl
        (fun buf i => putLE buf (4 + 4 * i) 4 (lh.block.getD i 0)) (putLE buf 0 4 lh.n)
      getLE out 0 4 = lh.n ∧ ∀ i, i < k → headBlock out i = lh.block.getD i 0 := by
    induction k with
    | zero =>
      constructor
      · have stored := getLE_putLE_same buf 0 4 lh.n (by decide)
        rwa [Nat.mod_eq_of_lt (by omega)] at stored
      · intro i bound
        omega
    | succ k ih =>
      obtain ⟨count, entries⟩ := ih (by omega)
      simp only [List.range_succ, List.foldl_append, List.foldl_cons, List.foldl_nil]
      constructor
      · rw [getLE_putLE_disjoint _ _ _ _ _ _ (by omega)]
        exact count
      · intro i bound
        by_cases last : i = k
        · subst last
          have member : lh.block.getD i 0 ∈ lh.block := by
            rw [List.getD_eq_getElem _ _ (show i < lh.block.length from within)]
            exact List.getElem_mem _
          rw [headBlock, getLE_putLE_same _ _ _ _ (by simp only [BSIZE]; omega)]
          exact Nat.mod_eq_of_lt (lh.uint _ member)
        · rw [headBlock, getLE_putLE_disjoint _ _ _ _ _ _ (by omega)]
          exact entries i (by omega)
  exact loop lh.n (le_refl _)

theorem headN_encodeHead (buf : Block) (lh : LogHeader) : headN (encodeHead buf lh) = lh.n := by
  have room : lh.n ≤ 30 := lh.room
  rw [headN, (encodeHead_words buf lh).1]
  exact Word.signed_of_range 32 _ (by omega) (by omega)

theorem readHead_encodeHead (start : Nat) (disk : Disk) (buf : Block) (lh : LogHeader)
    (header : disk start = encodeHead buf lh) : readHead start (boot disk) = some lh := by
  have read : (boot disk).bread start = encodeHead buf lh := by
    simp [boot, bread, header]
  have count : (headN (encodeHead buf lh)).toNat = lh.n := by
    simp [headN_encodeHead]
  unfold readHead
  simp only [read, count]
  rw [dif_pos (show lh.n ≤ LOGSIZE from lh.room)]
  refine congrArg some (LogHeader.ext_block _ _ ?_)
  apply List.ext_getElem
  · simp [LogHeader.n]
  · intro i left right
    simp only [List.getElem_map, List.getElem_range]
    rw [(encodeHead_words buf lh).2 i right, List.getD_eq_getElem _ _ right]

def OutsideLog (start size b : Nat) : Prop := b < start ∨ start + size ≤ b

-- A transaction that `log_write` has put together: it fits the log area and leaves it alone.
structure Loggable (start size : Nat) (lh : LogHeader) : Prop where
  fits : lh.n ≤ size - 1
  positive : 0 < size
  distinct : lh.block.Nodup
  outside : ∀ b ∈ lh.block, OutsideLog start size b

def logWrites (start : Nat) (lh : LogHeader) (content : Nat → Block) : List (Nat × Block) :=
  (List.range lh.n).map fun tail => (start + tail + 1, content (lh.block.getD tail 0))

def homeWrites (lh : LogHeader) (content : Nat → Block) : List (Nat × Block) :=
  lh.block.map fun b => (b, content b)

theorem LogHeader.getD_mem (lh : LogHeader) (tail : Nat) (bound : tail < lh.n) :
    lh.block.getD tail 0 ∈ lh.block := by
  rw [List.getD_eq_getElem _ _ (show tail < lh.block.length from bound)]
  exact List.getElem_mem _

theorem range_homeWrites (lh : LogHeader) (content : Nat → Block) :
    (List.range lh.n).map (fun tail => (lh.block.getD tail 0, content (lh.block.getD tail 0))) =
      homeWrites lh content := by
  apply List.ext_getElem
  · simp [LogHeader.n, homeWrites]
  · intro i left right
    have bound : i < lh.block.length := by simpa [homeWrites] using right
    simp only [homeWrites, List.getElem_map, List.getElem_range, List.getD_eq_getElem _ _ bound]

@[simp] theorem homeWrites_targets (lh : LogHeader) (content : Nat → Block) :
    (homeWrites lh content).map Prod.fst = lh.block := by
  simp [homeWrites, Function.comp_def]

theorem logWrites_target (start size : Nat) (lh : LogHeader) (content : Nat → Block) (b : Nat)
    (loggable : Loggable start size lh) (member : b ∈ (logWrites start lh content).map Prod.fst) :
    start < b ∧ b < start + size := by
  have fits := loggable.fits
  have positive := loggable.positive
  simp only [logWrites, List.map_map, List.mem_map, List.mem_range, Function.comp_apply] at member
  obtain ⟨tail, bound, rfl⟩ := member
  omega

theorem logWrites_distinct (start : Nat) (lh : LogHeader) (content : Nat → Block) :
    ((logWrites start lh content).map Prod.fst).Nodup := by
  simp only [logWrites, List.map_map, Function.comp_def]
  exact List.Nodup.map (fun a b same => by omega) List.nodup_range

theorem writeLog_issue (start size : Nat) (lh : LogHeader) (content : Nat → Block) (m : Machine)
    (loggable : Loggable start size lh) (cached : ∀ b ∈ lh.block, m.bread b = content b) :
    writeLog start lh m = m.issue (logWrites start lh content) := by
  have fits := loggable.fits
  have positive := loggable.positive
  have copied := m.copy_fold (fun tail => start + tail + 1) (fun tail => lh.block.getD tail 0)
    (List.range lh.n) (by
      intro s hs t ht same
      have home := loggable.outside _ (lh.getD_mem t (List.mem_range.mp ht))
      have bound := List.mem_range.mp hs
      simp only [OutsideLog, same] at home
      omega)
  rw [writeLog, copied, logWrites]
  congr 1
  apply List.map_congr_left
  intro tail bound
  rw [cached _ (lh.getD_mem tail (List.mem_range.mp bound))]

theorem installTrans_issue (start size : Nat) (lh : LogHeader) (content : Nat → Block) (m : Machine)
    (loggable : Loggable start size lh)
    (logged : ∀ tail, tail < lh.n → m.bread (start + tail + 1) = content (lh.block.getD tail 0)) :
    installTrans start lh m = m.issue (homeWrites lh content) := by
  have fits := loggable.fits
  have positive := loggable.positive
  have copied := m.copy_fold (fun tail => lh.block.getD tail 0) (fun tail => start + tail + 1)
    (List.range lh.n) (by
      intro s hs t ht same
      have home := loggable.outside _ (lh.getD_mem s (List.mem_range.mp hs))
      have bound := List.mem_range.mp ht
      simp only [OutsideLog, ← same] at home
      omega)
  rw [installTrans, copied, ← range_homeWrites]
  congr 1
  apply List.map_congr_left
  intro tail bound
  rw [logged tail (List.mem_range.mp bound)]

theorem writeHead_issue (start : Nat) (lh : LogHeader) (m : Machine) :
    ∃ buf, writeHead start lh m = m.issue [(start, encodeHead buf lh)] :=
  ⟨m.bread start, rfl⟩

-- `commit` is four runs of writes: the log blocks, the header, the home blocks, the empty header.
theorem commit_issue (start size : Nat) (lh : LogHeader) (content : Nat → Block) (m : Machine)
    (loggable : Loggable start size lh) (cached : ∀ b ∈ lh.block, m.bread b = content b)
    (something : 0 < lh.n) :
    ∃ buf buf', commit start lh m =
      m.issue (logWrites start lh content ++ ((start, encodeHead buf lh) ::
        (homeWrites lh content ++ [(start, encodeHead buf' .empty)]))) := by
  have logging := writeLog_issue start size lh content m loggable cached
  obtain ⟨buf, heading⟩ := writeHead_issue start lh (writeLog start lh m)
  have logged : ∀ tail, tail < lh.n →
      (writeHead start lh (writeLog start lh m)).bread (start + tail + 1) =
        content (lh.block.getD tail 0) := by
    intro tail bound
    rw [heading, issue_bread_untouched _ _ _ (by simp; omega), logging]
    apply issue_bread_written _ _ (logWrites_distinct start lh content)
    exact List.mem_map.mpr ⟨tail, List.mem_range.mpr bound, rfl⟩
  have installing := installTrans_issue start size lh content _ loggable logged
  obtain ⟨buf', erasing⟩ := writeHead_issue start .empty
    (installTrans start lh (writeHead start lh (writeLog start lh m)))
  refine ⟨buf, buf', ?_⟩
  simp only [commit, something, if_true]
  rw [erasing, installing, heading, logging, ← issue_append, ← issue_append, ← issue_append]
  simp

-- The two kinds of disk on which a recovery can start: nothing is pending, or a whole transaction is
-- in the log and any part of it has been installed already.
structure Settled (start size : Nat) (target : Disk) (disk : Disk) : Prop where
  erased : headN (disk start) = 0
  home : ∀ b, OutsideLog start size b → disk b = target b

structure Committed (start size : Nat) (lh : LogHeader) (content : Nat → Block) (old : Disk)
    (disk : Disk) : Prop where
  header : ∃ buf, disk start = encodeHead buf lh
  logged : ∀ tail, tail < lh.n → disk (start + tail + 1) = content (lh.block.getD tail 0)
  home : ∀ b, OutsideLog start size b → b ∉ lh.block → disk b = old b

def installed (lh : LogHeader) (content : Nat → Block) (old : Disk) : Disk :=
  fun b => if b ∈ lh.block then content b else old b

theorem outside_ne_start (start size b : Nat) (positive : 0 < size)
    (outside : OutsideLog start size b) : b ≠ start := by
  simp only [OutsideLog] at outside
  omega

theorem settled_erase (start size : Nat) (target disk : Disk) (buf : Block) (positive : 0 < size)
    (home : ∀ b, OutsideLog start size b → disk b = target b) :
    Settled start size target (write disk (start, encodeHead buf .empty)) := by
  constructor
  · rw [write_same, headN_encodeHead]
    rfl
  · intro b outside
    rw [write_other _ _ _ (outside_ne_start start size b positive outside)]
    exact home b outside

theorem recover_settled (start size : Nat) (target disk : Disk)
    (settled : Settled start size target disk) :
    ∃ buf, recoverFromLog start (boot disk) =
      some ((boot disk).issue [(start, encodeHead buf .empty)]) := by
  have read : readHead start (boot disk) = some .empty := by
    have buffer : (boot disk).bread start = disk start := by simp [boot, bread]
    simp [readHead, buffer, settled.erased, LogHeader.empty]
  obtain ⟨buf, erasing⟩ := writeHead_issue start .empty (boot disk)
  refine ⟨buf, ?_⟩
  rw [recoverFromLog, read, Option.map_some, ← erasing]
  rfl

theorem recover_committed (start size : Nat) (lh : LogHeader) (content : Nat → Block)
    (old disk : Disk) (loggable : Loggable start size lh)
    (committed : Committed start size lh content old disk) :
    ∃ buf, recoverFromLog start (boot disk) =
      some ((boot disk).issue (homeWrites lh content ++ [(start, encodeHead buf .empty)])) := by
  obtain ⟨head, header⟩ := committed.header
  have read := readHead_encodeHead start disk head lh header
  have installing := installTrans_issue start size lh content (boot disk) loggable (by
    intro tail bound
    simpa [boot, bread] using committed.logged tail bound)
  obtain ⟨buf, erasing⟩ := writeHead_issue start .empty (installTrans start lh (boot disk))
  refine ⟨buf, ?_⟩
  rw [recoverFromLog, read, Option.map_some, erasing, installing, ← issue_append]

theorem committed_crash (start size : Nat) (lh : LogHeader) (content : Nat → Block)
    (old disk : Disk) (cut : Nat) (loggable : Loggable start size lh)
    (committed : Committed start size lh content old disk) :
    Committed start size lh content old (crash disk (homeWrites lh content) cut) := by
  have fits := loggable.fits
  have positive := loggable.positive
  have keep (b : Nat) (other : b ∉ lh.block) :
      crash disk (homeWrites lh content) cut b = disk b :=
    crash_untouched disk _ cut b (by simpa using other)
  constructor
  · obtain ⟨buf, header⟩ := committed.header
    refine ⟨buf, ?_⟩
    rw [keep start (fun member =>
      outside_ne_start start size start positive (loggable.outside start member) rfl), header]
  · intro tail bound
    rw [keep (start + tail + 1), committed.logged tail bound]
    intro member
    have outside := loggable.outside _ member
    simp only [OutsideLog] at outside
    omega
  · intro b outside other
    rw [keep b other, committed.home b outside other]

theorem replay_installed (start size : Nat) (lh : LogHeader) (content : Nat → Block)
    (old disk : Disk) (loggable : Loggable start size lh)
    (committed : Committed start size lh content old disk) (b : Nat)
    (outside : OutsideLog start size b) :
    replay disk (homeWrites lh content) b = installed lh content old b := by
  by_cases member : b ∈ lh.block
  · rw [installed, if_pos member]
    apply replay_written disk _ (by simpa using loggable.distinct)
    exact List.mem_map.mpr ⟨b, member, rfl⟩
  · rw [installed, if_neg member, replay_untouched disk _ b (by simpa using member)]
    exact committed.home b outside member

theorem recoverAfter_settled (start size : Nat) (target : Disk) (positive : 0 < size)
    (cuts : List Nat) (disk : Disk) (settled : Settled start size target disk) :
    ∃ final, recoverAfter start cuts disk = some final ∧ Settled start size target final := by
  induction cuts generalizing disk with
  | nil =>
    obtain ⟨buf, recovered⟩ := recover_settled start size target disk settled
    refine ⟨write disk (start, encodeHead buf .empty), ?_, ?_⟩
    · rw [recoverAfter, recovered]
      rfl
    · exact settled_erase start size target disk buf positive settled.home
  | cons cut cuts ih =>
    obtain ⟨buf, recovered⟩ := recover_settled start size target disk settled
    rw [recoverAfter, recovered, Option.bind_some]
    apply ih
    cases cut with
    | zero => simpa [crash] using settled
    | succ cut =>
      have erase := settled_erase start size target disk buf positive settled.home
      simpa [crash, boot] using erase

theorem recoverAfter_committed (start size : Nat) (lh : LogHeader) (content : Nat → Block)
    (old : Disk) (loggable : Loggable start size lh) (cuts : List Nat) (disk : Disk)
    (committed : Committed start size lh content old disk) :
    ∃ final, recoverAfter start cuts disk = some final ∧
      Settled start size (installed lh content old) final := by
  induction cuts generalizing disk with
  | nil =>
    obtain ⟨buf, recovered⟩ := recover_committed start size lh content old disk loggable committed
    refine ⟨write (replay disk (homeWrites lh content)) (start, encodeHead buf .empty), ?_, ?_⟩
    · rw [recoverAfter, recovered, Option.map_some, issue_disk, replay_append]
      rfl
    · apply settled_erase start size _ _ buf loggable.positive
      exact replay_installed start size lh content old disk loggable committed
  | cons cut cuts ih =>
    obtain ⟨buf, recovered⟩ := recover_committed start size lh content old disk loggable committed
    rw [recoverAfter, recovered, Option.bind_some, issue_writes]
    simp only [boot, List.nil_append]
    -- either the crash hits an install write, or every write of the recovery has completed
    by_cases installing : cut ≤ (homeWrites lh content).length
    · rw [crash_append_of_le _ _ _ _ installing]
      exact ih _ (committed_crash start size lh content old disk cut loggable committed)
    · rw [crash_all _ _ _ (by simp; omega), replay_snoc]
      apply recoverAfter_settled start size _ loggable.positive
      apply settled_erase start size _ _ buf loggable.positive
      exact replay_installed start size lh content old disk loggable committed

theorem committed_head (start size : Nat) (lh : LogHeader) (content : Nat → Block) (old : Disk)
    (buf : Block) (loggable : Loggable start size lh) :
    Committed start size lh content old
      (write (replay old (logWrites start lh content)) (start, encodeHead buf lh)) := by
  constructor
  · exact ⟨buf, write_same _ _ _⟩
  · intro tail bound
    rw [write_other _ _ _ (by simp; omega)]
    apply replay_written old _ (logWrites_distinct start lh content)
    exact List.mem_map.mpr ⟨tail, List.mem_range.mpr bound, rfl⟩
  · intro b outside other
    rw [write_other _ _ _ (outside_ne_start start size b loggable.positive outside)]
    apply replay_untouched
    intro member
    have inside := logWrites_target start size lh content b loggable member
    simp only [OutsideLog] at outside
    omega

theorem settled_logging (start size : Nat) (lh : LogHeader) (content : Nat → Block) (disk : Disk)
    (cut : Nat) (loggable : Loggable start size lh) (clean : headN (disk start) = 0) :
    Settled start size disk (crash disk (logWrites start lh content) cut) := by
  have keep (b : Nat) (other : ¬ (start < b ∧ b < start + size)) :
      crash disk (logWrites start lh content) cut b = disk b :=
    crash_untouched disk _ cut b
      (fun member => other (logWrites_target start size lh content b loggable member))
  constructor
  · rw [keep start (by omega), clean]
  · intro b outside
    simp only [OutsideLog] at outside
    exact keep b (by omega)

/-- Crash atomicity of the redo log: wherever the writes of `commit` are cut off, and wherever the
recoveries that follow are, the recovery that completes leaves the header empty and the blocks
outside the log either all old or all new; the first header write decides which. -/
theorem commit_crash_atomic (start size : Nat) (lh : LogHeader) (content : Nat → Block)
    (m : Machine) (loggable : Loggable start size lh)
    (cached : ∀ b ∈ lh.block, m.cache b = some (content b))
    (fresh : m.writes = []) (clean : headN (m.disk start) = 0) (cut : Nat) (cuts : List Nat) :
    ∃ final, recoverAfter start cuts (crash m.disk (commit start lh m).writes cut) = some final ∧
      headN (final start) = 0 ∧
      (cut ≤ lh.n → ∀ b, OutsideLog start size b → final b = m.disk b) ∧
      (lh.n < cut → ∀ b, OutsideLog start size b →
        final b = if b ∈ lh.block then content b else m.disk b) := by
  by_cases something : 0 < lh.n
  · obtain ⟨buf, buf', committing⟩ := commit_issue start size lh content m loggable
      (fun b member => by simp [bread, cached b member]) something
    have count : (logWrites start lh content).length = lh.n := by simp [logWrites]
    rw [committing, issue_writes, fresh, List.nil_append]
    by_cases before : cut ≤ lh.n
    · rw [crash_append_of_le _ _ _ _ (by omega)]
      obtain ⟨final, recovered, settled⟩ := recoverAfter_settled start size m.disk loggable.positive
        cuts _ (settled_logging start size lh content m.disk cut loggable clean)
      exact ⟨final, recovered, settled.erased, fun _ => settled.home, fun after => by omega⟩
    · rw [crash_append_of_ge _ _ _ _ (by omega)]
      obtain ⟨k, position⟩ : ∃ k, cut - (logWrites start lh content).length = k + 1 :=
        ⟨cut - lh.n - 1, by omega⟩
      have head := committed_head start size lh content m.disk buf loggable
      rw [position, crash, List.take_succ_cons, replay_cons, ← crash]
      suffices ∃ final, recoverAfter start cuts
          (crash (write (replay m.disk (logWrites start lh content)) (start, encodeHead buf lh))
            (homeWrites lh content ++ [(start, encodeHead buf' .empty)]) k) = some final ∧
          Settled start size (installed lh content m.disk) final by
        obtain ⟨final, recovered, settled⟩ := this
        exact ⟨final, recovered, settled.erased, fun old => by omega, fun _ => settled.home⟩
      by_cases installing : k ≤ (homeWrites lh content).length
      · rw [crash_append_of_le _ _ _ _ installing]
        exact recoverAfter_committed start size lh content m.disk loggable cuts _
          (committed_crash start size lh content m.disk _ k loggable head)
      · rw [crash_all _ _ _ (by simp; omega), replay_snoc]
        apply recoverAfter_settled start size _ loggable.positive
        apply settled_erase start size _ _ buf' loggable.positive
        exact replay_installed start size lh content m.disk _ loggable head
  · have nothing : lh.block = [] := by
      have zero : lh.block.length = 0 := by simpa [LogHeader.n] using something
      simpa using zero
    have unchanged : Settled start size m.disk (crash m.disk (commit start lh m).writes cut) := by
      simp only [commit, something, if_false, fresh]
      simpa [crash] using (⟨clean, fun _ _ => rfl⟩ : Settled start size m.disk m.disk)
    obtain ⟨final, recovered, settled⟩ := recoverAfter_settled start size m.disk loggable.positive
      cuts _ unchanged
    refine ⟨final, recovered, settled.erased, fun _ => settled.home, fun _ b outside => ?_⟩
    simpa [nothing] using settled.home b outside

def oneBlock : LogHeader := ⟨[40], by decide, by decide⟩

def oneBlockMachine : Machine where
  disk := fun _ _ => 0
  cache := fun b => if b = 40 then some (fun _ => 7) else none
  writes := []

-- The header has reached the disk, the home block has not, and the first recovery crashes as well.
theorem commit_crash_atomic_one :
    ∃ final, recoverAfter 2 [0] (crash oneBlockMachine.disk (commit 2 oneBlock oneBlockMachine).writes 2) =
        some final ∧ headN (final 2) = 0 ∧ final 40 = fun _ => 7 := by
  obtain ⟨final, recovered, erased, -, new⟩ := commit_crash_atomic 2 4 oneBlock (fun _ _ => 7)
    oneBlockMachine ⟨by decide, by decide, by decide, by simp [oneBlock, OutsideLog]⟩
    (by simp [oneBlock, oneBlockMachine]) rfl (by decide +kernel) 2 [0]
  refine ⟨final, recovered, erased, ?_⟩
  rw [new (by decide) 40 (by simp [OutsideLog])]
  simp [oneBlock]

end Xv6
