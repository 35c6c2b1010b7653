import Xv6.Fs.ByteArray
import Xv6.Fs.Call
import Xv6.Fs.Transaction

set_option autoImplicit false

/-!
# Writers that share an open file

Processes that share a `struct file` and call `filewrite` on it. A call goes through its loop, one
transaction at a time, and the turns of different calls come in any order. The offset is read and moved
while the inode is locked, so the turns append to the file one after the other.
-/

namespace Xv6.Fs.Shared

open Prog

section Lifting

variable {σ α : Type} {k : Kernel σ}

theorem tables_eq : (tables : Op (Kernel σ) Tables) k = .ok (k.toTables, k) := rfl

theorem setFile_eq (f : FileId) (file : File → File) : (setFile f file : Op (Kernel σ) Unit) k =
    .ok ((), { k with file := Function.update k.file f (file (k.file f)) }) := rfl

theorem onFs_eq {m : Op σ α} {a : α} {s' : σ} (ends : m k.fs = .ok (a, s')) :
    onFs m k = .ok (a, { k with fs := s' }) := by
  simp only [onFs, ends]

theorem onFs_ok {m : Op σ α} {a : α} {k' : Kernel σ} (ends : onFs m k = .ok (a, k')) :
    ∃ s', m k.fs = .ok (a, s') ∧ k' = { k with fs := s' } := by
  unfold onFs at ends
  cases result : m k.fs with
  | error e =>
    rw [result] at ends
    cases ends
  | ok r =>
    rw [result] at ends
    cases ends
    exact ⟨r.2, rfl, rfl⟩

end Lifting

/-- A process with its calls: the first one is in progress, with `i` bytes written. -/
structure Writer where
  calls : List (List UInt8)
  i : Nat
  returned : List Int

structure State (P : Type) where
  kernel : Kernel Fs.State
  writer : P → Writer

-- The next turn of the loop of `filewrite`, or its end.
def loopTurn (f : FileId) (ip : Slot) (k : Kernel Fs.State) (w : Writer) (data : List UInt8)
    (later : List (List UInt8)) : Except Stop (Kernel Fs.State × Writer) :=
  if w.i < data.length then
    let n1 := min (data.length - w.i) maxWrite
    match writeTurn inodeOps f ip (fun j => data.getD (w.i + j) 0) n1 k with
    | .error why => .error why
    | .ok (r, k) =>
      if r < 0 then .ok (k, ⟨later, 0, w.returned ++ [-1]⟩)
      else if r ≠ n1 then .error (.panic .shortFilewrite)
      else .ok (k, ⟨data :: later, w.i + n1, w.returned⟩)
  else .ok (k, ⟨later, 0, w.returned ++ [if w.i = data.length then (data.length : Int) else -1]⟩)

-- What the checks before the loop find does not change during the calls.
def turn (f : FileId) (k : Kernel Fs.State) (w : Writer) : Except Stop (Kernel Fs.State × Writer) :=
  match w.calls with
  | [] => .ok (k, w)
  | data :: later =>
    if (k.file f).writable = false then .ok (k, ⟨later, 0, w.returned ++ [-1]⟩)
    else
      match (k.file f).type with
      | .inode ip => loopTurn f ip k w data later
      -- Not a file with an inode.
      | .pipe _ _ => .error .misuse
      | .none => .error (.panic .filewrite)

section Machine

variable {P : Type} [DecidableEq P]

def step (f : FileId) (s : State P) (p : P) : Option (State P) :=
  match turn f s.kernel (s.writer p) with
  | .ok (kernel, w) => some ⟨kernel, Function.update s.writer p w⟩
  | .error _ => none

def start (k : Kernel Fs.State) (calls : P → List (List UInt8)) : State P := ⟨k, fun p => ⟨calls p, 0, []⟩⟩

end Machine

/-- The pieces that a call writes its bytes in. -/
def pieces (data : List UInt8) : List (List UInt8) :=
  if data = [] then [] else data.take maxWrite :: pieces (data.drop maxWrite)
termination_by data.length
decreasing_by
  rename_i some_
  have := List.length_pos_iff.mpr some_
  have large : 0 < maxWrite := by decide
  rw [List.length_drop]
  omega

theorem pieces_nil : pieces [] = [] := by
  rw [pieces, if_pos rfl]

theorem pieces_drop (data : List UInt8) (i : Nat) (more : i < data.length) :
    pieces (data.drop i) =
      (data.drop i).take maxWrite :: pieces (data.drop (i + min (data.length - i) maxWrite)) := by
  have some_ : data.drop i ≠ [] := by
    rw [ne_eq, List.drop_eq_nil_iff]
    omega
  rw [pieces, if_neg some_, List.drop_drop]
  by_cases last : data.length - i ≤ maxWrite
  · rw [List.drop_eq_nil_of_le (show data.length ≤ i + maxWrite by omega),
      List.drop_eq_nil_of_le (show data.length ≤ i + min (data.length - i) maxWrite by omega)]
  · rw [min_eq_right (by omega)]

section Turn

theorem writeBytes_appends (node : Node) (file : node.type ≠ tDev) (src : Nat → UInt8) (off : UInt32) (n : Nat)
    (end_ : off.toNat = node.data.length) (some_ : 0 < n) (small : n ≤ maxWrite) (r : Node)
    (written : Spec.writeBytes node src off (UInt32.ofNat n) = ((n : Int), r)) :
    r = { node with data := node.data ++ (List.range n).map src } ∧ off.toNat + n ≤ MAXFILE * BSIZE := by
  have large : maxWrite < 2 ^ 31 := by decide
  have count : (UInt32.ofNat n).toNat = n := by
    rw [UInt32.toNat_ofNat']
    omega
  rw [Spec.writeBytes, if_neg file] at written
  split_ifs at written with outside long
  · have := (Prod.mk.inj written).1
    omega
  · have := (Prod.mk.inj written).1
    omega
  · have sum := add_toNat_of_no_wrap off (UInt32.ofNat n) (not_or.mp outside).2
    refine ⟨?_, by omega⟩
    rw [← (Prod.mk.inj written).2, count, end_, Spec.splice, List.take_length,
      List.drop_eq_nil_of_le (Nat.le_add_right _ _), List.append_nil]

theorem writeTurn_eq {σ : Type} {ops : Ops σ} {k : Kernel σ} {f : FileId} {ip : Slot} {src : Nat → UInt8} {n : Nat}
    {r : Int} {s₁ s₂ s₃ s₄ s₅ : σ} (begun : ops.beginOp k.fs = .ok ((), s₁))
    (locked : ops.ilock ip s₁ = .ok ((), s₂))
    (written : ops.writei ip src (k.file f).off (UInt32.ofNat n) s₂ = .ok (r, s₃))
    (unlocked : ops.iunlock ip s₃ = .ok ((), s₄)) (ended : ops.endOp s₄ = .ok ((), s₅)) :
    ∃ t : Tables, writeTurn ops f ip src n k = .ok (r, ⟨t, s₅⟩) := by
  rw [writeTurn, bind_ok (onFs_eq begun), bind_ok (onFs_eq locked), bind_ok tables_eq, bind_ok (onFs_eq written), advance]
  split_ifs
  · rw [bind_ok (setFile_eq _ _), bind_ok (onFs_eq unlocked), bind_ok (onFs_eq ended)]
    exact ⟨_, rfl⟩
  · exact ⟨k.toTables, by rw [bind_ok rfl, bind_ok (onFs_eq unlocked), bind_ok (onFs_eq ended)]; rfl⟩

theorem writeTurn_ok {σ : Type} {ops : Ops σ} {k k' : Kernel σ} {f : FileId} {ip : Slot} {src : Nat → UInt8} {n : Nat}
    {r : Int} (turn : writeTurn ops f ip src n k = .ok (r, k')) :
    ∃ s₁ s₂ s₃ s₄, ops.beginOp k.fs = .ok ((), s₁) ∧ ops.ilock ip s₁ = .ok ((), s₂) ∧
      ops.writei ip src (k.file f).off (UInt32.ofNat n) s₂ = .ok (r, s₃) ∧ ops.iunlock ip s₃ = .ok ((), s₄) ∧
      ops.endOp s₄ = .ok ((), k'.fs) ∧ k'.file = if 0 < r then Function.update k.file f
        { k.file f with off := (k.file f).off + UInt32.ofNat r.toNat } else k.file := by
  unfold writeTurn at turn
  obtain ⟨_, k₁, first, turn⟩ := ok_of_bind turn
  obtain ⟨s₁, begun, rfl⟩ := onFs_ok first
  obtain ⟨_, k₂, second, turn⟩ := ok_of_bind turn
  obtain ⟨s₂, locked, rfl⟩ := onFs_ok second
  obtain ⟨_, _, read, turn⟩ := ok_of_bind turn
  cases read
  obtain ⟨r, k₃, third, turn⟩ := ok_of_bind turn
  obtain ⟨s₃, written, rfl⟩ := onFs_ok third
  obtain ⟨_, k₄, moved, turn⟩ := ok_of_bind turn
  obtain ⟨_, k₅, fourth, turn⟩ := ok_of_bind turn
  obtain ⟨s₄, unlocked, rfl⟩ := onFs_ok fourth
  obtain ⟨_, k₆, fifth, turn⟩ := ok_of_bind turn
  obtain ⟨s₅, ended, rfl⟩ := onFs_ok fifth
  cases turn
  rw [advance] at moved
  split_ifs at moved with some_
  · cases moved
    exact ⟨s₁, s₂, s₃, s₄, begun, locked, written, unlocked, ended, (if_pos some_).symm⟩
  · cases moved
    exact ⟨s₁, s₂, s₃, s₄, begun, locked, written, unlocked, ended, (if_neg some_).symm⟩

variable {sb : Superblock} (layout : Layout sb)

include layout

theorem writeTurn_appends {k k' : Kernel Fs.State} {a : Nodes} {f : FileId} {ip : Slot} {src : Nat → UInt8} {n i : Nat}
    {data : List UInt8} (rep : Rep sb k.fs a) (live : 0 < (a.cache ip).ref) (inum : (a.cache ip).inum = i)
    (file : (a.node i).type ≠ tDev) (contents : (a.node i).data = data) (end_ : (k.file f).off.toNat = data.length)
    (some_ : 0 < n) (small : n ≤ maxWrite) (turn : writeTurn inodeOps f ip src n k = .ok ((n : Int), k')) :
    (∃ a', Rep sb k'.fs a' ∧ (Spec.Usable (a'.cache ip) ∧ (a'.cache ip).busy = false) ∧ (a'.cache ip).inum = i ∧
      (a'.node i).type ≠ tDev ∧ (a'.node i).data = data ++ (List.range n).map src) ∧ (k'.file f).off.toNat = data.length + n ∧
      (k'.file f).type = (k.file f).type := by
  obtain ⟨s₁, s₂, s₃, s₄, begun, locked, written, unlocked, ended, files⟩ := writeTurn_ok turn
  rw [if_pos (by omega)] at files
  obtain ⟨a₁, same₁, rep₁⟩ := beginOp_refines.ok rep (fun same => by cases same) begun
  cases same₁
  obtain ⟨a₂, same₂, rep₂⟩ := (ilock_refines ip).ok rep₁ (Spec.ilock_defined ip a) locked
  obtain ⟨-, rfl⟩ := Spec.ilock_ok same₂
  set b := a.setEntry ip { a.cache ip with busy := true, valid := true } with hb
  have entry : b.cache ip = { a.cache ip with busy := true, valid := true } := by
    rw [hb, Nodes.setEntry_cache, Function.update_self]
  have usable : Spec.Usable (b.cache ip) := by
    rw [entry]
    exact ⟨live, rfl⟩
  have number : (b.cache ip).inum = i := by rw [entry, ← inum]
  obtain ⟨r, node, writes⟩ : ∃ r node, Spec.writeBytes (a.node i) src (k.file f).off (UInt32.ofNat n) = (r, node) :=
    ⟨_, _, rfl⟩
  have spec : Spec.writei ip src (k.file f).off (UInt32.ofNat n) b = .ok (r, b.setNode i node) := by
    simp only [Spec.writei, if_pos usable, number]
    rw [show b.node i = a.node i from rfl, writes]
  obtain ⟨a₃, same₃, rep₃⟩ := (writei_refines layout ip src _ _).ok rep₂ (by rw [spec]; simp) written
  rw [spec] at same₃
  obtain ⟨rfl, rfl⟩ := Prod.mk.inj (Except.ok.inj same₃)
  obtain ⟨rfl, fits⟩ := writeBytes_appends _ file src (k.file f).off n (by rw [contents, end_]) some_ small _ writes
  obtain ⟨a₄, same₄, rep₄⟩ := (iunlock_refines ip).ok rep₃ (Spec.iunlock_defined ip _) unlocked
  obtain rfl := Spec.iunlock_ok same₄
  obtain ⟨a₅, same₅, rep₅⟩ := endOp_refines.ok rep₄ (fun same => by cases same) ended
  cases same₅
  refine ⟨⟨_, rep₅, ?_, ?_, ?_, ?_⟩, ?_, by rw [files, Function.update_self]⟩
  · simpa [entry, Spec.Usable] using live
  · simpa [entry] using inum
  · simpa using file
  · simp [contents]
  · have sum : ((k.file f).off + UInt32.ofNat n).toNat = (k.file f).off.toNat + n := by
      simp only [MAXFILE, NDIRECT, NINDIRECT, BSIZE] at fits
      rw [UInt32.toNat_add, UInt32.toNat_ofNat']
      omega
    rw [files, Function.update_self, Int.toNat_natCast, sum, end_]

end Turn

section Progress

theorem ilock_loaded {s : Fs.State} {ip : Slot} (live : 0 < (s.icache ip).ref) (free : (s.icache ip).busy = false)
    (valid : (s.icache ip).valid = true) :
    ilock ip s = .ok ((), s.setEntry ip { s.icache ip with busy := true }) := by
  have some_ : ¬ (s.icache ip).ref < 1 := by omega
  rw [ilock, bind_ok get_eq, bind_ok inodeOf_eq, if_neg some_, if_neg (by simp [free]), bind_ok (setInode_eq _),
    if_pos valid]
  rfl

variable {sb : Superblock} {k : Kernel Fs.State} {a : Nodes} {f : FileId} {ip : Slot}

theorem writeTurn_returns (layout : Layout sb) (rep : Rep sb k.fs a) (usable : Spec.Usable (a.cache ip))
    (free : (a.cache ip).busy = false) (file : (a.node (a.cache ip).inum).type ≠ tDev)
    (idle : Idle k.fs.log) (src : Nat → UInt8) (n : Nat) (some_ : 0 < n)
    (inside : (k.file f).off.toNat ≤ (a.node (a.cache ip).inum).data.length)
    (fits : (k.file f).off.toNat + n ≤ MAXFILE * BSIZE)
    (blocks : (missing k.fs.disk (k.fs.icache ip).toDinode (Split.chunks BSIZE (k.file f).off.toNat n)).card ≤
      freeBlocks sb (bitAt sb k.fs.disk))
    (header : (Split.chunks BSIZE (k.file f).off.toNat n).length + (sb.size / BPB + 1) + 2 < LOGSIZE)
    (area : (Split.chunks BSIZE (k.file f).off.toNat n).length + (sb.size / BPB + 1) + 3 < k.fs.log.size) :
    ∃ k' a', writeTurn inodeOps f ip src n k = .ok ((n : Int), k') ∧ Idle k'.fs.log ∧
      k'.fs.log.size = k.fs.log.size ∧ Rep sb k'.fs a' ∧ Spec.Usable (a'.cache ip) ∧ (a'.cache ip).busy = false ∧
      (a'.node (a'.cache ip).inum).type = (a.node (a.cache ip).inum).type ∧
      (a'.node (a'.cache ip).inum).data.length = max (a.node (a.cache ip).inum).data.length ((k.file f).off.toNat + n) := by
  have nothing : k.fs.log.lh.n = 0 := by
    rw [idle.2.2]
    rfl
  have begun := beginOp_idle idle
  obtain ⟨a₁, same₁, rep₁⟩ := beginOp_refines.ok rep (fun same => by cases same) begun
  cases same₁
  obtain ⟨entry, loaded⟩ : a.cache ip = (k.fs.icache ip).toEntry ∧ 0 < (k.fs.icache ip).ref := by
    obtain ⟨v, c, at_, holds⟩ := rep
    rw [at_.cache, ← holds.entry]
    exact ⟨rfl, usable.1⟩
  have locked := @ilock_loaded { k.fs with log := { k.fs.log with outstanding := 1 } } ip loaded
    (by rw [← free, entry]) (by rw [← usable.2, entry])
  obtain ⟨a₂, same₂, rep₂⟩ := (ilock_refines ip).ok rep₁ (Spec.ilock_defined ip a) locked
  obtain ⟨-, rfl⟩ := Spec.ilock_ok same₂
  have cached : (a.setEntry ip { a.cache ip with busy := true, valid := true }).cache ip =
      { a.cache ip with busy := true, valid := true } := by
    rw [Nodes.setEntry_cache, Function.update_self]
  have count : (UInt32.ofNat n).toNat = n := by
    simp only [MAXFILE, NDIRECT, NINDIRECT, BSIZE] at fits
    rw [UInt32.toNat_ofNat']
    omega
  obtain ⟨s₃, a₃, written, rep₃, rewritten⟩ := rep₂.writei_written (by rw [cached]; exact ⟨usable.1, rfl⟩) layout
    (by rw [cached]; exact file) src (k.file f).off (UInt32.ofNat n)
    (by
      rw [cached, Refuses, count, Nodes.setEntry_node]
      simp only [MAXFILE, NDIRECT, NINDIRECT, BSIZE] at fits ⊢
      omega)
    (by
      rw [count]
      refine available_of_few ?_ le_rfl ?_ ?_
      · simpa [State.setEntry] using blocks
      · change k.fs.log.lh.n + _ < _
        omega
      · change k.fs.log.lh.n + _ + 1 < k.fs.log.size
        omega)
  rw [count] at written
  have held : 0 < (s₃.icache ip).ref ∧ (s₃.icache ip).busy = true := by
    obtain ⟨v, c, at_, holds⟩ := rep₃
    have kept := holds.entry ip
    rw [rewritten.cache, cached] at kept
    rw [at_.cache, ← kept]
    exact ⟨usable.1, rfl⟩
  have unlocked := iunlock_held held.1 held.2
  have log := wp_ok _ _ _ written (keeps_writei ip src (k.file f).off (UInt32.ofNat n) _)
  have ended := @endOp_last (s₃.setEntry ip { s₃.icache ip with busy := false })
    (by
      change s₃.log.outstanding = 1
      rw [log]
      rfl)
    (by
      change s₃.log.committing = false
      rw [log]
      exact idle.2.1)
  obtain ⟨a₄, same₄, rep₄⟩ := (iunlock_refines ip).ok rep₃ (Spec.iunlock_defined ip _) unlocked
  obtain rfl := Spec.iunlock_ok same₄
  obtain ⟨a₅, same₅, rep₅⟩ := endOp_refines.ok rep₄ (fun same => by cases same) ended
  cases same₅
  obtain ⟨t, turn⟩ := @writeTurn_eq Fs.State inodeOps k f ip src n _ _ _ _ _ _ begun locked written unlocked ended
  have size := rewritten.size
  have attrs := congrArg Node.type rewritten.attrs
  rw [cached, count, Nodes.setEntry_node] at size
  rw [cached, Nodes.setEntry_node] at attrs
  refine ⟨_, _, turn, ⟨rfl, ?_, rfl⟩, ?_, rep₅, ?_, ?_, ?_, ?_⟩
  · change s₃.log.committing = false
    rw [log]
    exact idle.2.1
  · change s₃.log.size = k.fs.log.size
    rw [log]
    rfl
  · simpa [rewritten.cache, Spec.Usable] using usable.1
  · simp
  · simpa [rewritten.cache] using attrs
  · simpa [rewritten.cache] using size

theorem writeTurn_refuses (rep : Rep sb k.fs a) (usable : Spec.Usable (a.cache ip)) (free : (a.cache ip).busy = false)
    (file : (a.node (a.cache ip).inum).type ≠ tDev) (idle : Idle k.fs.log) (src : Nat → UInt8) (n : Nat)
    (refuses : Refuses (a.node (a.cache ip).inum).data.length (k.file f).off (UInt32.ofNat n)) :
    ∃ k', writeTurn inodeOps f ip src n k = .ok (-1, k') := by
  have begun := beginOp_idle idle
  obtain ⟨a₁, same₁, rep₁⟩ := beginOp_refines.ok rep (fun same => by cases same) begun
  cases same₁
  obtain ⟨entry, live⟩ : a.cache ip = (k.fs.icache ip).toEntry ∧ 0 < (k.fs.icache ip).ref := by
    obtain ⟨v, c, at_, holds⟩ := rep
    rw [at_.cache, ← holds.entry]
    exact ⟨rfl, usable.1⟩
  let s₁ : Fs.State := { k.fs with log := { k.fs.log with outstanding := 1 } }
  let s₂ := s₁.setEntry ip { s₁.icache ip with busy := true }
  have locked : ilock ip s₁ = .ok ((), s₂) := ilock_loaded live (by rw [← free, entry]) (by rw [← usable.2, entry])
  obtain ⟨a₂, same₂, rep₂⟩ := (ilock_refines ip).ok rep₁ (Spec.ilock_defined ip a) locked
  obtain ⟨-, rfl⟩ := Spec.ilock_ok same₂
  have cached : (a.setEntry ip { a.cache ip with busy := true, valid := true }).cache ip =
      { a.cache ip with busy := true, valid := true } := by
    rw [Nodes.setEntry_cache, Function.update_self]
  have written := rep₂.writei_refused (by rw [cached]; exact ⟨usable.1, rfl⟩) (by rw [cached]; exact file) src
    (k.file f).off (UInt32.ofNat n) (by rw [cached]; exact refuses)
  have held : s₂.icache ip = { k.fs.icache ip with busy := true } := Function.update_self _ _ _
  have unlocked := @iunlock_held s₂ ip (by rw [held]; exact live) (by rw [held])
  have ended := @endOp_last (s₂.setEntry ip { s₂.icache ip with busy := false }) rfl idle.2.1
  obtain ⟨t, turn⟩ := @writeTurn_eq Fs.State inodeOps k f ip src n _ _ _ _ _ _ begun locked written unlocked ended
  exact ⟨_, turn⟩

end Progress

section Runs

variable {P : Type} [DecidableEq P]

-- The pieces of one process, among those of all.
def own (h : List (P × List UInt8)) (p : P) : List (List UInt8) := (h.filter (·.1 = p)).map Prod.snd

theorem own_append (h : List (P × List UInt8)) (p q : P) (piece : List UInt8) :
    own (h ++ [(p, piece)]) q = own h q ++ if p = q then [piece] else [] := by
  by_cases same : p = q <;> simp [own, same]

def Writer.left (w : Writer) : List (List UInt8) :=
  match w.calls with
  | [] => []
  | data :: later => pieces (data.drop w.i) ++ later.flatMap pieces

def Failed (s : State P) : Prop := ∃ p, -1 ∈ (s.writer p).returned

/-- The file is what it was and the pieces in the order of their turns. -/
structure Sound (sb : Superblock) (f : FileId) (ip : Slot) (i : Nat) (initial : List UInt8)
    (calls : P → List (List UInt8)) (s : State P) (a : Nodes) (h : List (P × List UInt8)) : Prop where
  rep : Rep sb s.kernel.fs a
  type : (s.kernel.file f).type = .inode ip
  live : 0 < (a.cache ip).ref
  inum : (a.cache ip).inum = i
  file : (a.node i).type ≠ tDev
  data : (a.node i).data = initial ++ (h.map Prod.snd).flatten
  off : (s.kernel.file f).off.toNat = (a.node i).data.length
  left : ∀ p, own h p ++ (s.writer p).left = (calls p).flatMap pieces
  count : ∀ p, (s.writer p).returned.length + (s.writer p).calls.length = (calls p).length

theorem piece_eq (data : List UInt8) (i : Nat) :
    (List.range (min (data.length - i) maxWrite)).map (fun j => data.getD (i + j) 0) = (data.drop i).take maxWrite := by
  apply List.ext_getElem
  · simp [Nat.min_comm]
  · intro j short _
    simp only [List.length_map, List.length_range] at short
    simp only [List.getElem_map, List.getElem_range, List.getElem_take, List.getElem_drop]
    exact List.getD_eq_getElem _ _ (by omega)

theorem turn_cases {f : FileId} {k k' : Kernel Fs.State} {w w' : Writer} (result : turn f k w = .ok (k', w')) :
    (w.calls = [] ∧ k' = k ∧ w' = w) ∨
      ∃ data later, w.calls = data :: later ∧
        (w' = ⟨later, 0, w.returned ++ [-1]⟩ ∨
          (k' = k ∧ w.i = data.length ∧ w' = ⟨later, 0, w.returned ++ [(data.length : Int)]⟩) ∨
          ∃ ip, (k.file f).type = .inode ip ∧ w.i < data.length ∧
            writeTurn inodeOps f ip (fun j => data.getD (w.i + j) 0) (min (data.length - w.i) maxWrite) k =
              .ok ((min (data.length - w.i) maxWrite : Nat), k') ∧
            w' = ⟨data :: later, w.i + min (data.length - w.i) maxWrite, w.returned⟩) := by
  unfold turn at result
  cases current : w.calls with
  | nil =>
    rw [current] at result
    cases result
    exact .inl ⟨rfl, rfl, rfl⟩
  | cons data later =>
    rw [current] at result
    simp only at result
    refine .inr ⟨data, later, rfl, ?_⟩
    split_ifs at result with closed
    · cases result
      exact .inl rfl
    · cases type : (k.file f).type with
      | none =>
        rw [type] at result
        cases result
      | pipe page serial =>
        rw [type] at result
        cases result
      | inode ip =>
        rw [type] at result
        simp only [loopTurn] at result
        split_ifs at result with more whole
        · cases written : writeTurn inodeOps f ip (fun j => data.getD (w.i + j) 0) (min (data.length - w.i) maxWrite) k with
          | error why =>
            rw [written] at result
            cases result
          | ok r =>
            rw [written] at result
            simp only at result
            split_ifs at result with negative short
            · cases result
              exact .inl rfl
            · cases result
              rw [not_not] at short
              exact .inr (.inr ⟨ip, rfl, more, by rw [← short]; exact written, rfl⟩)
        · cases result
          exact .inr (.inl ⟨rfl, whole, rfl⟩)
        · cases result
          exact .inl rfl

variable {sb : Superblock} {f : FileId} {ip : Slot} {i : Nat} {initial : List UInt8} {calls : P → List (List UInt8)}
  {s t : State P} {a : Nodes} {h : List (P × List UInt8)}

theorem Sound.writer (sound : Sound sb f ip i initial calls s a h) (p : P) (w : Writer)
    (left : w.left = (s.writer p).left)
    (count : w.returned.length + w.calls.length = (s.writer p).returned.length + (s.writer p).calls.length) :
    Sound sb f ip i initial calls ⟨s.kernel, Function.update s.writer p w⟩ a h where
  rep := sound.rep
  type := sound.type
  live := sound.live
  inum := sound.inum
  file := sound.file
  data := sound.data
  off := sound.off
  left q := by
    by_cases same : q = p
    · subst same
      simp only [Function.update_self, left]
      exact sound.left q
    · simp only [Function.update_of_ne same]
      exact sound.left q
  count q := by
    by_cases same : q = p
    · subst same
      simp only [Function.update_self, count]
      exact sound.count q
    · simp only [Function.update_of_ne same]
      exact sound.count q

theorem Sound.piece (layout : Layout sb) (sound : Sound sb f ip i initial calls s a h) (p : P) (data : List UInt8)
    (later : List (List UInt8)) (current : (s.writer p).calls = data :: later) (more : (s.writer p).i < data.length)
    (k' : Kernel Fs.State)
    (written : writeTurn inodeOps f ip (fun j => data.getD ((s.writer p).i + j) 0)
      (min (data.length - (s.writer p).i) maxWrite) s.kernel = .ok ((min (data.length - (s.writer p).i) maxWrite : Nat), k')) :
    ∃ a', Sound sb f ip i initial calls ⟨k', Function.update s.writer p
      ⟨data :: later, (s.writer p).i + min (data.length - (s.writer p).i) maxWrite, (s.writer p).returned⟩⟩ a'
      (h ++ [(p, (data.drop (s.writer p).i).take maxWrite)]) := by
  have large : 0 < maxWrite := by decide
  obtain ⟨⟨a', rep, ⟨usable, -⟩, inum, file, contents⟩, off, type⟩ := writeTurn_appends layout sound.rep sound.live sound.inum
    sound.file sound.data (sound.data ▸ sound.off) (by omega) (Nat.min_le_right _ _) written
  rw [piece_eq] at contents
  refine ⟨a', rep, type.trans sound.type, usable.1, inum, file, ?_, ?_, fun q => ?_, fun q => ?_⟩
  · simp [contents]
  · rw [contents, List.length_append, off]
    simp [Nat.min_comm]
  · rw [own_append]
    by_cases same : p = q
    · subst same
      rw [if_pos rfl, ← sound.left p]
      simp only [Function.update_self, Writer.left, current]
      rw [pieces_drop data _ more]
      simp
    · simp only [if_neg same, Function.update_of_ne (Ne.symm same), List.append_nil]
      exact sound.left q
  · have count := sound.count q
    by_cases same : q = p
    · subst same
      simpa only [Function.update_self, current] using count
    · simpa only [Function.update_of_ne same] using count

theorem step_turn {p : P} (moved : step f s p = some t) :
    ∃ k' w, turn f s.kernel (s.writer p) = .ok (k', w) ∧ t = ⟨k', Function.update s.writer p w⟩ := by
  unfold step at moved
  split at moved
  next k' w result => exact ⟨k', w, result, (Option.some.inj moved).symm⟩
  next => cases moved

theorem Sound.step (layout : Layout sb) (sound : Sound sb f ip i initial calls s a h) (p : P)
    (moved : step f s p = some t) : Failed t ∨ ∃ a' h', Sound sb f ip i initial calls t a' h' := by
  obtain ⟨k', w, result, rfl⟩ := step_turn moved
  rcases turn_cases result with ⟨-, rfl, rfl⟩ | ⟨data, later, current, rfl | ⟨rfl, whole, rfl⟩ | ⟨ip', type, more, written, rfl⟩⟩
  · exact .inr ⟨a, h, sound.writer p _ rfl rfl⟩
  · exact .inl ⟨p, by simp⟩
  · refine .inr ⟨a, h, sound.writer p _ ?_ ?_⟩
    · simp only [Writer.left, current]
      rw [whole, List.drop_length, pieces_nil, List.nil_append]
      cases later with
      | nil => rfl
      | cons d later => simp only [List.drop_zero, List.flatMap_cons]
    · simp [current]
      omega
  · obtain rfl : ip' = ip := FileType.inode.inj (type.symm.trans sound.type)
    obtain ⟨a', next⟩ := sound.piece layout p data later current more k' written
    exact .inr ⟨a', _, next⟩

theorem Failed.step (failed : Failed s) (p : P) (moved : step f s p = some t) : Failed t := by
  obtain ⟨q, member⟩ := failed
  obtain ⟨k', w, result, rfl⟩ := step_turn moved
  have kept : (s.writer p).returned ⊆ w.returned := by
    rcases turn_cases result with ⟨-, -, rfl⟩ | ⟨data, later, -, rfl | ⟨-, -, rfl⟩ | ⟨-, -, -, -, rfl⟩⟩
    · exact List.Subset.refl _
    · exact List.subset_append_left _ _
    · exact List.subset_append_left _ _
    · exact List.Subset.refl _
  refine ⟨q, ?_⟩
  by_cases same : q = p
  · subst same
    simp only [Function.update_self]
    exact kept member
  · simp only [Function.update_of_ne same]
    exact member

theorem start_sound {k : Kernel Fs.State} (rep : Rep sb k.fs a) (type : (k.file f).type = .inode ip)
    (live : 0 < (a.cache ip).ref) (file : (a.node (a.cache ip).inum).type ≠ tDev)
    (end_ : (k.file f).off.toNat = (a.node (a.cache ip).inum).data.length) (calls : P → List (List UInt8)) :
    Sound sb f ip (a.cache ip).inum (a.node (a.cache ip).inum).data calls (start k calls) a [] where
  rep := rep
  type := type
  live := live
  inum := rfl
  file := file
  data := by simp
  off := end_
  left p := by
    cases pending : calls p with
    | nil => simp [own, start, Writer.left, pending]
    | cons d later => simp [own, start, Writer.left, pending]
  count p := by simp [start]

theorem turn_open {k : Kernel Fs.State} {w : Writer} {data : List UInt8} {later : List (List UInt8)}
    (current : w.calls = data :: later) (type : (k.file f).type = .inode ip) (open_ : (k.file f).writable = true) :
    turn f k w = loopTurn f ip k w data later := by
  simp only [turn, current, type, open_, Bool.true_eq_false, if_false]

theorem step_writes (p : P) (writer : P → Writer) {data : List UInt8} {later : List (List UInt8)} {i : Nat}
    {returned : List Int} (current : writer p = ⟨data :: later, i, returned⟩) {k k' : Kernel Fs.State}
    (type : (k.file f).type = .inode ip) (open_ : (k.file f).writable = true) (more : i < data.length)
    (written : writeTurn inodeOps f ip (fun j => data.getD (i + j) 0) (min (data.length - i) maxWrite) k =
      .ok (((min (data.length - i) maxWrite : Nat) : Int), k')) :
    step f ⟨k, writer⟩ p =
      some ⟨k', Function.update writer p ⟨data :: later, i + min (data.length - i) maxWrite, returned⟩⟩ := by
  have positive : ¬ ((min (data.length - i) maxWrite : Nat) : Int) < 0 := by omega
  rw [step, turn_open (congrArg Writer.calls current) type open_]
  simp only [loopTurn, current, if_pos more, written, if_neg positive, ne_eq, not_true, if_false]

theorem step_returns (p : P) (writer : P → Writer) {data : List UInt8} {later : List (List UInt8)}
    {returned : List Int} (current : writer p = ⟨data :: later, data.length, returned⟩) {k : Kernel Fs.State}
    (type : (k.file f).type = .inode ip) (open_ : (k.file f).writable = true) :
    step f ⟨k, writer⟩ p = some ⟨k, Function.update writer p ⟨later, 0, returned ++ [(data.length : Int)]⟩⟩ := by
  rw [step, turn_open (congrArg Writer.calls current) type open_]
  simp [loopTurn, current]

-- An open file on an image with one empty file, and two processes that write two bytes and one.
def openFile : Tables := { bootTables [] with file := fun _ => ⟨.inode 1, 1, true, true, 0⟩ }

def pair : Bool → List (List UInt8)
  | true => [[1, 2]]
  | false => [[3]]

theorem pair_run : ∃ (k : Kernel Fs.State) (a : Nodes) (s : State Bool), Rep Mkfs.sb k.fs a ∧
    (k.file 0).type = .inode 1 ∧ 0 < (a.cache 1).ref ∧ (a.node (a.cache 1).inum).type = tFile ∧
    (k.file 0).off.toNat = (a.node (a.cache 1).inum).data.length ∧
    Run.exec (step 0) (start k pair) [true, false, true, false] = some s ∧
    ∀ p, (s.writer p).returned = (pair p).map fun data => (data.length : Int) := by
  obtain ⟨disk, v, opened⟩ := Mkfs.exists_opened
  obtain ⟨rep, node, free⟩ := opened 0 false
  let k : Kernel Fs.State := ⟨openFile, Mkfs.opened disk 0 false⟩
  let a := Mkfs.found v (Mkfs.opened disk 0 false).icache
  have empty : a.node (a.cache 1).inum = ⟨tFile, 0, 0, 1, []⟩ := node
  have regular : (a.node (a.cache 1).inum).type ≠ tDev := by
    rw [empty]
    decide
  have end_ : (k.file 0).off.toNat = (a.node (a.cache 1).inum).data.length := by
    rw [empty]
    rfl
  obtain ⟨k₁, a₁, turn₁, idle₁, size₁, rep₁, usable₁, free₁, type₁, length₁⟩ := @writeTurn_returns Mkfs.sb k a 0 1 Mkfs.layout rep ⟨one_pos, rfl⟩ rfl regular
    ⟨rfl, rfl, rfl⟩ (fun j => [1, 2].getD (0 + j) 0) 2 (by decide) end_.le (show 0 + 2 ≤ _ from by decide)
    ((missing_card_le _ _ _).trans (le_trans (show (Split.chunks BSIZE 0 2).length + 1 ≤ 1900 from by decide) free))
    (show (Split.chunks BSIZE 0 2).length + _ + 2 < _ from by decide)
    (show (Split.chunks BSIZE 0 2).length + _ + 3 < 30 from by decide)
  replace length₁ : (a₁.node (a₁.cache 1).inum).data.length = 2 := by
    rw [length₁, empty]
    rfl
  obtain ⟨-, -, -, -, -, -, -, -, -, files₁⟩ := writeTurn_ok turn₁
  rw [if_pos (by decide)] at files₁
  have two : (k₁.file 0).off.toNat = 2 := by
    rw [files₁, Function.update_self]
    rfl
  -- The second call finds the first block of the file in its place.
  have first := Rep.filled rep₁ usable₁ 0 (by omega)
  obtain ⟨k₂, -, turn₂, -⟩ := @writeTurn_returns Mkfs.sb k₁ a₁ 0 1 Mkfs.layout rep₁ usable₁ free₁ (by rwa [type₁])
    idle₁ (fun j => [3].getD (0 + j) 0) 1 (by decide) (by rw [two, length₁]) (by rw [two]; decide)
    (by
      have none := missing_empty k₁.fs.disk (k₁.fs.icache 1).toDinode 2 1 fun k low high => by
        rwa [show k / BSIZE = 0 / BSIZE by simp only [BSIZE]; omega]
      rw [two, none]
      exact Nat.zero_le _)
    (by rw [two]; decide) (by rw [two, size₁]; exact (show (Split.chunks BSIZE 2 1).length + _ + 3 < 30 from by decide))
  obtain ⟨-, -, -, -, -, -, -, -, -, files₂⟩ := writeTurn_ok turn₂
  rw [if_pos (by decide)] at files₂
  have open₁ : (k₁.file 0).type = .inode 1 ∧ (k₁.file 0).writable = true := by
    rw [files₁, Function.update_self]
    exact ⟨rfl, rfl⟩
  have open₂ : (k₂.file 0).type = .inode 1 ∧ (k₂.file 0).writable = true := by
    rw [files₂, Function.update_self]
    exact open₁
  let w₁ := Function.update (start k pair).writer true ⟨[[1, 2]], 2, []⟩
  let w₂ := Function.update w₁ false ⟨[[3]], 1, []⟩
  let w₃ := Function.update w₂ true ⟨[], 0, [2]⟩
  have step₁ : step 0 (start k pair) true = some ⟨k₁, w₁⟩ := step_writes true _ rfl rfl rfl two_pos turn₁
  have step₂ : step 0 ⟨k₁, w₁⟩ false = some ⟨k₂, w₂⟩ := step_writes false w₁ rfl open₁.1 open₁.2 one_pos turn₂
  have step₃ : step 0 ⟨k₂, w₂⟩ true = some ⟨k₂, w₃⟩ := step_returns true w₂ rfl open₂.1 open₂.2
  have step₄ : step 0 ⟨k₂, w₃⟩ false = some ⟨k₂, Function.update w₃ false ⟨[], 0, [1]⟩⟩ :=
    step_returns false w₃ rfl open₂.1 open₂.2
  refine ⟨k, a, ⟨k₂, Function.update w₃ false ⟨[], 0, [1]⟩⟩, rep, rfl, one_pos, congrArg Node.type empty, end_, ?_,
    fun p => ?_⟩
  · simp only [Run.exec_cons, Run.exec_nil, step₁, step₂, step₃, step₄, Option.bind_some]
  · cases p with
    | false => rfl
    | true => rfl

/-- When all calls have returned what they were asked to write, the file is what it was followed by the pieces of
the calls, those of each process in their order, and the offset is at its end. -/
theorem shared_writers_lose_nothing (layout : Layout sb) (k : Kernel Fs.State) (rep : Rep sb k.fs a)
    (type : (k.file f).type = .inode ip) (live : 0 < (a.cache ip).ref)
    (file : (a.node (a.cache ip).inum).type = tFile)
    (end_ : (k.file f).off.toNat = (a.node (a.cache ip).inum).data.length) (calls : P → List (List UInt8)) (run : List P)
    (ran : Run.exec (step f) (start k calls) run = some s)
    (succeed : ∀ p, (s.writer p).returned = (calls p).map fun data => (data.length : Int)) :
    ∃ a' h, Rep sb s.kernel.fs a' ∧
      (a'.node (a.cache ip).inum).data = (a.node (a.cache ip).inum).data ++ (h.map Prod.snd).flatten ∧
      (∀ p, own h p = (calls p).flatMap pieces) ∧
      (s.kernel.file f).off.toNat = (a'.node (a.cache ip).inum).data.length := by
  have regular : (a.node (a.cache ip).inum).type ≠ tDev := by
    rw [file]
    decide
  have outcome := Run.exec_invariant (step f)
    (fun s => Failed s ∨ ∃ a' h, Sound sb f ip (a.cache ip).inum (a.node (a.cache ip).inum).data calls s a' h)
    (fun s p t before moved => before.elim (fun failed => .inl (failed.step p moved))
      fun ⟨_, _, sound⟩ => sound.step layout p moved)
    _ s run (.inr ⟨a, [], start_sound rep type live regular end_ calls⟩) ran
  rcases outcome with ⟨p, member⟩ | ⟨a', h, sound⟩
  · rw [succeed p, List.mem_map] at member
    obtain ⟨data, -, negative⟩ := member
    omega
  · refine ⟨a', h, sound.rep, sound.data, fun p => ?_, sound.off⟩
    have count := sound.count p
    rw [succeed p, List.length_map] at count
    have finished : (s.writer p).calls = [] := List.length_eq_zero_iff.mp (by omega)
    have all := sound.left p
    rwa [Writer.left, finished, List.append_nil] at all

theorem shared_writers_lose_nothing_two : ∃ (k : Kernel Fs.State) (s : State Bool) (a' : Nodes)
    (h : List (Bool × List UInt8)), Run.exec (step 0) (start k pair) [true, false, true, false] = some s ∧
    Rep Mkfs.sb s.kernel.fs a' ∧ ∀ p, own h p = (pair p).flatMap pieces := by
  obtain ⟨k, a, s, rep, type, live, file, end_, ran, succeed⟩ := pair_run
  obtain ⟨a', h, rep', -, each, -⟩ := shared_writers_lose_nothing Mkfs.layout k rep type live file end_ pair
    [true, false, true, false] ran succeed
  exact ⟨k, s, a', h, ran, rep', each⟩

end Runs

end Xv6.Fs.Shared
