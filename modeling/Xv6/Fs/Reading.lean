import Xv6.Fs.Names
import Xv6.Fs.RefineData
import Xv6.Sys.Read

set_option autoImplicit false

/-!
# Reading without side effects

`readi` may allocate, because `bmap` does. Where the block map has no hole it only reads: the result
is a range of the contents, and the state stays as it was. A directory is then a list of entries, and
`dirlookup` finds the first one that is in use and has the name.
-/

namespace Xv6.Fs

open Bytes Prog

section Cache

def State.setEntry (s : State) (ip : Slot) (i : Inode) : State := { s with icache := Function.update s.icache ip i }

variable {s : State} {ip : Slot}

theorem get_eq : (get : M State) s = .ok (s, s) := rfl

theorem inodeOf_eq : inodeOf ip s = .ok (s.icache ip, s) := rfl

theorem bread_eq (b : Nat) : bread b s = .ok (s.disk b, s) := rfl

theorem setInode_eq (f : Inode → Inode) : setInode ip f s = .ok ((), s.setEntry ip (f (s.icache ip))) := rfl

theorem ilock_load (live : 0 < (s.icache ip).ref) (free : (s.icache ip).busy = false)
    (unread : (s.icache ip).valid = false) (typed : (dinodeAt s.sb s.disk (s.icache ip).inum).type ≠ 0) :
    ilock ip s = .ok ((), s.setEntry ip { s.icache ip with
      toDinode := dinodeAt s.sb s.disk (s.icache ip).inum, busy := true, valid := true }) := by
  have some_ : ¬ (s.icache ip).ref < 1 := by omega
  rw [ilock, bind_ok get_eq, bind_ok inodeOf_eq, if_neg some_, if_neg (by simp [free]), bind_ok (setInode_eq _),
    if_neg (by simp [unread]), bind_ok (bread_eq _)]
  simp only
  rw [bind_ok (setInode_eq _)]
  refine (congrFun (if_neg typed) _).trans ?_
  simp only [State.setEntry, Function.update_self, Function.update_idem]
  rfl

theorem iunlock_held (live : 0 < (s.icache ip).ref) (held : (s.icache ip).busy = true) :
    iunlock ip s = .ok ((), s.setEntry ip { s.icache ip with busy := false }) := by
  rw [iunlock, bind_ok inodeOf_eq, if_neg (by simp [held]; omega), setInode_eq]

theorem iput_keep (kept : (s.icache ip).ref ≠ 1 ∨ (s.icache ip).nlink ≠ 0) :
    iput ip s = .ok ((), s.setEntry ip { s.icache ip with ref := (s.icache ip).ref - 1 }) := by
  rw [iput, bind_ok inodeOf_eq, if_neg (by tauto), setInode_eq]

end Cache

section Bytes

variable {s : State} {ip : Slot}

theorem readi_filled (off len rest : UInt32) (console : Int) (file : (s.icache ip).type ≠ tDev)
    (start : ¬ off > (s.icache ip).size) (whole : ¬ off + len < off)
    (cut : rest = if off + len > (s.icache ip).size then (s.icache ip).size - off else len)
    (fits : off.toNat + rest.toNat ≤ MAXFILE * BSIZE)
    (filled : ∀ k, off.toNat ≤ k → k < off.toNat + rest.toNat →
      ptr s.disk (s.icache ip).toDinode (dataPos (k / BSIZE)) ≠ 0) :
    readi ip off len console s =
      .ok ((Sys.int rest, (List.range rest.toNat).map fun k => fileByte s.disk (s.icache ip).toDinode (off.toNat + k)),
        s) := by
  have bytes := @readChunks_filled s ip rest.toNat off.toNat 0 rest.toNat (by omega) (by omega)
    (by simpa using filled)
  rw [readi, bind_ok (show inodeOf ip s = .ok (s.icache ip, s) from rfl), if_neg file,
    if_neg (not_or.mpr ⟨start, whole⟩)]
  simp only [← cut]
  rw [Split.chunks, bind_ok bytes, Nat.sub_zero]
  rfl

-- The inode of an entry of the cache, as `sys_read` and `exec` are modelled to read from it.
def readable (s : State) (ip : Slot) (fits : (s.icache ip).size.toNat ≤ MAXFILE * BSIZE) : Sys.Inode where
  type := (s.icache ip).type.toInt
  major := (s.icache ip).major.toInt
  size := (s.icache ip).size
  fits := fits
  block := fun bn => s.disk (ptr s.disk (s.icache ip).toDinode (dataPos bn))

theorem readChunks_stores (fits : (s.icache ip).size.toNat ≤ MAXFILE * BSIZE) (dst : Nat) (cs : List Split.Chunk)
    (filled : ∀ c ∈ cs, c.block < MAXFILE ∧ ptr s.disk (s.icache ip).toDinode (dataPos c.block) ≠ 0) :
    readChunks ip cs s = .ok ((cs.map (Sys.chunkStore (readable s ip fits) dst)).flatMap Memory.Store.bytes, s) := by
  induction cs with
  | nil => rfl
  | cons c cs ih =>
    obtain ⟨small, some_⟩ := filled c List.mem_cons_self
    rw [readChunks, bind_ok (bmap_filled _ small some_), bind_ok (bread_eq _),
      bind_ok (ih fun c later => filled c (List.mem_cons_of_mem _ later))]
    rfl

/-- Where there are no holes the two models of `readi` agree. The value of a device is what its read function returns,
and its bytes do not come from the disk. -/
theorem readi_stores (covered : Covered s.disk (s.icache ip).toDinode) (events : List Sys.ConsoleEvent) (dst : Nat)
    (off n : UInt32) (v : Int) (returns : (Sys.readi (readable s ip covered.fits) events dst off n).1 = .value v) :
    readi ip off n v s = .ok ((v, if (s.icache ip).type = tDev then [] else
      (Sys.readi (readable s ip covered.fits) events dst off n).2.flatMap Memory.Store.bytes), s) := by
  have device : (readable s ip covered.fits).type = T_DEV ↔ (s.icache ip).type = tDev := Int16.toInt_inj (y := tDev)
  rw [readi, bind_ok inodeOf_eq]
  rw [Sys.readi] at returns ⊢
  by_cases dev : (s.icache ip).type = tDev
  · rw [if_pos (device.mpr dev)] at returns
    rw [if_pos dev, if_pos dev]
    by_cases console : (s.icache ip).major.toInt = CONSOLE
    · rw [if_pos console]
      rfl
    · rw [if_neg (show ¬ (readable s ip covered.fits).major = CONSOLE from console)] at returns
      cases returns
      rw [if_neg console]
      rfl
  · rw [if_neg fun same => dev (device.mp same)] at returns ⊢
    rw [if_neg dev, if_neg dev]
    change (if off > (s.icache ip).size ∨ off + n < off then _ else _ : Sys.Ret × List Memory.Store).1 = _ at returns
    change _ = Except.ok ((v, (if off > (s.icache ip).size ∨ off + n < off then _ else _ :
      Sys.Ret × List Memory.Store).2.flatMap _), s)
    by_cases outside : off > (s.icache ip).size ∨ off + n < off
    · rw [if_pos outside] at returns ⊢
      cases returns
      rw [if_pos outside]
      rfl
    · rw [if_neg outside] at returns ⊢
      cases returns
      rw [if_neg outside]
      rw [not_or] at outside
      have bound := clipped off n (s.icache ip).size outside.1 outside.2
      refine bind_ok (readChunks_stores covered.fits dst _ fun c member => ?_)
      obtain ⟨k, -, high, block⟩ := Split.chunks_block BSIZE off.toNat _ (by decide) c member
      have fits := covered.fits
      rw [block]
      exact ⟨block_lt (by omega), covered.filled k (by omega)⟩

theorem readDirent_filled (off : Nat) (why : Panic) (file : (s.icache ip).type ≠ tDev)
    (inside : off + 16 ≤ (s.icache ip).size.toNat) (fits : off + 16 ≤ MAXFILE * BSIZE)
    (filled : ∀ k, off ≤ k → k < off + 16 → ptr s.disk (s.icache ip).toDinode (dataPos (k / BSIZE)) ≠ 0) :
    readDirent inodeOps ip off why s =
      .ok (Dirent.ofBytes ((List.range 16).map fun k => fileByte s.disk (s.icache ip).toDinode (off + k)), s) := by
  have big := (s.icache ip).size.toNat_lt
  have word : (UInt32.ofNat off).toNat = off := by
    rw [UInt32.toNat_ofNat']
    omega
  have sum : (UInt32.ofNat off + 16).toNat = off + 16 := by
    rw [UInt32.toNat_add, word]
    simp only [UInt32.reduceToNat]
    omega
  have read := @readi_filled s ip (UInt32.ofNat off) 16 16 0 file
    (by rw [gt_iff_lt, UInt32.lt_iff_toNat_lt, word]; omega)
    (by rw [UInt32.lt_iff_toNat_lt, word, sum]; omega)
    (by rw [if_neg]; rw [gt_iff_lt, UInt32.lt_iff_toNat_lt, sum]; omega)
    (by rw [word]; exact fits) (by rw [word]; exact filled)
  rw [word] at read
  rw [readDirent, bind_ok (show inodeOps.readi ip (UInt32.ofNat off) 16 0 s = _ from read)]
  rfl

end Bytes

section Entries

theorem Dirent.ofBytes_bytes (e : Dirent) (small : e.inum < 2 ^ 16) (full : e.name.length = DIRSIZ) :
    Dirent.ofBytes e.bytes = e := by
  obtain ⟨inum, name⟩ := e
  simp only [DIRSIZ] at full small
  simp only [Dirent.ofBytes, Dirent.bytes, Dirent.mk.injEq]
  constructor
  · simp
    omega
  · simp [DIRSIZ, ← full]

theorem flatMap_slice (es : List Dirent) (all : ∀ e ∈ es, e.bytes.length = 16) (k : Nat) (e : Dirent)
    (here : es[k]? = some e) : ((es.flatMap Dirent.bytes).drop (16 * k)).take 16 = e.bytes := by
  induction es generalizing k with
  | nil => simp at here
  | cons d es ih =>
    rw [List.forall_mem_cons] at all
    cases k with
    | zero =>
      obtain rfl : d = e := by simpa using here
      rw [Nat.mul_zero, List.drop_zero, List.flatMap_cons, List.take_append_of_le_length (by omega),
        List.take_of_length_le (by omega)]
    | succ k =>
      have later : 16 * (k + 1) = d.bytes.length + 16 * k := by omega
      rw [List.flatMap_cons, later, List.drop_length_add_append]
      exact ih all.2 k (by simpa using here)

variable {σ : Type} (ops : Ops σ) (dp : Slot) (s : σ)

/-- Reading the directory gives these entries. -/
def Lists (es : List Dirent) : Prop :=
  ∀ k e, es[k]? = some e → ∀ why, readDirent ops dp (16 * k) why s = .ok (e, s)

-- An entry that `dirlookup` takes for the name.
abbrev Dirent.Is (e : Dirent) (name : List UInt8) : Prop := e.inum ≠ 0 ∧ namecmp name e.name = 0

variable {ops dp s} {es : List Dirent}

theorem Lists.lookupLoop_hit (lists : Lists ops dp s es) (dev : Nat) (name : List UInt8) (k : Nat) (e : Dirent)
    (here : es[k]? = some e) (found : e.Is name) (first : ∀ j d, j < k → es[j]? = some d → ¬ d.Is name)
    (left j : Nat) (passed : j ≤ k) (ahead : k < j + left) :
    lookupLoop ops dp dev name left (16 * j) s =
      (do let ip ← ops.iget dev e.inum; return some (ip, 16 * k)) s := by
  induction left generalizing j with
  | zero => omega
  | succ left ih =>
    rw [lookupLoop]
    by_cases at_ : j = k
    · subst at_
      rw [bind_ok (lists j e here .dirlinkRead), if_pos found]
    · have less : j < es.length := by
        have := (List.getElem?_eq_some_iff.mp here).1
        omega
      have entry := List.getElem?_eq_getElem less
      rw [bind_ok (lists j _ entry .dirlinkRead), if_neg (first j _ (by omega) entry)]
      exact ih (j + 1) (by omega) (by omega)

end Entries

theorem lists_of_bytes {s : State} {dp : Slot} (es : List Dirent) (file : (s.icache dp).type ≠ tDev)
    (small : ∀ e ∈ es, e.inum < 2 ^ 16) (full : ∀ e ∈ es, e.name.length = DIRSIZ)
    (inside : 16 * es.length ≤ (s.icache dp).size.toNat) (fits : 16 * es.length ≤ MAXFILE * BSIZE)
    (filled : ∀ k, k < 16 * es.length → ptr s.disk (s.icache dp).toDinode (dataPos (k / BSIZE)) ≠ 0)
    (bytes : (List.range (16 * es.length)).map (fileByte s.disk (s.icache dp).toDinode) = es.flatMap Dirent.bytes) :
    Lists inodeOps dp s es := by
  intro k e here why
  have less := (List.getElem?_eq_some_iff.mp here).1
  have member := List.mem_of_getElem? here
  have whole : ∀ e ∈ es, e.bytes.length = 16 := by
    intro e member
    simp [Dirent.bytes, full e member, DIRSIZ]
  rw [readDirent_filled (16 * k) why file (by omega) (by omega) fun k' _ below => filled k' (by omega)]
  rw [← drop_take_map_range (fileByte s.disk (s.icache dp).toDinode) (16 * es.length) (16 * k) 16 (by omega), bytes,
    flatMap_slice es whole k e here, Dirent.ofBytes_bytes e (small e member) (full e member)]

end Xv6.Fs
