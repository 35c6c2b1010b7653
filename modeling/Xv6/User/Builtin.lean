import Xv6.Sys.Ids

set_option autoImplicit false

/-!
# The builtin commands of the shell

`_set` and `_get` of `sh.c`, down to the system calls. A string is the list of its characters, with a
NUL behind them, and a pointer into it is the rest of the list.
-/

namespace Xv6.Builtin

open Memory Ptable Sys

def strncmp : List UInt8 → List UInt8 → Nat → Int
  | _, _, 0 => 0
  | p, q, n + 1 =>
    if p.headD 0 ≠ 0 ∧ p.headD 0 = q.headD 0 then strncmp p.tail q.tail n
    else ((p.headD 0).toNat : Int) - (q.headD 0).toNat

abbrev space : UInt8 := 32

-- `while (strncmp(p, " ", 1) == 0) p++;`
def chomp : List UInt8 → List UInt8
  | [] => []
  | c :: p => if strncmp (c :: p) [space] 1 = 0 then chomp p else c :: p

def isDigit (c : UInt8) : Bool := '0'.toUInt8 ≤ c ∧ c ≤ '9'.toUInt8

-- The loop of `makeint`. An `int` is the word that holds it, which wraps.
def makeintFrom : List UInt8 → UInt32 → UInt32
  | [], val => val
  | c :: p, val => if isDigit c then makeintFrom p (10 * val + (c - '0'.toUInt8).toUInt32) else val

def makeint (p : List UInt8) : UInt32 := makeintFrom p 0

/-- The process of the shell, with room on its stack for a call. -/
structure ShellProc where
  proc : Proc
  user : Caller
  room : 8 ≤ user.esp.toNat ∧ user.esp.toNat ≤ user.sz.toNat
  -- The return address of a library call, and the word that a system call finds in an unset variable.
  ret : UInt32
  stale : UInt32

-- A library call pushes its argument and its return address.
def ShellProc.call (s : ShellProc) (arg : UInt32) : Caller :=
  { s.user with
    esp := s.user.esp - 8
    mem := stores s.user.mem [wordStore (s.user.esp - 4).toNat arg, wordStore (s.user.esp - 8).toNat s.ret] }

def setuid (s : ShellProc) (i : UInt32) : Int × ShellProc :=
  let r := sysSetuid (s.call i) s.stale s.proc
  (r.1, { s with proc := r.2 })

def setgid (s : ShellProc) (i : UInt32) : Int × ShellProc :=
  let r := sysSetgid (s.call i) s.stale s.proc
  (r.1, { s with proc := r.2 })

inductive Output where
  -- "%d\n"
  | number (n : UInt32)
  -- "Invalid _set parameter\n"
  | invalidSet
  -- "Invalid _get parameter\n"
  | invalidGet
deriving DecidableEq

def setbuiltin (s : ShellProc) (p : List UInt8) : Int × ShellProc × List Output :=
  let p := chomp (p.drop (ascii "_set").length)
  if strncmp (ascii "uid") p 3 = 0 then
    let r := setuid s (makeint (chomp (p.drop (ascii "uid").length)))
    (r.1, r.2, [])
  else if strncmp (ascii "gid") p 3 = 0 then
    let r := setgid s (makeint (chomp (p.drop (ascii "gid").length)))
    (r.1, r.2, [])
  else (-1, s, [.invalidSet])

def getbuiltin (s : ShellProc) (p : List UInt8) : Int × ShellProc × List Output :=
  let p := chomp (p.drop (ascii "_get").length)
  if strncmp (ascii "uid") p 3 = 0 then (0, s, [.number s.proc.uid])
  else if strncmp (ascii "gid") p 3 = 0 then (0, s, [.number s.proc.gid])
  else (-1, s, [.invalidGet])

def fdt : List (List UInt8 × (ShellProc → List UInt8 → Int × ShellProc × List Output)) :=
  [(ascii "_set", setbuiltin), (ascii "_get", getbuiltin)]

def dobuiltin (s : ShellProc) (cmd : List UInt8) : ShellProc × List Output :=
  fdt.foldl
    (fun (s, out) (name, f) =>
      if strncmp cmd name name.length = 0 then
        let r := f s cmd
        (r.2.1, out ++ r.2.2)
      else (s, out))
    (s, [])

section Calls

theorem argint_call (s : ShellProc) (arg : UInt32) : argint (s.call arg) 0 = some arg := by
  obtain ⟨low, high⟩ := s.room
  have small := s.user.user
  have four : (s.user.esp - 4).toNat = s.user.esp.toNat - 4 := UInt32.toNat_sub_of_le _ _ (by
    rw [UInt32.le_iff_toNat_le]
    simp only [UInt32.reduceToNat]
    omega)
  have eight : (s.user.esp - 8).toNat = s.user.esp.toNat - 8 := UInt32.toNat_sub_of_le _ _ (by
    rw [UInt32.le_iff_toNat_le]
    simp only [UInt32.reduceToNat]
    omega)
  have place : (s.call arg).esp + 4 + 4 * 0 = s.user.esp - 4 := by
    change s.user.esp - 8 + 4 + 4 * 0 = _
    apply UInt32.toNat_inj.mp
    simp only [UInt32.toNat_add, UInt32.toNat_mul, UInt32.reduceToNat, eight, four, KERNBASE] at small ⊢
    omega
  have inside : ¬ (s.user.esp - 4 ≥ s.user.sz ∨ s.user.esp - 4 + 4 > s.user.sz) := by
    simp only [ge_iff_le, gt_iff_lt, UInt32.le_iff_toNat_le, UInt32.lt_iff_toNat_lt, UInt32.toNat_add, four,
      UInt32.reduceToNat, KERNBASE] at small ⊢
    omega
  have away : (wordStore (s.user.esp - 8).toNat s.ret).Away (s.user.esp - 4).toNat 4 := by
    left
    simp only [Store.stop, wordStore_addr, wordStore_bytes, wordBytes_length, four, eight]
    omega
  rw [argint, place, fetchint]
  change (if s.user.esp - 4 ≥ s.user.sz ∨ s.user.esp - 4 + 4 > s.user.sz then none else _) = _
  rw [if_neg inside, Option.some_inj]
  exact (wordAt_store_away _ _ _ away).trans (wordAt_store_same _ _ _)

theorem setuid_proc (s : ShellProc) (i : UInt32) :
    (setuid s i).2.proc = if i ≤ MAXID then Id.uid.set s.proc i else s.proc := by
  change (setid .uid (s.call i) s.stale s.proc).2 = _
  rw [setid_fetched .uid _ _ _ (argint_call s i), apply_ite Prod.snd]

theorem setgid_proc (s : ShellProc) (i : UInt32) :
    (setgid s i).2.proc = if i ≤ MAXID then Id.gid.set s.proc i else s.proc := by
  change (setid .gid (s.call i) s.stale s.proc).2 = _
  rw [setid_fetched .gid _ _ _ (argint_call s i), apply_ite Prod.snd]

end Calls

section Reading

theorem strncmp_same (word p q : List UInt8) (plain : 0 ∉ word) : strncmp (word ++ p) (word ++ q) word.length = 0 := by
  induction word with
  | nil => rfl
  | cons c word ih =>
    rw [List.mem_cons, not_or] at plain
    have go : (c :: (word ++ p)).headD 0 ≠ 0 ∧ (c :: (word ++ p)).headD 0 = (c :: (word ++ q)).headD 0 :=
      ⟨Ne.symm plain.1, rfl⟩
    rw [List.length_cons, List.cons_append, List.cons_append, strncmp, if_pos go]
    exact ih plain.2

theorem strncmp_space (c : UInt8) (p : List UInt8) : strncmp (c :: p) [space] 1 = 0 ↔ c = space := by
  change (if c ≠ 0 ∧ c = space then 0 else (c.toNat : Int) - space.toNat) = 0 ↔ _
  constructor
  · intro zero
    by_cases same : c ≠ 0 ∧ c = space
    · exact same.2
    · rw [if_neg same] at zero
      apply UInt8.toNat_inj.mp
      omega
  · rintro rfl
    rfl

theorem chomp_eq (p : List UInt8) : chomp p = p.dropWhile (· = space) := by
  induction p with
  | nil => rfl
  | cons c p ih =>
    rw [chomp, List.dropWhile_cons, ih]
    simp only [strncmp_space, decide_eq_true_eq]

theorem chomp_spaces (a : Nat) {c : UInt8} (p : List UInt8) (other : c ≠ space) :
    chomp (List.replicate a space ++ c :: p) = c :: p := by
  rw [chomp_eq, List.dropWhile_append_of_pos (by simp), List.dropWhile_cons_of_neg (by simpa using other)]

end Reading

section Numerals

/-- The decimal numeral that the text starts with: none if it is empty. -/
def numeral (text : List UInt8) : List UInt8 := text.takeWhile isDigit

def addDigit (v : Nat) (c : UInt8) : Nat := 10 * v + (c.toNat - 48)

def value (digits : List UInt8) : Nat := digits.foldl addDigit 0

theorem toNat_addDigit (val : UInt32) {c : UInt8} (digit : isDigit c = true) :
    10 * val + (c - '0'.toUInt8).toUInt32 = UInt32.ofNat (addDigit val.toNat c) := by
  have zero : '0'.toUInt8 = 48 := by decide
  have low : (48 : UInt8) ≤ c := by
    simp only [isDigit, zero, decide_eq_true_eq] at digit
    exact digit.1
  have below : 48 ≤ c.toNat := UInt8.le_iff_toNat_le.mp low
  have digits : (c - 48).toNat = c.toNat - 48 := UInt8.toNat_sub_of_le _ _ low
  apply UInt32.toNat_inj.mp
  rw [zero, addDigit, UInt32.toNat_add, UInt32.toNat_mul, UInt8.toNat_toUInt32, digits, UInt32.toNat_ofNat']
  simp only [UInt32.reduceToNat]
  omega

theorem makeintFrom_eq (p : List UInt8) (v : Nat) :
    makeintFrom p (UInt32.ofNat v) = UInt32.ofNat ((numeral p).foldl addDigit v) := by
  induction p generalizing v with
  | nil => rfl
  | cons c p ih =>
    rw [makeintFrom, numeral, List.takeWhile_cons]
    split
    · next digit =>
      have wraps : UInt32.ofNat (addDigit (UInt32.ofNat v).toNat c) = UInt32.ofNat (addDigit v c) := by
        apply UInt32.toNat_inj.mp
        simp only [addDigit, UInt32.toNat_ofNat']
        omega
      rw [toNat_addDigit _ digit, wraps, ih, List.foldl_cons, numeral]
    · rfl

theorem makeint_eq (p : List UInt8) : makeint p = UInt32.ofNat (value (numeral p)) :=
  makeintFrom_eq p 0

end Numerals

section Set

def key : Id → List UInt8
  | .uid => ascii "uid"
  | .gid => ascii "gid"

def setLine (id : Id) (spaces : Nat) (rest : List UInt8) : List UInt8 :=
  ascii "_set" ++ (List.replicate spaces space ++ (key id ++ rest))

theorem dobuiltin_set (s : ShellProc) (p : List UInt8) :
    dobuiltin s (ascii "_set" ++ p) = (setbuiltin s (ascii "_set" ++ p)).2 := by
  have first : strncmp (ascii "_set" ++ p) (ascii "_set") (ascii "_set").length = 0 :=
    strncmp_same (ascii "_set") p [] (by decide)
  have second : strncmp (ascii "_set" ++ p) (ascii "_get") (ascii "_get").length ≠ 0 := by
    change (12 : Int) ≠ 0
    decide
  simp only [dobuiltin, fdt, List.foldl_cons, List.foldl_nil, if_pos first, if_neg second, List.nil_append]

theorem setbuiltin_proc (id : Id) (s : ShellProc) (spaces : Nat) (rest : List UInt8) :
    (setbuiltin s (setLine id spaces rest)).2.1.proc =
      if makeint (chomp rest) ≤ MAXID then id.set s.proc (makeint (chomp rest)) else s.proc := by
  have chomped : chomp ((setLine id spaces rest).drop (ascii "_set").length) = key id ++ rest := by
    rw [setLine, List.drop_left]
    cases id with
    | uid => exact chomp_spaces spaces _ (by decide)
    | gid => exact chomp_spaces spaces _ (by decide)
  cases id with
  | uid =>
    have asked : strncmp (ascii "uid") (key .uid ++ rest) 3 = 0 := strncmp_same (ascii "uid") [] rest (by decide)
    simp only [setbuiltin, chomped, if_pos asked]
    exact setuid_proc s _
  | gid =>
    have other : strncmp (ascii "uid") (key .gid ++ rest) 3 ≠ 0 := by
      change (14 : Int) ≠ 0
      decide
    have asked : strncmp (ascii "gid") (key .gid ++ rest) 3 = 0 := strncmp_same (ascii "gid") [] rest (by decide)
    simp only [setbuiltin, chomped, if_neg other, if_pos asked]
    exact setgid_proc s _

theorem dobuiltin_proc (id : Id) (s : ShellProc) (spaces : Nat) (rest : List UInt8) :
    (dobuiltin s (setLine id spaces rest)).1.proc =
      if makeint (chomp rest) ≤ MAXID then id.set s.proc (makeint (chomp rest)) else s.proc := by
  rw [setLine, dobuiltin_set]
  exact setbuiltin_proc id s spaces rest

/-- What the line asks for: the value of its numeral, where it has one that is in range. -/
def asked (text : List UInt8) : Option UInt32 :=
  if numeral text ≠ [] ∧ value (numeral text) ≤ 32767 then some (UInt32.ofNat (value (numeral text))) else none

def SetsTyped (id : Id) (s : ShellProc) (spaces : Nat) (rest : List UInt8) : Prop :=
  (dobuiltin s (setLine id spaces rest)).1.proc =
    match asked (rest.dropWhile (· = space)) with
    | some v => id.set s.proc v
    | none => s.proc

theorem set_eq_self_iff (id : Id) (p : Proc) (num : UInt32) : id.set p num = p ↔ id.get p = num := by
  constructor
  · intro same
    rw [← same, Id.get_set]
  · rintro rfl
    exact Id.set_get id p

/-- The builtin does what the line asks for exactly if the line has a numeral in range, or the low 32 bits of
its value are out of range, or the shell has that id already. A line without a numeral has the value 0. -/
theorem set_builtin_typed_iff (id : Id) (s : ShellProc) (spaces : Nat) (rest : List UInt8) :
    SetsTyped id s spaces rest ↔
      (numeral (rest.dropWhile (· = space)) ≠ [] ∧ value (numeral (rest.dropWhile (· = space))) ≤ 32767) ∨
        32767 < value (numeral (rest.dropWhile (· = space))) % 2 ^ 32 ∨
        (id.get s.proc).toNat = value (numeral (rest.dropWhile (· = space))) % 2 ^ 32 := by
  rw [SetsTyped, dobuiltin_proc, chomp_eq, makeint_eq]
  generalize rest.dropWhile (· = space) = text
  have low : UInt32.ofNat (value (numeral text)) ≤ MAXID ↔ value (numeral text) % 2 ^ 32 ≤ 32767 := by
    rw [UInt32.le_iff_toNat_le, UInt32.toNat_ofNat']
    rfl
  by_cases valid : numeral text ≠ [] ∧ value (numeral text) ≤ 32767
  · have small : UInt32.ofNat (value (numeral text)) ≤ MAXID := low.mpr ((Nat.mod_le _ _).trans valid.2)
    refine iff_of_true ?_ (.inl valid)
    rw [asked, if_pos valid, if_pos small]
  · rw [or_iff_right valid, asked, if_neg valid]
    by_cases small : value (numeral text) % 2 ^ 32 ≤ 32767
    · rw [if_pos (low.mpr small), or_iff_right (by omega), set_eq_self_iff, ← UInt32.toNat_inj, UInt32.toNat_ofNat']
    · rw [if_neg (fun fits => small (low.mp fits))]
      exact iff_of_true rfl (.inl (by omega))

def bootShell : ShellProc where
  proc := { zeroProc with uid := DEFAULT_UID, gid := DEFAULT_GID }
  user := { sz := 4096, user := onePage_user, esp := 4096, mem := fun _ => 0 }
  room := by decide
  ret := 0
  stale := 0

-- A word that is no numeral, a sign, and the numeral of 2 ^ 32 all set the id 0.
theorem set_builtin_sets_zero :
    (dobuiltin bootShell (ascii "_set uid abc")).1.proc.uid = 0 ∧ ¬ SetsTyped .uid bootShell 1 (ascii " abc") ∧
      (dobuiltin bootShell (ascii "_set uid -5")).1.proc.uid = 0 ∧ ¬ SetsTyped .uid bootShell 1 (ascii " -5") ∧
      (dobuiltin bootShell (ascii "_set gid 4294967296")).1.proc.gid = 0 ∧
      ¬ SetsTyped .gid bootShell 1 (ascii " 4294967296") := by
  refine ⟨by decide +kernel, ?_, by decide +kernel, ?_, by decide +kernel, ?_⟩
  · exact fun typed => absurd (congrArg Proc.uid typed) (by decide +kernel)
  · exact fun typed => absurd (congrArg Proc.uid typed) (by decide +kernel)
  · exact fun typed => absurd (congrArg Proc.gid typed) (by decide +kernel)

end Set

end Xv6.Builtin
