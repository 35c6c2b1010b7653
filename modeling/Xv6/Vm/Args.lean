import Xv6.Vm.Exec

set_option autoImplicit false

/-!
# The argument stack

The part of `exec` behind the loop over the program headers: two pages for the stack, the argument strings
and the vector that leads to them, and the way out. `uva2ka` reads a page-table entry without looking
whether `walkpgdir` has found one; such a read ends the run here.
-/

namespace Xv6.Vm

open Sys Memory

abbrev MAXARG : Nat := 32

-- The loop of `fetchstr`, with `left` bytes up to the end of the process.
def strFrom (c : Caller) : Nat → Nat → Option (List UInt8)
  | 0, _ => none
  | left + 1, s => if c.mem s = 0 then some [] else (strFrom c left (s + 1)).map (c.mem s :: ·)

def fetchstr (c : Caller) (addr : UInt32) : Option (List UInt8) :=
  if addr ≥ c.sz then none else strFrom c (c.sz.toNat - addr.toNat) addr.toNat

-- The loop of `sys_exec` from argument `i` on, `left` of the array `argv` being left.
def argsFrom (c : Caller) (uargv : UInt32) : Nat → Nat → Option (List (List UInt8))
  | 0, _ => none
  | left + 1, i =>
    match fetchint c (uargv + 4 * UInt32.ofNat i) with
    | none => none
    | some uarg =>
      if uarg = 0 then some []
      else
        match fetchstr c uarg with
        | none => none
        | some s => (argsFrom c uargv left (i + 1)).map (s :: ·)

def sysExecArgs (c : Caller) (uargv : UInt32) : Option (List (List UInt8)) := argsFrom c uargv MAXARG 0

/-- What `uva2ka` does: it reads an entry that does not exist, returns 0, or returns the address of a page. -/
inductive Ka where
  | nullPte
  | zero
  | page (p : Nat)

def uva2ka (st : Phys) (pgdir uva : Nat) : Ka :=
  match (walkpgdir st pgdir uva false).1 with
  | none => .nullPte
  | some (t, k) =>
    let pte := entry (st.mem t) k
    if present pte = false then .zero
    else if pte / PTE_U % 2 = 0 then .zero
    else .page (pteAddr pte)

inductive CopyEnd where
  | done
  | failed
  | nullPte
deriving DecidableEq

-- Each turn copies a byte at least.
def copyoutLoop (pgdir : Nat) : Nat → Nat → List UInt8 → Phys → CopyEnd × Phys
  | 0, _, _, st => (.done, st)
  | fuel + 1, va, buf, st =>
    if 0 < buf.length then
      let va0 := va / PGSIZE * PGSIZE
      match uva2ka st pgdir va0 with
      | .nullPte => (.nullPte, st)
      | .zero => (.failed, st)
      | .page pa0 =>
        let n := min (PGSIZE - (va - va0)) buf.length
        copyoutLoop pgdir fuel ((va0 + PGSIZE) % 2 ^ 32) (buf.drop n)
          (st.setPage pa0 (Bytes.putBytes (st.mem pa0) (va - va0) n fun k => buf.getD k 0))
    else (.done, st)

def copyout (st : Phys) (pgdir va : Nat) (p : List UInt8) : CopyEnd × Phys := copyoutLoop pgdir p.length va p st

structure Pushed where
  stop : CopyEnd
  sp : Nat
  ustack : List Nat
  st : Phys

-- `sp = (sp - n) & ~3` on words.
def lower (sp n : Nat) : Nat := (sp + 2 ^ 32 - n) % 2 ^ 32 / 4 * 4

-- The loop over the arguments; `ustack` holds the addresses of the strings pushed so far.
def pushArgs (pgdir : Nat) : List (List UInt8) → Nat → List Nat → Phys → Pushed
  | [], sp, ustack, st => ⟨.done, sp, ustack, st⟩
  | s :: rest, sp, ustack, st =>
    if ustack.length ≥ MAXARG then ⟨.failed, sp, ustack, st⟩
    else
      let sp := lower sp (s.length + 1)
      match copyout st pgdir sp (s ++ [0]) with
      | (.done, st) => pushArgs pgdir rest sp (ustack ++ [sp]) st
      | (stop, st) => ⟨stop, sp, ustack, st⟩

-- The bytes of words in memory.
def wordBytes (words : List Nat) : List UInt8 :=
  words.flatMap fun w => (List.range 4).map fun k => UInt8.ofNat (w / 256 ^ k)

-- `ustack` when the strings are pushed: a fake return PC, `argc`, the vector and its end.
def vector (sp : Nat) (ustack : List Nat) : List Nat :=
  [0xffffffff, ustack.length, (sp + 2 ^ 32 - (ustack.length + 1) * 4) % 2 ^ 32] ++ ustack ++ [0]

/-- How `exec` ends: with -1, with 0 and the new directory, size and stack pointer, or not at all. -/
inductive ExecEnd where
  | failed (st : Phys)
  | started (pgdir sz sp : Nat) (st : Phys)
  | panic (p : Panic)
  | nullPte

-- The label `bad`, with a page directory.
def bad (img : Image) (st : Phys) (pgdir : Nat) : ExecEnd :=
  match freevm img st pgdir with
  | .error p => .panic p
  | .ok st => .failed st

-- Behind the last `copyout`: the commit to the new image.
def commit (img : Image) (oldpgdir pgdir sz sp : Nat) : CopyEnd × Phys → ExecEnd
  | (.nullPte, _) => .nullPte
  | (.failed, st) => bad img st pgdir
  | (.done, st) =>
    match freevm img st oldpgdir with
    | .error p => .panic p
    | .ok st => .started pgdir sz sp st

def pushStack (img : Image) (oldpgdir pgdir sz : Nat) (argv : List (List UInt8)) (st : Phys) : ExecEnd :=
  let pushed := pushArgs pgdir argv sz [] st
  match pushed.stop with
  | .nullPte => .nullPte
  | .failed => bad img pushed.st pgdir
  | .done =>
    let sp := (pushed.sp + 2 ^ 32 - (3 + pushed.ustack.length + 1) * 4) % 2 ^ 32
    commit img oldpgdir pgdir sz sp (copyout pushed.st pgdir sp (wordBytes (vector pushed.sp pushed.ustack)))

-- Behind `allocuvm` for the two stack pages.
def guardStack (img : Image) (oldpgdir pgdir : Nat) (argv : List (List UInt8)) (grown : Grown) : ExecEnd :=
  if grown.sz = 0 then bad img grown.st pgdir
  else
    match clearpteu grown.st pgdir (grown.sz - 2 * PGSIZE) with
    | .error p => .panic p
    | .ok st => pushStack img oldpgdir pgdir grown.sz argv st

def buildStack (img : Image) (oldpgdir pgdir size : Nat) (argv : List (List UInt8)) (st : Phys) : ExecEnd :=
  match allocuvm img st pgdir (pgRoundUp size) (pgRoundUp size + 2 * PGSIZE) with
  | .error p => .panic p
  | .ok grown => guardStack img oldpgdir pgdir argv grown

/-- `exec` on the file that the path leads to, in the address space `oldpgdir`. -/
def execFile (img : Image) (st : Phys) (oldpgdir : Nat) (x : Executable) (argv : List (List UInt8)) : ExecEnd :=
  match x.elfHdr with
  | none => .failed st
  | some elf =>
    if elf.magic ≠ ELF_MAGIC then .failed st
    else
      match setupkvm img st with
      | .error p => .panic p
      | .ok (none, st) => .failed st
      | .ok (some pgdir, st) =>
        let loop := loadSegments img x pgdir elf.phnum elf.phoff 0 [] st
        match loop.stop with
        | some (.panic p) => .panic p
        | some .bad => bad img loop.st pgdir
        | none => buildStack img oldpgdir pgdir loop.sz argv loop.st

section Accepted

variable {c : Caller}

theorem strFrom_spec {left s : Nat} {str : List UInt8} (found : strFrom c left s = some str) :
    str.length < left ∧ 0 ∉ str := by
  induction left generalizing s str with
  | zero => cases found
  | succ left ih =>
    rw [strFrom] at found
    split at found
    next =>
      cases found
      simp
    next nonzero =>
      obtain ⟨rest, later, rfl⟩ := Option.map_eq_some_iff.mp found
      obtain ⟨short, clean⟩ := ih later
      refine ⟨by simpa using short, ?_⟩
      rw [List.mem_cons, not_or]
      exact ⟨fun zero => nonzero zero.symm, clean⟩

theorem fetchstr_spec {addr : UInt32} {str : List UInt8} (found : fetchstr c addr = some str) :
    str.length < c.sz.toNat ∧ 0 ∉ str := by
  rw [fetchstr] at found
  split at found
  next => cases found
  next =>
    obtain ⟨short, clean⟩ := strFrom_spec found
    exact ⟨by omega, clean⟩

theorem argsFrom_spec {uargv : UInt32} {left i : Nat} {argv : List (List UInt8)}
    (found : argsFrom c uargv left i = some argv) :
    argv.length < left ∧ ∀ s ∈ argv, s.length < c.sz.toNat ∧ 0 ∉ s := by
  induction left generalizing i argv with
  | zero => cases found
  | succ left ih =>
    rw [argsFrom] at found
    cases fetched : fetchint c (uargv + 4 * UInt32.ofNat i) with
    | none =>
      rw [fetched] at found
      cases found
    | some uarg =>
      rw [fetched] at found
      dsimp only at found
      split at found
      next =>
        cases found
        simp
      next =>
        cases string : fetchstr c uarg with
        | none =>
          rw [string] at found
          cases found
        | some s =>
          rw [string] at found
          obtain ⟨rest, later, rfl⟩ := Option.map_eq_some_iff.mp found
          obtain ⟨few, short⟩ := ih later
          refine ⟨by simpa using few, fun t member => ?_⟩
          rcases List.mem_cons.mp member with rfl | old
          · exact fetchstr_spec string
          · exact short t old

theorem sysExecArgs_spec {uargv : UInt32} {argv : List (List UInt8)} (accepted : sysExecArgs c uargv = some argv) :
    argv.length < MAXARG ∧ ∀ s ∈ argv, s.length < KERNBASE ∧ 0 ∉ s := by
  obtain ⟨few, strings⟩ := argsFrom_spec accepted
  have user := c.user
  exact ⟨few, fun s member => ⟨by have := (strings s member).1; omega, (strings s member).2⟩⟩

end Accepted

end Xv6.Vm
