import Xv6.Fs.Dir

set_option autoImplicit false

/-!
# Names

A name counts up to `DIRSIZ` characters and up to a NUL. `strncpy` puts it into an entry, padded with
NULs, and `strncmp` compares two names as if both had been copied so.
-/

namespace Xv6.Fs

theorem strncpy_length (n : Nat) (t : List UInt8) : (strncpy n t).length = n := by
  induction n generalizing t with
  | zero => rfl
  | succ n ih =>
    rw [strncpy]
    split
    next => simp
    next => simp [ih]

theorem strncpy_head (n : Nat) (t : List UInt8) : (strncpy (n + 1) t).headD 0 = t.headD 0 := by
  rw [strncpy]
  split
  next end_ => rw [end_, List.replicate_succ, List.headD_cons]
  next => rfl

theorem strncpy_replicate (n m : Nat) : strncpy n (List.replicate m 0) = List.replicate n 0 := by
  cases n with
  | zero => rfl
  | succ n =>
    rw [strncpy, if_pos]
    cases m <;> simp [List.replicate_succ]

theorem strncpy_idem (n : Nat) (t : List UInt8) : strncpy n (strncpy n t) = strncpy n t := by
  induction n generalizing t with
  | zero => rfl
  | succ n ih =>
    by_cases end_ : t.headD 0 = 0
    · rw [show strncpy (n + 1) t = List.replicate (n + 1) 0 from if_pos end_, strncpy_replicate]
    · rw [show strncpy (n + 1) t = t.headD 0 :: strncpy n t.tail from if_neg end_, strncpy, List.headD_cons,
        if_neg end_, List.tail_cons, ih]

theorem strncpy_take (n m : Nat) (t : List UInt8) (enough : n ≤ m) : strncpy n (t.take m) = strncpy n t := by
  induction n generalizing m t with
  | zero => rfl
  | succ n ih =>
    obtain ⟨m, rfl⟩ : ∃ k, m = k + 1 := ⟨m - 1, by omega⟩
    cases t with
    | nil => rfl
    | cons c t =>
      rw [List.take_succ_cons, strncpy, strncpy, List.headD_cons, List.headD_cons, List.tail_cons, List.tail_cons,
        ih m t (by omega)]

theorem strncpy_inj (n : Nat) (p q : List UInt8) (short : p.length ≤ n) (short' : q.length ≤ n) (string : 0 ∉ p)
    (string' : 0 ∉ q) (same : strncpy n p = strncpy n q) : p = q := by
  induction n generalizing p q with
  | zero => rw [List.length_eq_zero_iff.mp (Nat.le_zero.mp short), List.length_eq_zero_iff.mp (Nat.le_zero.mp short')]
  | succ n ih =>
    have heads : p.headD 0 = q.headD 0 := by rw [← strncpy_head n p, same, strncpy_head]
    match p, q with
    | [], [] => rfl
    | [], d :: q =>
      have zero : 0 = d := heads
      exact absurd (zero ▸ List.mem_cons_self) string'
    | c :: p, [] =>
      have zero : c = 0 := heads
      exact absurd (zero ▸ List.mem_cons_self) string
    | c :: p, d :: q =>
      obtain rfl : c = d := heads
      have more : c ≠ 0 := fun zero => string (zero ▸ List.mem_cons_self)
      simp only [strncpy, List.headD_cons, more, if_false, List.tail_cons, List.cons.injEq, true_and] at same
      rw [ih p q (by simpa using short) (by simpa using short') (fun member => string (List.mem_cons_of_mem _ member))
        (fun member => string' (List.mem_cons_of_mem _ member)) same]

theorem strncmp_eq_zero_iff (n : Nat) (p q : List UInt8) : strncmp n p q = 0 ↔ strncpy n p = strncpy n q := by
  induction n generalizing p q with
  | zero => simp [strncmp, strncpy]
  | succ n ih =>
    rw [strncmp]
    split
    next same =>
      have other : q.headD 0 ≠ 0 := same.2 ▸ same.1
      rw [ih, strncpy, strncpy, if_neg same.1, if_neg other, same.2]
      simp
    next differs =>
      have heads : ((p.headD 0).toNat : Int) - (q.headD 0).toNat = 0 ↔ p.headD 0 = q.headD 0 := by
        rw [← UInt8.toNat_inj]
        omega
      rw [heads]
      constructor
      · intro same
        have end_ : p.headD 0 = 0 := by
          by_contra more
          exact differs ⟨more, same⟩
        rw [strncpy, strncpy, if_pos end_, if_pos (same ▸ end_)]
      · intro same
        have := congrArg (fun l => l.headD 0) same
        simpa only [strncpy_head] using this

theorem namecmp_eq_zero_iff (s t : List UInt8) : namecmp s t = 0 ↔ strncpy DIRSIZ s = strncpy DIRSIZ t :=
  strncmp_eq_zero_iff DIRSIZ s t

theorem skipelem_single (name : List UInt8) (some_ : name ≠ []) (plain : slash ∉ name) :
    skipelem (slash :: name) = some (name.take DIRSIZ, []) := by
  obtain ⟨c, cs, rfl⟩ := List.exists_cons_of_ne_nil some_
  have first : c ≠ slash := fun same => plain (same ▸ List.mem_cons_self)
  have skipped : (slash :: c :: cs).dropWhile (fun x => decide (x = slash)) = c :: cs := by
    rw [List.dropWhile_cons_of_pos (by simp), List.dropWhile_cons_of_neg (by simpa using first)]
  have all : ∀ x ∈ c :: cs, decide (x ≠ slash) = true := by
    intro x member
    exact decide_eq_true fun same => plain (same ▸ member)
  simp only [skipelem, skipped, reduceCtorEq, if_false, List.takeWhile_eq_self_iff.mpr all,
    List.dropWhile_eq_nil_iff.mpr all, List.dropWhile_nil]

end Xv6.Fs
