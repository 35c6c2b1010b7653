import Xv6.Vm.Confine
import Xv6.Vm.Private

set_option autoImplicit false

/-!
# Loading page-aligned segments

Where the segments of a file begin on page boundaries and do not wrap, the pages that `loaduvm` asks for are
below the size reached, so the loop of `exec` ends in one of three ways: with `bad`, with a panic over a page
that `allocuvm` has lost, or with a directory as the numbers say.
-/

namespace Xv6.Vm

open Sys Memory

theorem Plan.Sound.growPage {p q : Plan} (sound : p.Sound) (grown : p.growPage = some q) : q.Sound := by
  rw [Plan.growPage] at grown
  split at grown
  next => cases grown
  next some_ =>
    have solid : ¬ p.hole = true := fun hole => some_ (sound hole).1
    split at grown
    next =>
      cases grown
      exact fun hole => (solid hole).elim
    next first =>
      split at grown
      next =>
        cases grown
        intro _
        refine ⟨rfl, ?_⟩
        simp only [NPTENTRIES] at first ⊢
        omega
      next =>
        cases grown
        exact fun hole => (solid hole).elim

theorem Plan.Sound.grow {count : Nat} {p q : Plan} (sound : p.Sound) (grown : p.grow count = some q) : q.Sound := by
  induction count generalizing p with
  | zero =>
    cases grown
    exact sound
  | succ count ih =>
    rw [Plan.grow] at grown
    cases first : p.growPage with
    | none => simp [first] at grown
    | some next =>
      rw [first, Option.bind_some] at grown
      exact ih (sound.growPage first) grown

theorem Plan.Sound.alloc {p q : Plan} {sz newsz s : Nat} (sound : p.Sound) (grown : p.alloc sz newsz = some (s, q)) :
    q.Sound := by
  rw [Plan.alloc] at grown
  split at grown
  next => cases grown
  next =>
    split at grown
    next =>
      cases grown
      exact sound
    next =>
      obtain ⟨r, grows, same⟩ := Option.map_eq_some_iff.mp grown
      cases same
      exact sound.grow grows

theorem Plan.Sound.mapped_of_table {p : Plan} {v : Nat} (sound : p.Sound) (counted : v < p.pages) (user : v < USERPAGES)
    (there : p.TableThere v) : p.Mapped v := by
  refine ⟨counted, ?_⟩
  rintro ⟨hole, last⟩
  rw [Plan.TableThere, if_pos user] at there
  have first := (sound hole).2
  apply there.2
  simp only [NPTENTRIES] at first ⊢
  exact ⟨hole, by omega⟩

-- The loadable segments begin on page boundaries and do not wrap.
def Executable.PlainFrom (x : Executable) : Nat → UInt32 → Prop
  | 0, _ => True
  | count + 1, off =>
    (∀ ph, x.progHdr off = some ph → ph.type = ELF_PROG_LOAD →
      ph.vaddr.toNat % PGSIZE = 0 ∧ ph.vaddr.toNat + ph.memsz.toNat < 2 ^ 32) ∧
    x.PlainFrom count (off + 32)

def Executable.Plain (x : Executable) : Prop := ∀ elf, x.elfHdr = some elf → x.PlainFrom elf.phnum elf.phoff

-- The pages of such a segment are below the size, so where a table is there they are mapped.
theorem Plan.Sound.load_not_loose {p : Plan} (sound : p.Sound) (x : Executable) {sz addr filesz : Nat} (offset : UInt32)
    (size : p.pages = pagesOf sz) (inside : addr + filesz ≤ sz) (user : sz < KERNBASE) (fuel i : Nat) :
    p.load x addr offset filesz fuel i ≠ .loose := by
  induction fuel generalizing i with
  | zero => simp [Plan.load]
  | succ fuel ih =>
    rw [Plan.load]
    by_cases more : i < filesz
    · have exact_ : (addr + i) % 2 ^ 32 = addr + i := Nat.mod_eq_of_lt (by simp only [KERNBASE] at user; omega)
      have below : (addr + i) / PGSIZE < USERPAGES := by
        simp only [USERPAGES, KERNBASE, PGSIZE] at user ⊢
        omega
      have counted : (addr + i) / PGSIZE < p.pages := by
        rw [size, lt_pagesOf_iff]
        simp only [PGSIZE]
        omega
      rw [if_pos more]
      dsimp only
      rw [exact_]
      by_cases there : p.TableThere ((addr + i) / PGSIZE)
      · rw [if_neg (not_not_intro there), if_pos ⟨below, sound.mapped_of_table counted below there⟩]
        split
        next => exact ih _
        next => simp
      · rw [if_pos there]
        simp
    · rw [if_neg more]
      simp

theorem Plan.Sound.reach_not_loose {p : Plan} (sound : p.Sound) (x : Executable) (count : Nat) (off : UInt32) (sz : Nat)
    (plain : x.PlainFrom count off) (size : p.pages = pagesOf sz) (user : sz < KERNBASE) :
    Plan.reach x count off sz p ≠ .loose := by
  induction count generalizing p off sz with
  | zero => simp [Plan.reach]
  | succ count ih =>
    obtain ⟨plainHere, plainRest⟩ := plain
    rw [Plan.reach]
    cases header : x.progHdr off with
    | none => simp
    | some ph =>
      dsimp only
      by_cases load : ph.type ≠ ELF_PROG_LOAD
      · rw [if_pos load]
        exact ih sound _ sz plainRest size user
      rw [if_neg load]
      obtain ⟨aligned, noWrap⟩ := plainHere ph header (not_not.mp load)
      by_cases bogus : ph.memsz < ph.filesz
      · rw [if_pos bogus]
        simp
      rw [if_neg bogus]
      have enough : ph.filesz.toNat ≤ ph.memsz.toNat := by
        rw [UInt32.lt_iff_toNat_lt] at bogus
        omega
      have end_ : (ph.vaddr + ph.memsz).toNat = ph.vaddr.toNat + ph.memsz.toNat := by
        rw [UInt32.toNat_add]
        exact Nat.mod_eq_of_lt noWrap
      cases outcome : p.alloc sz (ph.vaddr + ph.memsz).toNat with
      | none => simp
      | some result =>
        obtain ⟨s, q⟩ := result
        obtain ⟨below, larger⟩ := Plan.alloc_some outcome
        have size' := Plan.alloc_pages size outcome
        dsimp only
        by_cases empty : s = 0
        · rw [if_pos empty]
          simp
        rw [if_neg empty, if_neg (not_not_intro aligned)]
        have tight := (sound.alloc outcome).load_not_loose x ph.off size'
          (show ph.vaddr.toNat + ph.filesz.toNat ≤ s by omega) (by omega) (ph.filesz.toNat / PGSIZE + 1) 0
        generalize q.load x ph.vaddr.toNat ph.off ph.filesz.toNat (ph.filesz.toNat / PGSIZE + 1) 0 = ending at tight
        cases ending with
        | whole => exact ih (sound.alloc outcome) _ s plainRest size' (by omega)
        | short => simp
        | panics => simp
        | loose => exact (tight rfl).elim

variable {img : Image} {st st₀ : Phys} {g : Nat} {A : Space} {role : Nat → Role} {S : Nat → Prop}

theorem UserPart.private_of {got : List (Nat × Nat)} {plan : Plan} {B : Space} (part : UserPart img st g A role got plan)
    (rep : Rep st.mem g B) (priv : Private S st₀ st g B) : Private S st₀ st g A := by
  refine priv.transfer rep part.inv.rep fun d outside => ?_
  by_contra there
  have table := (part.kernel d (by simp only [NPDENTRIES] at outside; omega)).mp there
  exact absurd table.2.2.2 (by omega)

theorem keeps_private (img : Image) (g : Nat) (S : Nat → Prop) (st₀ : Phys) :
    Keeps img g (fun _ st => ∃ A role, Inv img st g A role ∧ Private S st₀ st g A)
      (fun _ st => ∃ A role, Inv img st g A role ∧ Private S st₀ st g A) where
  stored := by
    rintro n st st' ⟨A, role, inv, priv⟩ stored
    exact ⟨A, role, inv.stored stored, priv.stored inv.rep stored⟩
  grown := by
    rintro sz newsz st r ⟨A, role, inv, priv⟩ - ok -
    exact priv.allocuvm inv _ _ ok
  short := by
    rintro sz newsz st r ⟨A, role, inv, priv⟩ - - ok -
    exact priv.allocuvm inv _ _ ok
  bad := fun _ _ holds => holds

theorem setupkvm_private {g : Nat} {st' : Phys} (sound : st.Sound img) (ok : setupkvm img st = .ok (some g, st')) :
    ∃ A role, 65 ≤ st.freelist.length ∧ UserPart img st' g A role [] ⟨0, st.freelist.length - 65, false⟩ ∧
      Private (· ∈ st.freelist) st st' g A := by
  rcases setupkvm_spec img st sound with ⟨stopped, failed, -⟩ | ⟨d, made, A, role, built, part⟩
  · rw [failed] at ok
    cases ok
  · rw [built] at ok
    cases ok
    obtain ⟨enough, fresh⟩ := freshPart part
    obtain ⟨B, roleB, invB, dir⟩ := setupkvm_fresh sound built
    refine ⟨A, role, enough, fresh, fresh.private_of invB.rep ?_⟩
    exact ⟨dir.left, dir.dir, dir.made, fun v below there => by simp [dir.user v below, present] at there, dir.kept⟩

end Xv6.Vm
