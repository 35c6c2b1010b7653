import Xv6.Vm.Grow

set_option autoImplicit false

/-!
# Who owns a page

All the page directories at once. Every page has one use: it is free, a directory, the table of one
index of one directory, the user page of one entry of one directory, in the kernel's hands, lost, or
not a page of the allocator. A page is lost when nothing refers to it any more and nobody freed it.
-/

namespace Xv6.Vm

inductive Use where
  | free
  | dir (g : Nat)
  | table (g d : Nat)
  | user (g v : Nat)
  | kernel
  | lost
  | fixed
deriving DecidableEq

/-- The page belongs to the address space of directory `g`. -/
def Use.Of (g : Nat) : Use → Prop
  | .dir h => h = g
  | .table h _ => h = g
  | .user h _ => h = g
  | _ => False

instance (g : Nat) (u : Use) : Decidable (u.Of g) := by
  cases u <;> unfold Use.Of <;> infer_instance

/-- A page of the allocator that no list and no page table refers to. -/
def Use.Held (u : Use) : Prop := u = .kernel ∨ u = .lost

theorem Use.Of.counted {g : Nat} {u : Use} (mine : u.Of g) : ¬ u.Held ∧ u ≠ .fixed := by
  cases u <;> simp_all [Use.Of, Use.Held]

/-- The free list and the page directories refer to page `p` in this way. -/
def Refers (freelist : List Nat) (space : Nat → Option Space) (p : Nat) : Use → Prop
  | .free => p ∈ freelist
  | .dir g => p = g ∧ space g ≠ none
  | .table g d => ∃ A, space g = some A ∧ A.table d = some p
  | .user g v => ∃ A, space g = some A ∧ v < USERPAGES ∧ present (A.entry v) = true ∧ pteAddr (A.entry v) = p
  | _ => False

structure Owns (img : Image) (st : Phys) (space : Nat → Option Space) (use : Nat → Use) : Prop where
  refers : ∀ p u, Refers st.freelist space p u → use p = u
  referred : ∀ p, ¬ (use p).Held → use p ≠ .fixed → Refers st.freelist space p (use p)
  nodup : st.freelist.Nodup
  allocatable : ∀ p, use p ≠ .fixed → img.Allocatable p
  rep : ∀ g A, space g = some A → Rep st.mem g A
  inDir : ∀ g A d t, space g = some A → A.table d = some t → d < NPDENTRIES

namespace Owns

variable {img : Image} {st : Phys} {space : Nat → Option Space} {use : Nat → Use} {g p : Nat} {A : Space}

theorem use_free (owns : Owns img st space use) (free : p ∈ st.freelist) : use p = .free :=
  owns.refers p .free free

theorem use_dir (owns : Owns img st space use) (live : space g = some A) : use g = .dir g :=
  owns.refers g (.dir g) ⟨rfl, by simp [live]⟩

theorem use_table (owns : Owns img st space use) (live : space g = some A) {d t : Nat} (at_ : A.table d = some t) :
    use t = .table g d :=
  owns.refers t (.table g d) ⟨A, live, at_⟩

theorem use_user (owns : Owns img st space use) (live : space g = some A) {v : Nat} (below : v < USERPAGES)
    (there : present (A.entry v) = true) : use (pteAddr (A.entry v)) = .user g v :=
  owns.refers _ (.user g v) ⟨A, live, below, there, rfl⟩

theorem sound (owns : Owns img st space use) : st.Sound img :=
  ⟨owns.nodup, fun p member => owns.allocatable p (by simp [owns.use_free member])⟩

theorem cases_of (owns : Owns img st space use) (live : space g = some A) (mine : (use p).Of g) :
    p = g ∨ (∃ d, A.table d = some p) ∨
      ∃ v < USERPAGES, present (A.entry v) = true ∧ pteAddr (A.entry v) = p := by
  have here := owns.referred p mine.counted.1 mine.counted.2
  cases shape : use p with
  | dir h =>
    rw [shape] at mine here
    exact Or.inl (here.1.trans mine)
  | table h d =>
    rw [shape] at mine here
    obtain ⟨B, liveB, at_⟩ := here
    rw [show h = g from mine, live, Option.some.injEq] at liveB
    exact Or.inr (Or.inl ⟨d, liveB ▸ at_⟩)
  | user h v =>
    rw [shape] at mine here
    obtain ⟨B, liveB, user, there, page⟩ := here
    rw [show h = g from mine, live, Option.some.injEq] at liveB
    exact Or.inr (Or.inr ⟨v, user, liveB ▸ there, liveB ▸ page⟩)
  | _ => simp [shape, Use.Of] at mine

theorem not_refers (owns : Owns img st space use) (held : (use p).Held) (u : Use) :
    ¬ Refers st.freelist space p u := by
  intro here
  have same := owns.refers p u here
  rcases held with held | held <;> rw [← same, held] at here <;> exact here

theorem held_allocatable (owns : Owns img st space use) (held : (use p).Held) : img.Allocatable p :=
  owns.allocatable p (by rcases held with held | held <;> simp [held])

/-- Only the references to page `p` change, from the old use of it to a new one. -/
theorem change (owns : Owns img st space use) {st' : Phys} {space' : Nat → Option Space} (p : Nat) (u : Use)
    (page : img.Allocatable p) (gone : ∀ w, Refers st'.freelist space' p w → w = u)
    (new : ¬ u.Held → u ≠ .fixed → Refers st'.freelist space' p u)
    (others : ∀ q, q ≠ p → ∀ w, Refers st'.freelist space' q w ↔ Refers st.freelist space q w)
    (nodup : st'.freelist.Nodup) (rep : ∀ g A, space' g = some A → Rep st'.mem g A)
    (inDir : ∀ g A d t, space' g = some A → A.table d = some t → d < NPDENTRIES) :
    Owns img st' space' (Function.update use p u) where
  refers := by
    intro q w here
    by_cases same : q = p
    · rw [same] at here
      rw [same, Function.update_self, gone w here]
    · rw [Function.update_of_ne same]
      exact owns.refers q w ((others q same w).mp here)
  referred := by
    intro q
    by_cases same : q = p
    · rw [same, Function.update_self]
      exact new
    · rw [Function.update_of_ne same]
      exact fun notHeld known => (others q same _).mpr (owns.referred q notHeld known)
  nodup := nodup
  allocatable := by
    intro q
    by_cases same : q = p
    · exact fun _ => same ▸ page
    · rw [Function.update_of_ne same]
      exact owns.allocatable q
  rep := rep
  inDir := inDir

theorem rep_frame (owns : Owns img st space use) (p : Nat) (page : Page) (notDir : ∀ g, use p ≠ .dir g)
    (notTable : ∀ g d, use p ≠ .table g d) (live : space g = some A) :
    Rep (Function.update st.mem p page) g A := by
  apply (owns.rep g A live).frame
  · rintro rfl
    exact notDir p (owns.use_dir live)
  · intro d at_
    exact notTable g d (owns.use_table live at_)

theorem setPage (owns : Owns img st space use) (p : Nat) (page : Page) (notDir : ∀ g, use p ≠ .dir g)
    (notTable : ∀ g d, use p ≠ .table g d) : Owns img (st.setPage p page) space use :=
  { owns with rep := fun _ _ live => owns.rep_frame p page notDir notTable live }

theorem setHeldPage (owns : Owns img st space use) (held : (use p).Held) (page : Page) :
    Owns img (st.setPage p page) space use := by
  rcases held with held | held <;> exact owns.setPage p page (by simp [held]) (by simp [held])

theorem relabel (owns : Owns img st space use) (held : (use p).Held) (u : Use) (held' : u.Held) :
    Owns img st space (Function.update use p u) := by
  apply owns.change p u (owns.held_allocatable held)
  · intro w here
    exact (owns.not_refers held w here).elim
  · exact fun notHeld => (notHeld held').elim
  · exact fun _ _ _ => Iff.rfl
  · exact owns.nodup
  · exact owns.rep
  · exact owns.inDir

theorem take (owns : Owns img st space use) (rest : List Nat) (first : st.freelist = p :: rest) (u : Use)
    (held : u.Held) : Owns img { st with freelist := rest } space (Function.update use p u) := by
  have wasFree : use p = .free := owns.use_free (first ▸ List.mem_cons_self)
  have nodup := owns.nodup
  rw [first] at nodup
  obtain ⟨fresh, restNodup⟩ := List.nodup_cons.mp nodup
  -- References other than the free list's are those there were, and the page had no other.
  have same : ∀ q w, w ≠ .free → (Refers rest space q w ↔ Refers st.freelist space q w) := by
    intro q w other
    cases w <;> first | exact absurd rfl other | exact Iff.rfl
  apply owns.change p u (owns.allocatable p (by simp [wasFree]))
  · intro w here
    by_cases free : w = .free
    · rw [free] at here
      exact (fresh here).elim
    · have was := owns.refers p w ((same p w free).mp here)
      rw [wasFree] at was
      exact absurd was.symm free
  · exact fun notHeld => (notHeld held).elim
  · intro q other w
    by_cases free : w = .free
    · simp [free, Refers, first, other]
    · exact same q w free
  · exact restNodup
  · exact owns.rep
  · exact owns.inDir

theorem give (owns : Owns img st space use) (held : (use p).Held) :
    Owns img { st with freelist := p :: st.freelist } space (Function.update use p .free) := by
  have same : ∀ q w, w ≠ .free → (Refers (p :: st.freelist) space q w ↔ Refers st.freelist space q w) := by
    intro q w other
    cases w <;> first | exact absurd rfl other | exact Iff.rfl
  apply owns.change p .free (owns.held_allocatable held)
  · intro w here
    by_contra other
    exact owns.not_refers held w ((same p w other).mp here)
  · exact fun _ _ => List.mem_cons_self
  · intro q other w
    by_cases free : w = .free
    · simp [free, Refers, other]
    · exact same q w free
  · exact List.nodup_cons.mpr ⟨owns.not_refers held .free, owns.nodup⟩
  · exact owns.rep
  · exact owns.inDir

theorem kfree_ok (owns : Owns img st space use) (held : (use p).Held) :
    ∃ st', kfree img st p = .ok st' ∧ st'.freelist = p :: st.freelist ∧
      (∀ q, q ≠ p → st'.mem q = st.mem q) ∧ Owns img st' space (Function.update use p .free) := by
  refine ⟨{ st.setPage p (fun _ => 1) with freelist := p :: st.freelist }, ?_, rfl, ?_, ?_⟩
  · rw [kfree, if_pos (owns.held_allocatable held)]
  · intro q other
    simp [Phys.setPage, other]
  · exact (owns.setHeldPage held (fun _ => 1)).give held

theorem makeDir (owns : Owns img st space use) (held : (use g).Held) (empty : st.mem g = fun _ => 0) :
    Owns img st (Function.update space g (some ⟨fun _ => none, fun _ => 0⟩)) (Function.update use g (.dir g)) := by
  have unused : space g = none := by
    by_contra live
    exact owns.not_refers held (.dir g) ⟨rfl, live⟩
  have same : ∀ q w, w ≠ .dir g → (Refers st.freelist (Function.update space g (some ⟨fun _ => none, fun _ => 0⟩)) q w ↔
      Refers st.freelist space q w) := by
    intro q w other
    cases w with
    | dir h =>
      have apart : h ≠ g := fun clash => other (clash ▸ rfl)
      simp [Refers, apart]
    | table h d => by_cases clash : h = g <;> simp [Refers, clash, unused]
    | user h v => by_cases clash : h = g <;> simp [Refers, clash, unused, present]
    | _ => exact Iff.rfl
  apply owns.change g (.dir g) (owns.held_allocatable held)
  · intro w here
    by_contra other
    exact owns.not_refers held w ((same g w other).mp here)
  · exact fun _ _ => ⟨rfl, by simp⟩
  · intro q other w
    by_cases new : w = .dir g
    · simp [new, Refers, other]
    · exact same q w new
  · exact owns.nodup
  · intro h B live
    by_cases clash : h = g
    · rw [clash, Function.update_self, Option.some.injEq] at live
      rw [clash, ← live]
      refine ⟨fun d _ => ?_, fun v t at_ => ?_, fun v _ => rfl⟩
      · simp [tableAt, empty, entry_zero, absent_zero]
      · cases at_
    · rw [Function.update_of_ne clash] at live
      exact owns.rep h B live
  · intro h B d t live at_
    by_cases clash : h = g
    · rw [clash, Function.update_self, Option.some.injEq] at live
      rw [← live] at at_
      cases at_
    · rw [Function.update_of_ne clash] at live
      exact owns.inDir h B d t live at_

theorem rep_dir (owns : Owns img st space use) (live : space g = some A) (page : Page) {h : Nat} {B : Space}
    (live' : space h = some B) (other : h ≠ g) : Rep (Function.update st.mem g page) h B := by
  apply (owns.rep h B live').frame g _ (Ne.symm other)
  intro c at_
  have asTable := owns.use_table live' at_
  simp [owns.use_dir live] at asTable

theorem makeTable (owns : Owns img st space use) (live : space g = some A) (d t : Nat) (inside : d < NPDENTRIES)
    (missing : A.table d = none) (held : (use t).Held) (empty : st.mem t = fun _ => 0) :
    Owns img (st.setEntry g d (tableEntry t))
      (Function.update space g (some { A with table := Function.update A.table d (some t) }))
      (Function.update use t (.table g d)) := by
  have asDir := owns.use_dir live
  have notDir : t ≠ g := by
    rintro rfl
    exact owns.not_refers held (.dir t) ⟨rfl, by simp [live]⟩
  have dirOnly : ∀ d, A.table d ≠ some g := by
    intro c at_
    have asTable := owns.use_table live at_
    simp [asDir] at asTable
  have same : ∀ q w, w ≠ .table g d → (Refers st.freelist
      (Function.update space g (some { A with table := Function.update A.table d (some t) })) q w ↔
      Refers st.freelist space q w) := by
    intro q w other
    cases w with
    | dir h => by_cases clash : h = g <;> simp [Refers, clash, live]
    | table h c =>
      by_cases clash : h = g
      · have apart : c ≠ d := fun equal => other (by rw [clash, equal])
        simp [Refers, clash, live, apart]
      · simp [Refers, clash]
    | user h v => by_cases clash : h = g <;> simp [Refers, clash, live]
    | _ => exact Iff.rfl
  apply owns.change t (.table g d) (owns.held_allocatable held)
  · intro w here
    by_contra other
    exact owns.not_refers held w ((same t w other).mp here)
  · exact fun _ _ => ⟨_, Function.update_self _ _ _, Function.update_self _ _ _⟩
  · intro q other w
    by_cases new : w = .table g d
    · simp [new, Refers, Ne.symm other, live, missing]
    · exact same q w new
  · exact owns.nodup
  · intro h B live'
    by_cases clash : h = g
    · rw [clash, Function.update_self, Option.some.injEq] at live'
      rw [clash, ← live']
      exact (owns.rep g A live).makeTable d t inside (owns.held_allocatable held).lt.2 missing empty notDir dirOnly
    · rw [Function.update_of_ne clash] at live'
      exact owns.rep_dir live _ live' clash
  · intro h B c u live' at_
    by_cases clash : h = g
    · rw [clash, Function.update_self, Option.some.injEq] at live'
      by_cases equal : c = d
      · exact equal ▸ inside
      · rw [← live'] at at_
        simp only [Function.update_of_ne equal] at at_
        exact owns.inDir g A c u live at_
    · rw [Function.update_of_ne clash] at live'
      exact owns.inDir h B c u live' at_

theorem refers_setEntry (freelist : List Nat) (live : space g = some A) (v e q : Nat) (w : Use)
    (other : v < USERPAGES → w ≠ .user g v) :
    Refers freelist (Function.update space g (some { A with entry := Function.update A.entry v e })) q w ↔
      Refers freelist space q w := by
  cases w with
  | dir h => by_cases clash : h = g <;> simp [Refers, clash, live]
  | table h c => by_cases clash : h = g <;> simp [Refers, clash, live]
  | user h c =>
    by_cases clash : h = g
    · by_cases equal : c = v
      · have kernel : ¬ v < USERPAGES := fun user => other user (by rw [clash, equal])
        simp [Refers, clash, equal, kernel]
      · simp [Refers, clash, live, equal]
    · simp [Refers, clash]
  | _ => exact Iff.rfl

theorem rep_setEntry (owns : Owns img st space use) (live : space g = some A) (v t e : Nat)
    (at_ : A.table (v / NPTENTRIES) = some t) (word : e < 2 ^ 32) (h : Nat) (B : Space)
    (live' : Function.update space g (some { A with entry := Function.update A.entry v e }) h = some B) :
    Rep (st.setEntry t (v % NPTENTRIES) e).mem h B := by
  have asTable := owns.use_table live at_
  by_cases clash : h = g
  · rw [clash, Function.update_self, Option.some.injEq] at live'
    rw [clash, ← live']
    apply (owns.rep g A live).setEntry v t e at_ word
    · rintro rfl
      simp [owns.use_dir live] at asTable
    · intro d there
      have again := owns.use_table live there
      simp [asTable] at again
      exact again.symm
  · rw [Function.update_of_ne clash] at live'
    apply (owns.rep h B live').frame
    · rintro rfl
      simp [owns.use_dir live'] at asTable
    · intro d there
      have again := owns.use_table live' there
      simp [asTable, Ne.symm clash] at again

theorem inDir_setEntry (owns : Owns img st space use) (live : space g = some A) (v e h : Nat) (B : Space) (d t : Nat)
    (live' : Function.update space g (some { A with entry := Function.update A.entry v e }) h = some B)
    (at_ : B.table d = some t) : d < NPDENTRIES := by
  by_cases clash : h = g
  · rw [clash, Function.update_self, Option.some.injEq] at live'
    rw [← live'] at at_
    exact owns.inDir g A d t live at_
  · rw [Function.update_of_ne clash] at live'
    exact owns.inDir h B d t live' at_

-- An entry of the kernel part, or an entry that keeps its page and its presence.
theorem setEntry (owns : Owns img st space use) (live : space g = some A) (v t e : Nat)
    (at_ : A.table (v / NPTENTRIES) = some t) (word : e < 2 ^ 32)
    (kept : v < USERPAGES → present e = present (A.entry v) ∧ pteAddr e = pteAddr (A.entry v)) :
    Owns img (st.setEntry t (v % NPTENTRIES) e)
      (Function.update space g (some { A with entry := Function.update A.entry v e })) use := by
  have same : ∀ q w, Refers st.freelist
      (Function.update space g (some { A with entry := Function.update A.entry v e })) q w ↔
      Refers st.freelist space q w := by
    intro q w
    by_cases mine : v < USERPAGES ∧ w = .user g v
    · obtain ⟨user, equal⟩ := mine
      simp [equal, Refers, live, user, kept user]
    · exact refers_setEntry st.freelist live v e q w fun user equal => mine ⟨user, equal⟩
  exact {
    refers := fun q w here => owns.refers q w ((same q w).mp here)
    referred := fun q notHeld known => (same q _).mpr (owns.referred q notHeld known)
    nodup := owns.nodup
    allocatable := owns.allocatable
    rep := owns.rep_setEntry live v t e at_ word
    inDir := owns.inDir_setEntry live v e }

theorem mapUser (owns : Owns img st space use) (live : space g = some A) (v t e : Nat)
    (at_ : A.table (v / NPTENTRIES) = some t) (word : e < 2 ^ 32) (user : v < USERPAGES)
    (fresh : present (A.entry v) = false) (there : present e = true) (held : (use (pteAddr e)).Held) :
    Owns img (st.setEntry t (v % NPTENTRIES) e)
      (Function.update space g (some { A with entry := Function.update A.entry v e }))
      (Function.update use (pteAddr e) (.user g v)) := by
  apply owns.change (pteAddr e) (.user g v) (owns.held_allocatable held)
  · intro w here
    by_contra other
    exact owns.not_refers held w ((refers_setEntry _ live v e _ w fun _ => other).mp here)
  · exact fun _ _ => ⟨_, Function.update_self _ _ _, user, by simpa using there, by simp⟩
  · intro q other w
    by_cases mine : w = .user g v
    · simp [mine, Refers, live, fresh, Ne.symm other]
    · exact refers_setEntry st.freelist live v e q w fun _ => mine
  · exact owns.nodup
  · exact owns.rep_setEntry live v t e at_ word
  · exact owns.inDir_setEntry live v e

-- Clearing the entry of a user page leaves the page in the kernel's hands.
theorem unmapUser (owns : Owns img st space use) (live : space g = some A) (v t : Nat)
    (at_ : A.table (v / NPTENTRIES) = some t) (user : v < USERPAGES) (there : present (A.entry v) = true) :
    Owns img (st.setEntry t (v % NPTENTRIES) 0)
      (Function.update space g (some { A with entry := Function.update A.entry v 0 }))
      (Function.update use (pteAddr (A.entry v)) .kernel) := by
  have mine := owns.use_user live user there
  have absent : present 0 = false := rfl
  apply owns.change (pteAddr (A.entry v)) .kernel (owns.allocatable _ (by simp [mine]))
  · intro w here
    by_cases equal : w = .user g v
    · simp [equal, Refers, absent] at here
    · have was := owns.refers _ w ((refers_setEntry _ live v 0 _ w fun _ => equal).mp here)
      rw [mine] at was
      exact absurd was.symm equal
  · exact fun notHeld => (notHeld (Or.inl rfl)).elim
  · intro q other w
    by_cases equal : w = .user g v
    · simp [equal, Refers, live, absent, Ne.symm other]
    · exact refers_setEntry st.freelist live v 0 q w fun _ => equal
  · exact owns.nodup
  · exact owns.rep_setEntry live v t 0 at_ (by decide)
  · exact owns.inDir_setEntry live v 0

end Owns

/-- The use of a page when the directory `g` is forgotten. -/
def Use.drop (g : Nat) : Use → Use
  | .dir h => if h = g then .kernel else .dir h
  | .table h d => if h = g then .kernel else .table h d
  | .user h v => if h = g then .kernel else .user h v
  | u => u

theorem Use.drop_of {g : Nat} {u : Use} (mine : u.Of g) : u.drop g = .kernel := by
  cases u <;> simp_all [Use.Of, Use.drop]

theorem Use.drop_not_of {g : Nat} {u : Use} (other : ¬ u.Of g) : u.drop g = u := by
  cases u <;> simp_all [Use.Of, Use.drop]

theorem Owns.drop {img : Image} {st : Phys} {space : Nat → Option Space} {use : Nat → Use}
    (owns : Owns img st space use) (g : Nat) :
    Owns img st (Function.update space g none) fun p => (use p).drop g := by
  have same : ∀ q w, Refers st.freelist (Function.update space g none) q w ↔
      Refers st.freelist space q w ∧ ¬ w.Of g := by
    intro q w
    cases w with
    | dir h => by_cases clash : h = g <;> simp [Refers, Use.Of, clash]
    | table h c => by_cases clash : h = g <;> simp [Refers, Use.Of, clash]
    | user h c => by_cases clash : h = g <;> simp [Refers, Use.Of, clash]
    | _ => simp [Refers, Use.Of]
  constructor
  · intro p u here
    obtain ⟨was, other⟩ := (same p u).mp here
    have use_ := owns.refers p u was
    rw [use_, Use.drop_not_of other]
  · intro p notHeld known
    have other : ¬ (use p).Of g := by
      intro mine
      rw [Use.drop_of mine] at notHeld
      exact notHeld (Or.inl rfl)
    rw [Use.drop_not_of other] at notHeld known ⊢
    exact (same p _).mpr ⟨owns.referred p notHeld known, other⟩
  · exact owns.nodup
  · intro p known
    apply owns.allocatable
    intro fixed
    exact known (by simp [fixed, Use.drop])
  · intro h A live
    have other : h ≠ g := by
      rintro rfl
      simp at live
    rw [Function.update_of_ne other] at live
    exact owns.rep h A live
  · intro h A d t live at_
    have other : h ≠ g := by
      rintro rfl
      simp at live
    rw [Function.update_of_ne other] at live
    exact owns.inDir h A d t live at_

end Xv6.Vm
