import Xv6.User.FreeList

set_option autoImplicit false

/-!
# Allocation

`malloc` goes around the free list once, takes the first block that is large enough or its tail, and
asks for more memory when it is back where it started.
-/

namespace Xv6.Umalloc

open Memory LinkRing

-- What is left of a block, and what is cut off, if `n` of its units are taken.
def carve (q : Extent) (n : Nat) : List Extent := if q.units = n then [] else [⟨q.addr, q.units - n⟩]

def cut (q : Extent) (n : Nat) : Extent := ⟨q.addr + HEADER * (q.units - n), n⟩

section Carving

variable {q : Extent} {n : Nat} {front rest : List Extent}

theorem carve_spaced (spaced : Spaced (front ++ q :: rest)) (fits : n ≤ q.units) :
    Spaced (front ++ (carve q n ++ rest)) := by
  obtain ⟨before, here, across⟩ := List.pairwise_append.mp spaced
  obtain ⟨after, others⟩ := List.pairwise_cons.mp here
  unfold carve
  split
  next =>
    exact List.pairwise_append.mpr ⟨before, others, fun e left g right => across e left g (List.mem_cons_of_mem q right)⟩
  next =>
    refine List.pairwise_append.mpr ⟨before, List.pairwise_cons.mpr ⟨?_, others⟩, ?_⟩
    · intro g right
      obtain ⟨stop, header⟩ := after g right
      refine ⟨?_, header⟩
      simp only [Extent.stop, HEADER] at stop ⊢
      omega
    · intro e left g right
      rcases List.mem_cons.mp right with rfl | right
      · exact across e left q List.mem_cons_self
      · exact across e left g (List.mem_cons_of_mem q right)

theorem carve_contents (fits : n ≤ q.units) :
    covered (carve q n) ∪ (cut q n).bytes = q.bytes ∧ Disjoint (covered (carve q n)) (cut q n).bytes ∧
      units (carve q n) + n = q.units := by
  unfold carve
  split
  next all =>
    have same : (cut q n).bytes = q.bytes := by
      simp [Extent.bytes, cut, Extent.stop, all]
    exact ⟨by simp [same], by simp, by simp [all]⟩
  next some =>
    have touches : (Extent.mk q.addr (q.units - n)).stop = (cut q n).addr := rfl
    have glued := bytes_glue ⟨q.addr, q.units - n⟩ (cut q n) touches
    have whole : q.units - n + (cut q n).units = q.units := by
      simp only [cut]
      omega
    rw [whole] at glued
    refine ⟨?_, ?_, ?_⟩
    · rw [covered_cons, covered_nil, Set.union_empty]
      exact glued.symm
    · rw [covered_cons, covered_nil, Set.union_empty, Extent.bytes, Extent.bytes, touches]
      exact Set.Ico_disjoint_Ico_same
    · simp only [units_cons, units_nil]
      omega

end Carving

section Take

variable {m : Mem} {freep n : Nat} {q prev : Extent} {front rest before : List Extent}

theorem Spaced.nodup {l : List Extent} (spaced : Spaced l) : (l.map Extent.addr).Nodup := by
  rw [List.nodup_iff_pairwise_ne, List.pairwise_map]
  refine spaced.imp ?_
  intro e g ⟨_, apart⟩ same
  simp only [HEADER] at apart
  omega

theorem setPtr_removes (list : FreeList m freep (front ++ q :: rest)) (spaced : Spaced (front ++ q :: rest))
    (last : rest ++ front = before ++ [prev]) :
    FreeList (setPtr m prev.addr (ptr m q.addr)) prev.addr (front ++ rest) := by
  have turned : Around (ptr m) (q.addr :: (rest ++ front).map Extent.addr) := by
    have mapped := list.around
    rw [List.map_append, List.map_cons] at mapped
    rw [List.map_append]
    exact mapped.enter
  have rotated : rest ++ front ~r front ++ rest := List.isRotated_append
  have members : ∀ e ∈ before ++ [prev], e ∈ front ++ q :: rest := by
    intro e member
    rw [← last] at member
    simp only [List.mem_append, List.mem_cons] at member ⊢
    tauto
  have distinct : (before ++ [prev]).Pairwise fun e g => Apart e.addr g.addr := by
    have apart : (front ++ q :: rest).Pairwise fun e g => Apart e.addr g.addr :=
      spaced.imp fun spaced => Or.inl spaced.2
    have fewer : (front ++ rest).Pairwise fun e g => Apart e.addr g.addr :=
      apart.sublist (List.Sublist.append_left (List.sublist_cons_self q rest) front)
    rw [← last]
    exact (rotated.perm.pairwise_iff Apart.symm).mpr fewer
  have apart : ∀ e ∈ before, Apart prev.addr e.addr :=
    fun e member => ((List.pairwise_append.mp distinct).2.2 e member prev (by simp)).symm
  have circle : Around (ptr (setPtr m prev.addr (ptr m q.addr))) (prev.addr :: before.map Extent.addr) := by
    rw [last, List.map_append, List.map_singleton] at turned
    have entered : Around (ptr m) (prev.addr :: q.addr :: before.map Extent.addr) := by
      have shifted := @Around.enter _ _ _ (q.addr :: before.map Extent.addr) [] turned
      simpa using shifted
    refine entered.remove (ptr_setPtr m (ptr_lt m _)) ?_
    intro a member
    obtain ⟨e, inside, rfl⟩ := List.mem_map.mp member
    exact (setPtr_sameHeader m (apart e inside)).1
  have home : before ++ [prev] ~r front ++ rest := last ▸ rotated
  refine ⟨?_, ?_, ?_⟩
  · have closing : prev.addr :: before.map Extent.addr ~r (before ++ [prev]).map Extent.addr := by
      rw [List.map_append, List.map_singleton]
      exact (@List.isRotated_append _ (before.map Extent.addr) [prev.addr]).symm
    exact circle.isRotated (closing.trans (home.map _))
  · intro e member
    have inside := home.mem_iff.mpr member
    have same : size (setPtr m prev.addr (ptr m q.addr)) e.addr = size m e.addr := by
      rcases List.mem_append.mp inside with other | here
      · exact (setPtr_sameHeader m (apart e other)).2
      · rw [List.mem_singleton.mp here]
        exact size_setPtr m
    rw [same]
    exact list.sizes e (members e inside)
  · exact List.mem_map_of_mem (home.mem_iff.mp (by simp))

theorem setSize_shortens (list : FreeList m freep (front ++ q :: rest)) (spaced : Spaced (front ++ q :: rest))
    (positive : 0 < n) (more : n < q.units) (bound : q.stop < 2 ^ 32) (member : prev ∈ rest ++ front) :
    FreeList (setSize (setSize m q.addr (q.units - n)) (cut q n).addr n) prev.addr
        (front ++ ⟨q.addr, q.units - n⟩ :: rest) ∧
      size (setSize (setSize m q.addr (q.units - n)) (cut q n).addr n) (cut q n).addr = n := by
  have small : q.units < 2 ^ 32 := by
    simp only [Extent.stop, HEADER] at bound
    omega
  have inner : Apart (cut q n).addr q.addr := by
    right
    simp only [cut, HEADER]
    omega
  have outer : ∀ e ∈ rest ++ front, Apart (cut q n).addr e.addr := by
    intro e member
    obtain ⟨-, here, across⟩ := List.pairwise_append.mp spaced
    rcases List.mem_append.mp member with after | before
    · left
      have := ((List.pairwise_cons.mp here).1 e after).1
      simp only [cut, Extent.stop, HEADER] at *
      omega
    · right
      have := (across e before q List.mem_cons_self).2
      simp only [cut, HEADER] at *
      omega
  have others : ∀ e ∈ rest ++ front,
      SameHeader m (setSize (setSize m q.addr (q.units - n)) (cut q n).addr n) e.addr :=
    fun e member => (setSize_sameHeader m (spaced.apart e member)).trans (setSize_sameHeader _ (outer e member))
  have shorter := setSize_sameHeader (v := n) (setSize m q.addr (q.units - n)) inner
  refine ⟨⟨?_, ?_, ?_⟩, size_setSize _ (by omega)⟩
  · have same : (front ++ ⟨q.addr, q.units - n⟩ :: rest).map Extent.addr = (front ++ q :: rest).map Extent.addr := by
      simp
    rw [same]
    apply list.around.congr
    intro a member
    obtain ⟨e, inside, rfl⟩ := List.mem_map.mp member
    rcases List.mem_append.mp inside with before | here
    · exact (others e (List.mem_append_right _ before)).1
    · rcases List.mem_cons.mp here with rfl | after
      · rw [shorter.1, ptr_setSize]
      · exact (others e (List.mem_append_left _ after)).1
  · intro e inside
    rcases List.mem_append.mp inside with before | here
    · rw [(others e (List.mem_append_right _ before)).2]
      exact list.sizes e (by simp [before])
    · rcases List.mem_cons.mp here with rfl | after
      · rw [shorter.2, size_setSize m (by omega)]
      · rw [(others e (List.mem_append_left _ after)).2]
        exact list.sizes e (by simp [after])
  · apply List.mem_map_of_mem
    rcases List.mem_append.mp member with after | before
    · simp [after]
    · simp [before]

theorem take_carves (list : FreeList m freep (front ++ q :: rest)) (spaced : Spaced (front ++ q :: rest))
    (positive : 0 < n) (fits : n ≤ q.units) (bound : q.stop < 2 ^ 32) (last : rest ++ front = before ++ [prev])
    (regions : List Extent) :
    ∃ m', take ⟨m, some freep, regions⟩ n prev.addr q.addr =
        (⟨m', some prev.addr, regions⟩, (cut q n).addr + HEADER) ∧
      FreeList m' prev.addr (front ++ (carve q n ++ rest)) ∧ size m' (cut q n).addr = n ∧
      ∀ c, Apart prev.addr c → Apart q.addr c → Apart (cut q n).addr c → SameHeader m m' c := by
  have held : size m q.addr = q.units := list.sizes q (by simp)
  have member : prev ∈ rest ++ front := by
    rw [last]
    simp
  by_cases all : q.units = n
  · refine ⟨setPtr m prev.addr (ptr m q.addr), ?_, ?_, ?_, fun c apart _ _ => setPtr_sameHeader m apart⟩
    · have next : q.addr + HEADER * 1 < 2 ^ 32 := by
        simp only [Extent.stop, HEADER] at *
        omega
      rw [take, if_pos (held.trans all), plus_of_lt next]
      simp [cut, all]
    · rw [carve, if_pos all, List.nil_append]
      exact setPtr_removes list spaced last
    · have here : (cut q n).addr = q.addr := by simp [cut, all]
      rw [here, (setPtr_sameHeader m (spaced.apart prev member).symm).2, held, all]
  · have more : n < q.units := by omega
    obtain ⟨shorter, taken⟩ := setSize_shortens list spaced positive more bound member
    refine ⟨_, ?_, ?_, taken, ?_⟩
    · have left : size (setSize m q.addr (q.units - n)) q.addr = q.units - n := by
        apply size_setSize
        simp only [Extent.stop, HEADER] at bound
        omega
      have split : q.addr + HEADER * (q.units - n) < 2 ^ 32 := by
        simp only [Extent.stop, HEADER] at *
        omega
      have next : (cut q n).addr + HEADER * 1 < 2 ^ 32 := by
        simp only [cut, Extent.stop, HEADER] at *
        omega
      rw [take, if_neg (by rw [held]; exact all)]
      simp only [held, left]
      rw [plus_of_lt split]
      exact congrArg₂ Prod.mk rfl (plus_of_lt next)
    · rw [carve, if_neg all, List.singleton_append]
      exact shorter
    · intro c _ apart apart'
      exact (setSize_sameHeader m apart).trans (setSize_sameHeader _ apart')

end Take

section Scan

variable {m : Mem} {sbrk : Sbrk} {n freep : Nat} {regions : List Extent}

theorem FreeList.advance {c q : Extent} {pre post : List Extent} (list : FreeList m freep (c :: pre ++ q :: post)) :
    ∃ d, (pre ++ [q]).head? = some d ∧ ptr m c.addr = d.addr ∧ FreeList m freep (pre ++ q :: (post ++ [c])) := by
  have turned := @FreeList.isRotated _ _ _ (pre ++ q :: (post ++ [c])) list ⟨1, by simp⟩
  cases pre with
  | nil => exact ⟨q, rfl, list.next_first, turned⟩
  | cons g pre => exact ⟨g, rfl, list.next_first, turned⟩

theorem mallocLoop_hit {q e prev last : Extent} {pre post : List Extent}
    (list : FreeList m freep (pre ++ q :: post)) (fits : n ≤ q.units) (small : ∀ g ∈ pre, g.units < n)
    (away : ∀ g ∈ pre, g.addr ≠ freep) (start : (pre ++ [q]).head? = some e)
    (behind : (pre ++ q :: post).getLast? = some last) (final : (q :: (post ++ pre)).getLast? = some prev)
    (fuel : Nat) (enough : pre.length < fuel) :
    mallocLoop sbrk n fuel ⟨m, some freep, regions⟩ last.addr e.addr =
      some (take ⟨m, some freep, regions⟩ n prev.addr q.addr) := by
  induction pre generalizing post e last fuel with
  | nil =>
    obtain ⟨k, rfl⟩ : ∃ k, fuel = k + 1 := ⟨fuel - 1, by simp at enough; omega⟩
    simp only [List.nil_append, List.head?_cons, Option.some.injEq, List.append_nil] at start behind final
    subst start
    cases behind.symm.trans final
    rw [mallocLoop, if_pos (by rw [list.sizes q (by simp)]; exact fits)]
  | cons c pre ih =>
    simp only [List.length_cons] at enough
    obtain ⟨k, rfl⟩ : ∃ k, fuel = k + 1 := ⟨fuel - 1, by omega⟩
    simp only [List.cons_append, List.head?_cons, Option.some.injEq] at start
    subst start
    have tooSmall : ¬ size m c.addr ≥ n := by
      rw [list.sizes c (by simp)]
      have := small c List.mem_cons_self
      omega
    have notStart : ¬ (some freep = some c.addr) := by
      have := away c List.mem_cons_self
      simpa using this.symm
    obtain ⟨d, head, next, turned⟩ := list.advance
    rw [mallocLoop, if_neg tooSmall, if_neg notStart]
    simp only [next]
    refine ih turned (fun g member => small g (List.mem_cons_of_mem c member))
      (fun g member => away g (List.mem_cons_of_mem c member)) head ?_ ?_ k (by omega)
    · rw [← List.cons_append, ← List.append_assoc, List.getLast?_concat]
    · rw [List.append_assoc, List.singleton_append]
      exact final

theorem mallocLoop_miss {f e : Extent} {pre post : List Extent} (last : Nat)
    (list : FreeList m f.addr (pre ++ f :: post)) (small : ∀ g ∈ pre ++ [f], g.units < n)
    (away : ∀ g ∈ pre, g.addr ≠ f.addr) (start : (pre ++ [f]).head? = some e) (fuel : Nat) :
    mallocLoop sbrk n (pre.length + 1 + fuel) ⟨m, some f.addr, regions⟩ last e.addr =
      match morecore fuel sbrk ⟨m, some f.addr, regions⟩ n with
      | none => none
      | some (h, none) => some (h, 0)
      | some (h, some p) => mallocLoop sbrk n fuel h p (ptr h.mem p) := by
  induction pre generalizing post e last with
  | nil =>
    simp only [List.nil_append, List.head?_cons, Option.some.injEq] at start
    subst start
    have tooSmall : ¬ size m f.addr ≥ n := by
      rw [list.sizes f (by simp)]
      have := small f (by simp)
      omega
    rewrite [List.length_nil, Nat.zero_add, Nat.add_comm, mallocLoop, if_neg tooSmall, if_pos rfl]
    rfl
  | cons c pre ih =>
    simp only [List.cons_append, List.head?_cons, Option.some.injEq] at start
    subst start
    have tooSmall : ¬ size m c.addr ≥ n := by
      rw [list.sizes c (by simp)]
      have := small c (by simp)
      omega
    have notStart : ¬ (some f.addr = some c.addr) := by
      have := away c List.mem_cons_self
      simpa using this.symm
    obtain ⟨d, head, next, turned⟩ := list.advance
    rw [List.length_cons, Nat.add_right_comm _ 1 fuel, Nat.add_right_comm pre.length 1, mallocLoop, if_neg tooSmall,
      if_neg notStart, next, ← Nat.add_right_comm]
    exact ih c.addr turned (fun g member => small g (List.mem_cons_of_mem c member))
      (fun g member => away g (List.mem_cons_of_mem c member)) head

end Scan

end Xv6.Umalloc
