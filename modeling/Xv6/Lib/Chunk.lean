import Mathlib

set_option autoImplicit false

/-!
# Chunks of a byte range

A range of bytes of a file is copied block by block: each chunk ends at a block boundary or at the
end of the range.
-/

namespace Split

structure Chunk where
  done : Nat
  block : Nat
  offset : Nat
  len : Nat

-- `done` of `n` bytes are copied and the next one is at `off`. Each turn copies at least one byte,
-- so `n` turns are enough.
def chunksFrom (size : Nat) : Nat → Nat → Nat → Nat → List Chunk
  | 0, _, _, _ => []
  | fuel + 1, off, done, n =>
    if done < n then
      let len := min (n - done) (size - off % size)
      ⟨done, off / size, off % size, len⟩ :: chunksFrom size fuel (off + len) (done + len) n
    else []

def chunks (size off n : Nat) : List Chunk := chunksFrom size n off 0 n

theorem chunksFrom_inside (size fuel off done n : Nat) :
    ∀ c ∈ chunksFrom size fuel off done n, c.done + c.len ≤ n := by
  induction fuel generalizing off done with
  | zero => simp [chunksFrom]
  | succ fuel ih =>
    rw [chunksFrom]
    split
    next more =>
      intro c member
      rcases List.mem_cons.mp member with rfl | later
      · have short : min (n - done) (size - off % size) ≤ n - done := Nat.min_le_left _ _
        dsimp only
        omega
      · exact ih _ _ c later
    next => simp

theorem chunks_inside (size off n : Nat) : ∀ c ∈ chunks size off n, c.done + c.len ≤ n :=
  chunksFrom_inside size n off 0 n

theorem chunksFrom_blocks (size fuel off done n : Nat) (block : 0 < size) (turns : n - done ≤ fuel) :
    ((chunksFrom size fuel off done n).map (·.block)).toFinset = (Finset.Ico off (off + (n - done))).image (· / size) := by
  induction fuel generalizing off done with
  | zero =>
    have none_ : n - done = 0 := by omega
    simp [chunksFrom, none_]
  | succ fuel ih =>
    rw [chunksFrom]
    split
    next more =>
      have below := Nat.mod_lt off block
      set len := min (n - done) (size - off % size) with hlen
      have whole : off + len + (n - (done + len)) = off + (n - done) := by omega
      have first : (Finset.Ico off (off + len)).image (· / size) = {off / size} := by
        refine (Finset.image_congr fun k member => ?_).trans (Finset.image_const ?_ (off / size))
        · have inside := Finset.mem_Ico.mp member
          have divided := Nat.div_add_mod off size
          refine Nat.div_eq_of_lt_le ?_ ?_
          · rw [Nat.mul_comm]
            omega
          · rw [Nat.add_mul, Nat.mul_comm]
            omega
        · exact ⟨off, Finset.mem_Ico.mpr ⟨le_rfl, by omega⟩⟩
      rw [List.map_cons, List.toFinset_cons, ih _ _ (by omega), whole,
        ← Finset.Ico_union_Ico_eq_Ico (show off ≤ off + len by omega) (show off + len ≤ off + (n - done) by omega),
        Finset.image_union, first]
      rfl
    next =>
      have none_ : n - done = 0 := by omega
      simp [none_]

theorem chunks_blocks (size off n : Nat) (block : 0 < size) :
    ((chunks size off n).map (·.block)).toFinset = (Finset.Ico off (off + n)).image (· / size) :=
  chunksFrom_blocks size n off 0 n block le_rfl

theorem chunks_block (size off n : Nat) (block : 0 < size) :
    ∀ c ∈ chunks size off n, ∃ k, off ≤ k ∧ k < off + n ∧ c.block = k / size := by
  intro c member
  have inside : c.block ∈ ((chunks size off n).map (·.block)).toFinset :=
    List.mem_toFinset.mpr (List.mem_map_of_mem member)
  rw [chunks_blocks size off n block] at inside
  obtain ⟨k, range, same⟩ := Finset.mem_image.mp inside
  exact ⟨k, (Finset.mem_Ico.mp range).1, (Finset.mem_Ico.mp range).2, same.symm⟩

theorem chunks_first (size off n : Nat) (block : 0 < size) (some_ : 0 < n) :
    ∃ c ∈ chunks size off n, c.done = 0 ∧ 0 < c.len := by
  obtain ⟨fuel, rfl⟩ := Nat.exists_eq_succ_of_ne_zero (Nat.ne_of_gt some_)
  have below := Nat.mod_lt off block
  refine ⟨⟨0, off / size, off % size, min (fuel.succ - 0) (size - off % size)⟩, ?_, rfl, ?_⟩
  · simp [chunks, chunksFrom]
  · dsimp only
    omega

end Split
