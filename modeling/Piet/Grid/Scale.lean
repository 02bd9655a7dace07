import Piet.Grid.Basic

/-!
# Pictures drawn with enlarged pixels

A picture whose pixels are drawn as `n × n` blocks is read back by keeping the top left pixel
of every block.  Blocks that are cut off at the right or bottom edge count as well.
`Grid.get?_scaleDown` says which pixel is kept for which position.
-/

namespace Piet

namespace Grid

/-- The number of blocks of `n` pixels that cover a side, the last of them cut off perhaps. -/
def blockCount (n side : Nat) : Nat :=
  (side + n - 1) / n

theorem blockCount_le {n : Nat} (hn : 1 ≤ n) (side : Nat) : blockCount n side ≤ side := by
  rcases side with _ | k
  · exact Nat.le_of_eq (Nat.div_eq_of_lt (by omega))
  · refine Nat.div_le_of_le_mul ?_
    have : k ≤ n * k := Nat.le_mul_of_pos_left k hn
    rw [Nat.mul_succ]
    omega

/-- Block number `i` begins inside the side exactly when it is one of those that cover it. -/
theorem lt_blockCount_iff {n : Nat} (hn : 1 ≤ n) {i side : Nat} :
    i < blockCount n side ↔ n * i < side := by
  rw [blockCount, Nat.lt_iff_add_one_le, Nat.le_div_iff_mul_le hn, Nat.mul_comm, Nat.mul_succ]
  omega

/-- The picture made of the top left pixel of every `n × n` block.  Blocks of at most one
pixel leave the picture as it is. -/
def scaleDown (g : Grid) (n : Nat) : Grid :=
  if hn : n ≤ 1 then
    g
  else
    have hn : 1 ≤ n := by omega
    ofFn (blockCount n g.width) (blockCount n g.height)
      (Nat.lt_of_le_of_lt (blockCount_le hn _) g.width_lt)
      (Nat.lt_of_le_of_lt (blockCount_le hn _) g.height_lt)
      fun p => (g.get? ⟨n * p.y, n * p.x⟩).getD .black

theorem width_scaleDown {g : Grid} {n : Nat} (hn : 1 ≤ n) :
    (g.scaleDown n).width = blockCount n g.width := by
  unfold scaleDown
  split
  · obtain rfl : n = 1 := by omega
    simp [blockCount]
  · rfl

theorem height_scaleDown {g : Grid} {n : Nat} (hn : 1 ≤ n) :
    (g.scaleDown n).height = blockCount n g.height := by
  unfold scaleDown
  split
  · obtain rfl : n = 1 := by omega
    simp [blockCount]
  · rfl

/-- A pixel of the reduced picture is the top left pixel of its block, and there is one exactly
where the block begins inside. -/
theorem get?_scaleDown {g : Grid} {n : Nat} (hn : 1 ≤ n) (p : Pos) :
    (g.scaleDown n).get? p = g.get? ⟨n * p.y, n * p.x⟩ := by
  unfold scaleDown
  split
  · obtain rfl : n = 1 := by omega
    simp only [Nat.one_mul]
  · refine get?_ofFn_getD (f := fun p => g.get? ⟨n * p.y, n * p.x⟩) ?_
    rw [isSome_get?, lt_blockCount_iff hn, lt_blockCount_iff hn]
    exact Iff.rfl

end Grid

end Piet
