import Mathlib.Algebra.Order.Floor.Div
import Piet.Grid.Scale
import Piet.Proofs.Grid.Rows
import Piet.Proofs.Grid.Runs

/-!
# Enlarging and reducing pictures

`Grid.enlarge` draws every pixel of a picture as a block of `n × n` pixels.  Its runs are those of the
picture, `n` times as long (`Grid.runLengths_enlarge`), so its smallest side is `n` times the one of
the picture, and the top left pixels of its blocks are the picture (`Grid.scaleDown_enlarge`).

A picture is reduced by reading the corners of its blocks at their places among the cells.  Each block
that is counted begins inside, also one that is cut off at an edge, so all these places exist
(`Grid.corner_lt`) and the reading succeeds (`Grid.scaleDown?_eq`).

The corners of blocks of blocks are the corners of larger blocks, and there are equally many of both
(`Grid.blockCount_blockCount`), so reducing twice is reducing once by the product
(`Grid.scaleDown_scaleDown`).  `Grid.reduction_composes` puts this together.
-/

namespace Piet

/-! ### Enlarging -/

namespace Grid

/-- The picture with every pixel drawn as a block of `n × n` pixels. -/
def enlarge (g : Grid) (n : ℕ) (hw : n * g.width < Pos.limit) (hh : n * g.height < Pos.limit) :
    Grid :=
  .ofFn (n * g.width) (n * g.height) hw hh fun p => (g.get? ⟨p.y / n, p.x / n⟩).getD .black

variable {g : Grid} {n : ℕ} {hw : n * g.width < Pos.limit} {hh : n * g.height < Pos.limit}

/-- A pixel shows the pixel of whose block it is. -/
theorem get?_enlarge (hn : 0 < n) (p : Pos) :
    (g.enlarge n hw hh).get? p = g.get? ⟨p.y / n, p.x / n⟩ := by
  have hside : ∀ i side, i < n * side ↔ i / n < side := by
    intro i side
    rw [Nat.div_lt_iff_lt_mul hn, Nat.mul_comm]
  refine get?_ofFn_getD (f := fun p => g.get? ⟨p.y / n, p.x / n⟩) ?_
  rw [isSome_get?, hside, hside]
  exact Iff.rfl

/-- **Taking one pixel of each block undoes it.** -/
theorem scaleDown_enlarge (hn : 0 < n) : (g.enlarge n hw hh).scaleDown n = g := by
  have hcount : ∀ side, blockCount n (n * side) = side := by
    intro side
    refine eq_of_forall_lt_iff fun i => ?_
    rw [lt_blockCount_iff hn, Nat.mul_lt_mul_left hn]
  refine ext_get? ?_ ?_ fun p => ?_
  · rw [width_scaleDown hn]
    exact hcount g.width
  · rw [height_scaleDown hn]
    exact hcount g.height
  · rw [get?_scaleDown hn, get?_enlarge hn, Nat.mul_div_cancel_left _ hn,
      Nat.mul_div_cancel_left _ hn]

/-! ### Enlarged runs -/

theorem row_enlarge (hn : 0 < n) {y : ℕ} (hy : y < n * g.height) (x : ℕ) :
    ((g.enlarge n hw hh).row y)[x]? = (g.row (y / n))[x / n]? := by
  rw [getElem?_row (show y < (g.enlarge n hw hh).height from hy),
    getElem?_row (Nat.div_lt_of_lt_mul hy), get?_enlarge hn]

theorem column_enlarge (hn : 0 < n) {x : ℕ} (hx : x < n * g.width) (y : ℕ) :
    ((g.enlarge n hw hh).column x)[y]? = (g.column (x / n))[y / n]? := by
  rw [getElem?_column (show x < (g.enlarge n hw hh).width from hx),
    getElem?_column (Nat.div_lt_of_lt_mul hx), get?_enlarge hn]

/-- **Enlarging a picture makes its runs `n` times as long.** -/
theorem runLengths_enlarge (hn : 0 < n) :
    (g.enlarge n hw hh).runLengths = (fun k => n * k) '' g.runLengths := by
  ext k'
  constructor
  · rintro (⟨y, hy, i', hrun⟩ | ⟨x, hx, i', hrun⟩)
    · obtain ⟨i, k, -, rfl, hrun'⟩ := (maximalRun_stretched_iff hn (row_enlarge hn hy)).mp hrun
      exact ⟨k, .inl ⟨y / n, Nat.div_lt_of_lt_mul hy, i, hrun'⟩, rfl⟩
    · obtain ⟨i, k, -, rfl, hrun'⟩ := (maximalRun_stretched_iff hn (column_enlarge hn hx)).mp hrun
      exact ⟨k, .inr ⟨x / n, Nat.div_lt_of_lt_mul hx, i, hrun'⟩, rfl⟩
  · rintro ⟨k, ⟨y, hy, i, hrun⟩ | ⟨x, hx, i, hrun⟩, rfl⟩
    · -- The first row of the blocks is as good as any.
      have hy' : n * y < n * g.height := Nat.mul_lt_mul_of_pos_left hy hn
      rw [← Nat.mul_div_cancel_left y hn] at hrun
      refine .inl ⟨n * y, hy', n * i, ?_⟩
      exact (maximalRun_stretched_iff hn (row_enlarge hn hy')).mpr ⟨i, k, rfl, rfl, hrun⟩
    · have hx' : n * x < n * g.width := Nat.mul_lt_mul_of_pos_left hx hn
      rw [← Nat.mul_div_cancel_left x hn] at hrun
      refine .inr ⟨n * x, hx', n * i, ?_⟩
      exact (maximalRun_stretched_iff hn (column_enlarge hn hx')).mpr ⟨i, k, rfl, rfl, hrun⟩

theorem isEmpty_enlarge (hn : 0 < n) (hg : g.isEmpty = false) :
    (g.enlarge n hw hh).isEmpty = false := by
  obtain ⟨hwidth, hheight⟩ := isEmpty_eq_false_iff.mp hg
  exact isEmpty_eq_false_iff.mpr ⟨Nat.mul_pos hn hwidth, Nat.mul_pos hn hheight⟩

/-- The smallest side grows with the blocks. -/
theorem smallestSide_enlarge (hn : 0 < n) (hg : g.isEmpty = false) :
    (g.enlarge n hw hh).smallestSide = n * g.smallestSide := by
  have hempty : (g.enlarge n hw hh).isEmpty = false := isEmpty_enlarge hn hg
  have hleast := isLeast_smallestSide hempty
  rw [runLengths_enlarge hn] at hleast
  have hmono : Monotone fun k => n * k := fun _ _ hle => Nat.mul_le_mul_left n hle
  exact hleast.unique (hmono.map_isLeast (isLeast_smallestSide hg))

end Grid

namespace Grid

variable {g : Grid} {m n : ℕ} {p : Pos}

/-! ### The number of blocks -/

/-- As many blocks cover a side as its length divided by theirs, rounded up. -/
theorem blockCount_eq_ceilDiv (n side : ℕ) : blockCount n side = side ⌈/⌉ n :=
  (Nat.ceilDiv_eq_add_pred_div side n).symm

/-- Blocks of blocks, the last of both cut off perhaps, are as many as the larger blocks. -/
theorem blockCount_blockCount (hm : 1 ≤ m) (hn : 1 ≤ n) (side : ℕ) :
    blockCount n (blockCount m side) = blockCount (m * n) side := by
  refine eq_of_forall_lt_iff fun i => ?_
  rw [lt_blockCount_iff hn, lt_blockCount_iff hm, lt_blockCount_iff (Nat.mul_pos hm hn),
    Nat.mul_assoc]

/-! ### Corners -/

/-- The place of the top left pixel of a block among the cells. -/
def corner (g : Grid) (n : ℕ) (p : Pos) : ℕ :=
  p.y * n * g.width + p.x * n

/-- The corners of the blocks, read row by row at their places.  None if one of the places does not
exist, or if the pixels that were read do not fit the sides. -/
def scaleDown? (g : Grid) (n : ℕ) : Option Grid :=
  if n ≤ 1 then
    some g
  else do
    let rows ← (List.range (blockCount n g.height)).mapM fun y =>
      (List.range (blockCount n g.width)).mapM fun x => g.cells[g.corner n ⟨y, x⟩]?
    ofCells? (blockCount n g.width) (blockCount n g.height) rows.flatten.toArray

/-- Every block that is counted begins inside. -/
theorem inside_scaleDown_iff (hn : 1 ≤ n) :
    (g.scaleDown n).Inside p ↔ g.Inside ⟨n * p.y, n * p.x⟩ := by
  rw [Inside, Inside, height_scaleDown hn, width_scaleDown hn, lt_blockCount_iff hn,
    lt_blockCount_iff hn]

theorem corner_eq_index (g : Grid) (n : ℕ) (p : Pos) :
    g.corner n p = g.index ⟨n * p.y, n * p.x⟩ := by
  rw [corner, index, Nat.mul_comm p.y, Nat.mul_comm p.x]

/-- No corner is read beyond the end of the cells. -/
theorem corner_lt (hn : 1 ≤ n) (hp : (g.scaleDown n).Inside p) : g.corner n p < g.cells.size := by
  rw [corner_eq_index]
  exact index_lt ((inside_scaleDown_iff hn).mp hp)

/-- What is read at a corner is the pixel of the reduced picture. -/
theorem getElem?_corner (hn : 1 ≤ n) (hp : (g.scaleDown n).Inside p) :
    g.cells[g.corner n p]? = (g.scaleDown n).get? p := by
  rw [get?_scaleDown hn, get?_eq_getElem? ((inside_scaleDown_iff hn).mp hp), corner_eq_index]

/-- **Reading the corners never fails**, and what has been read makes the reduced picture. -/
theorem scaleDown?_eq (g : Grid) (hn : 1 ≤ n) : g.scaleDown? n = some (g.scaleDown n) := by
  rw [scaleDown?]
  split
  · next hle => rw [scaleDown, dif_pos hle]
  · have hrow : ∀ y ∈ List.range (g.scaleDown n).height,
        ((List.range (g.scaleDown n).width).mapM fun x => g.cells[g.corner n ⟨y, x⟩]?) =
          some ((List.range (g.scaleDown n).width).map fun x =>
            ((g.scaleDown n).get? ⟨y, x⟩).getD .black) := by
      intro y hy
      refine mapM_eq_some_map fun x hx => ?_
      have hin : (g.scaleDown n).Inside ⟨y, x⟩ := ⟨List.mem_range.mp hy, List.mem_range.mp hx⟩
      exact (getElem?_corner hn hin).trans (get?_eq_some_getD hin)
    rw [← height_scaleDown hn, ← width_scaleDown hn, mapM_eq_some_map hrow]
    exact ofCells?_rows fun p hp => get?_eq_some_getD hp

/-! ### Reducing twice -/

theorem scaleDown_scaleDown (g : Grid) (hm : 1 ≤ m) (hn : 1 ≤ n) :
    (g.scaleDown m).scaleDown n = g.scaleDown (m * n) := by
  have hmn : 1 ≤ m * n := Nat.mul_pos hm hn
  refine ext_get? ?_ ?_ fun p => ?_
  · rw [width_scaleDown hn, width_scaleDown hm, width_scaleDown hmn, blockCount_blockCount hm hn]
  · rw [height_scaleDown hn, height_scaleDown hm, height_scaleDown hmn, blockCount_blockCount hm hn]
  · rw [get?_scaleDown hn, get?_scaleDown hm, get?_scaleDown hmn, Nat.mul_assoc, Nat.mul_assoc]

/-- **Every picture can be reduced, and reducing composes.**

* The corners of all blocks are read at places that exist, and they are as many as the sides of the
  reduced picture ask for, also if a side is zero.
* The sides are those of the picture divided by the side of a block, rounded up.
* Each pixel is the top left one of its block.
* Reducing by `m` and then by `n` is reducing by `m * n`. -/
theorem reduction_composes (g : Grid) (hm : 1 ≤ m) (hn : 1 ≤ n) :
    (g.scaleDown? n = some (g.scaleDown n) ∧
      ∀ p, (g.scaleDown n).Inside p → g.corner n p < g.cells.size) ∧
    ((g.scaleDown n).width = g.width ⌈/⌉ n ∧ (g.scaleDown n).height = g.height ⌈/⌉ n) ∧
    (∀ p, (g.scaleDown n).Inside p →
      ∃ k, g.get? ⟨n * p.y, n * p.x⟩ = some k ∧ (g.scaleDown n).get? p = some k) ∧
    (g.scaleDown m).scaleDown n = g.scaleDown (m * n) := by
  refine ⟨⟨g.scaleDown?_eq hn, fun p hp => corner_lt hn hp⟩, ⟨?_, ?_⟩, fun p hp => ?_,
    g.scaleDown_scaleDown hm hn⟩
  · rw [width_scaleDown hn, blockCount_eq_ceilDiv]
  · rw [height_scaleDown hn, blockCount_eq_ceilDiv]
  · have hpixel := get?_eq_some_getD hp
    exact ⟨_, (get?_scaleDown hn p).symm.trans hpixel, hpixel⟩

/-- A picture of three rows, whose blocks of two pixels are cut off at the right and at the bottom. -/
def ragged : Grid :=
  (ofCells? 5 3 #[.white, .black, .shade (.ofInts 0 0), .white, .shade (.ofInts 1 1),
    .black, .black, .black, .black, .black,
    .shade (.ofInts 2 2), .white, .white, .black, .shade (.ofInts 0 3)]).get (by decide)

/-- The corners of its blocks of two pixels, and of four. -/
theorem reduction_composes_ragged :
    (1 ≤ 2 ∧ ragged.scaleDown? 2 = ofCells? 3 2 #[.white, .shade (.ofInts 0 0),
      .shade (.ofInts 1 1), .shade (.ofInts 2 2), .white, .shade (.ofInts 0 3)]) ∧
    (ragged.scaleDown 2).width = 5 ⌈/⌉ 2 ∧
    (∃ k, ragged.get? ⟨2, 4⟩ = some k ∧ (ragged.scaleDown 2).get? ⟨1, 2⟩ = some k) ∧
    (ragged.scaleDown 2).scaleDown 2 = ragged.scaleDown 4 := by
  obtain ⟨⟨hread, -⟩, ⟨hwidth, -⟩, hpixel, htwice⟩ :=
    reduction_composes ragged (m := 2) (n := 2) (by decide) (by decide)
  refine ⟨⟨by decide, ?_⟩, hwidth, hpixel ⟨1, 2⟩ (by decide +kernel), htwice⟩
  rw [hread]
  decide +kernel

end Grid

end Piet
