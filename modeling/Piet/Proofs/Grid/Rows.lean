import Mathlib.Data.Nat.Notation
import Mathlib.Tactic.Common
import Piet.Grid.Basic

/-!
# Pictures row by row

What is put together from pieces of one length has a place for each place of each piece.  So the cells
of a picture can be written down row by row (`Grid.toList_cells`), and what is written down like this is
the picture again (`Grid.ofCells?_rows`).

* `length_flatMap_const`, `getElem?_flatMap_const`: pieces of one length, put one after another.
* `Grid.get?_place`: the cell at a place, as a pixel.
-/

namespace Piet

/-! ### Pieces of one length -/

section Pieces

variable {α β : Type} {f : α → List β} {size : ℕ}

theorem length_flatMap_const {l : List α} (hf : ∀ a ∈ l, (f a).length = size) :
    (l.flatMap f).length = size * l.length := by
  induction l with
  | nil => rfl
  | cons a l ih =>
    obtain ⟨ha, hl⟩ := List.forall_mem_cons.mp hf
    rw [List.flatMap_cons, List.length_append, ha, ih hl, List.length_cons, Nat.mul_succ,
      Nat.add_comm]

/-- A place in pieces of one length: the number of its piece, and the place in it. -/
theorem getElem?_flatMap_const {l : List α} (hf : ∀ a ∈ l, (f a).length = size) {i j : ℕ} {a : α}
    (hi : l[i]? = some a) (hj : j < size) : (l.flatMap f)[size * i + j]? = (f a)[j]? := by
  induction l generalizing i with
  | nil => cases hi
  | cons b l ih =>
    obtain ⟨hb, hl⟩ := List.forall_mem_cons.mp hf
    rw [List.flatMap_cons]
    cases i with
    | zero =>
      obtain rfl := Option.some.inj hi
      rw [Nat.mul_zero, Nat.zero_add, List.getElem?_append_left (by omega)]
    | succ i =>
      rw [List.getElem?_append_right (by rw [hb, Nat.mul_succ]; omega), hb,
        show size * (i + 1) + j - size = size * i + j by rw [Nat.mul_succ]; omega]
      exact ih hl hi

/-- What is appended piece by piece. -/
theorem toList_foldl {g : Array β → α → Array β} (hg : ∀ out a, (g out a).toList = out.toList ++ f a)
    (l : List α) (out : Array β) : (l.foldl g out).toList = out.toList ++ l.flatMap f := by
  induction l generalizing out with
  | nil => exact (List.append_nil _).symm
  | cons a l ih => rw [List.foldl_cons, ih, hg, List.append_assoc, List.flatMap_cons]

/-- Where every question has an answer, so have all of them one after another. -/
theorem mapM_eq_some_map {l : List α} {ask : α → Option β} {answer : α → β}
    (h : ∀ a ∈ l, ask a = some (answer a)) : l.mapM ask = some (l.map answer) := by
  induction l with
  | nil => rfl
  | cons a l ih =>
    obtain ⟨ha, hl⟩ := List.forall_mem_cons.mp h
    rw [List.mapM_cons, ha, ih hl]
    rfl

end Pieces

/-! ### Cells and pixels -/

namespace Grid

variable {g : Grid} {f : Pos → Color} {i : ℕ}

/-- Every place among the cells is that of a position inside. -/
theorem inside_place (hi : i < g.cells.size) : g.Inside ⟨i / g.width, i % g.width⟩ := by
  rw [g.size_cells] at hi
  exact ⟨Nat.div_lt_of_lt_mul hi, Nat.mod_lt _ (Nat.pos_of_lt_mul_right hi)⟩

/-- The cell at a place, as the pixel it stands for. -/
theorem get?_place (hi : i < g.cells.size) :
    g.get? ⟨i / g.width, i % g.width⟩ = some g.cells[i] := by
  have hindex : g.index ⟨i / g.width, i % g.width⟩ = i := by
    rw [index, Nat.mul_comm]
    exact Nat.div_add_mod i g.width
  rw [get?_eq_getElem? (inside_place hi), hindex, Array.getElem?_eq_getElem hi]

/-- **A picture consists of its rows.** -/
theorem toList_cells (hf : ∀ p, g.Inside p → g.get? p = some (f p)) :
    g.cells.toList =
      (List.range g.height).flatMap fun y => (List.range g.width).map fun x => f ⟨y, x⟩ := by
  have hrow : ∀ y ∈ List.range g.height,
      ((List.range g.width).map fun x => f ⟨y, x⟩).length = g.width := by
    intro y _
    rw [List.length_map, List.length_range]
  refine List.ext_getElem ?_ fun i hi hi' => ?_
  · rw [length_flatMap_const hrow, List.length_range, Array.length_toList, g.size_cells]
  · have hcell : i < g.cells.size := by rwa [Array.length_toList] at hi
    obtain ⟨hy, hx⟩ := inside_place hcell
    have hpixel := hf _ (inside_place hcell)
    rw [get?_place hcell] at hpixel
    have hplace := getElem?_flatMap_const hrow (List.getElem?_range hy) hx
    rw [Nat.div_add_mod, List.getElem?_map, List.getElem?_range hx, List.getElem?_eq_getElem hi',
      Option.map_some] at hplace
    rw [Array.getElem_toList, Option.some.inj hplace]
    exact Option.some.inj hpixel

/-- Rows of pixels, one after another, fit the sides and make the picture. -/
theorem ofCells?_rows (hf : ∀ p, g.Inside p → g.get? p = some (f p)) :
    ofCells? g.width g.height
      ((List.range g.height).map fun y =>
        (List.range g.width).map fun x => f ⟨y, x⟩).flatten.toArray = some g := by
  rw [← List.flatMap_def, ← toList_cells hf, Array.toArray_toList]
  exact dif_pos ⟨g.size_cells, g.width_lt, g.height_lt⟩

end Grid

end Piet
