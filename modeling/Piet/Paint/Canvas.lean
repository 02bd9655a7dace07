import Piet.Grid.Basic

/-!
# The canvas

A canvas grows to hold whatever is painted on it.  Its rows are only as long as they need to
be; cells that were never painted become black in the finished picture.

Only the size of a single block of memory bounds a canvas here.  This is an idealisation: there is
taken to be memory for all that such blocks can hold, and an array to grow to just the size that it
needs, without room to spare.
-/

namespace Piet

/-- The greatest number of bytes that a block of memory can have. -/
def Canvas.maxMemory : Nat :=
  UInt64.size / 2 - 1

/-- The greatest number of rows, each of which takes three words of memory. -/
def Canvas.maxHeight : Nat :=
  maxMemory / 24

/-- The greatest number of cells in a row, each of which takes three bytes of memory. -/
def Canvas.maxWidth : Nat :=
  maxMemory / 3

/-- A cell that can be painted: a canvas that holds it can be held in memory. -/
def Pos.Paintable (p : Pos) : Prop :=
  p.y < Canvas.maxHeight ∧ p.x < Canvas.maxWidth

instance (p : Pos) : Decidable p.Paintable :=
  inferInstanceAs (Decidable (_ ∧ _))

/-- Rows of cells, each as long as what was painted in it, and the length of the longest. -/
structure Canvas where
  rows : Array (Array (Option Color))
  width : Nat
  row_le : ∀ (i : Nat) (h : i < rows.size), rows[i].size ≤ width
  width_lt : width < Pos.limit
  height_lt : rows.size < Pos.limit

namespace Canvas

/-- The canvas on which nothing has been painted. -/
def empty : Canvas :=
  ⟨#[], 0, fun _ h => absurd h (Nat.not_lt_zero _), by decide, by decide⟩

/-- The number of rows. -/
def height (c : Canvas) : Nat :=
  c.rows.size

/-- The colour of a cell, if it has been painted. -/
def get? (c : Canvas) (p : Pos) : Option Color :=
  match c.rows[p.y]? with
  | none => none
  | some row => row[p.x]?.join

/-- An array lengthened to a size, if it is shorter. -/
def padTo {α : Type} (a : Array α) (size : Nat) (fill : α) : Array α :=
  a ++ Array.replicate (size - a.size) fill

@[simp]
theorem size_padTo {α : Type} (a : Array α) (size : Nat) (fill : α) :
    (padTo a size fill).size = max a.size size := by
  rw [padTo, Array.size_append, Array.size_replicate]
  omega

/-- A row with one cell painted. -/
def paintRow (row : Array (Option Color)) (x : Nat) (color : Color) : Array (Option Color) :=
  (padTo row (x + 1) none).setIfInBounds x (some color)

@[simp]
theorem size_paintRow (row : Array (Option Color)) (x : Nat) (color : Color) :
    (paintRow row x color).size = max row.size (x + 1) := by
  rw [paintRow, Array.size_setIfInBounds, size_padTo]

/-- Paints a cell.  A cell that cannot be painted stays as it is. -/
def set (c : Canvas) (p : Pos) (color : Color) : Canvas :=
  if hp : p.Paintable then
    { rows := (padTo c.rows (p.y + 1) #[]).modify p.y fun row => paintRow row p.x color
      width := max c.width (p.x + 1)
      row_le := by
        intro i h
        have hrow : ∀ h : i < (padTo c.rows (p.y + 1) #[]).size,
            (padTo c.rows (p.y + 1) #[])[i].size ≤ c.width := by
          intro h
          simp only [padTo, Array.getElem_append]
          split
          · exact c.row_le i _
          · simp
        rw [Array.getElem_modify]
        split
        · rw [size_paintRow]
          have := hrow (by simpa using h)
          omega
        · have := hrow (by simpa using h)
          omega
      width_lt := Nat.max_lt.mpr ⟨c.width_lt, Nat.lt_of_le_of_lt hp.2 (by decide)⟩
      height_lt := by
        rw [Array.size_modify, size_padTo]
        exact Nat.max_lt.mpr ⟨c.height_lt, Nat.lt_of_le_of_lt hp.1 (by decide)⟩ }
  else
    c

/-- Paints a cell that can be painted. -/
def set? (c : Canvas) (p : Pos) (color : Color) : Option Canvas :=
  if p.Paintable then some (c.set p color) else none

/-- The finished picture: what has been painted, on black. -/
def toGrid (c : Canvas) : Grid :=
  .ofFn c.width c.height c.width_lt c.height_lt fun p => (c.get? p).getD .black

@[simp]
theorem get?_empty (p : Pos) : empty.get? p = none := by
  simp [get?, empty]

/-- The finished picture shows what has been painted and is black elsewhere. -/
theorem get?_toGrid (c : Canvas) (p : Pos) :
    c.toGrid.get? p =
      if p.y < c.height ∧ p.x < c.width then some ((c.get? p).getD .black) else none :=
  Grid.get?_ofFn

end Canvas

end Piet
