import Piet.Paint.Canvas
import Piet.Proofs.Block.Atlas
import Piet.Proofs.Grid.Rows
import Piet.Walk.Run

/-!
# Painting and looking at a canvas

Painting a cell changes what that cell shows and nothing else (`Canvas.get?_set`), so a cell that
was empty is `Painted` in the sense of regions (`Canvas.painted_set`).  In the finished picture
every colour but black stands exactly where it was painted (`Canvas.get?_toGrid_eq_some_iff`), and
a region of the canvas is a region of the picture (`Canvas.fills_toGrid`).

Cells are painted one after another as long as each of them can be painted (`Canvas.setAll?`).  The
canvas then shows at each cell the colour that was painted there last (`Canvas.get?_setAll?`), and
it reaches as far as the lowest and the rightmost of the cells (`Canvas.sides_setAll?`).

Its rows are not equally long, and the finished picture is put together from them by lengthening
each with black (`Canvas.toGrid?`).  No row is too long for that, and the rows fit the sides, so
this never fails and gives the same picture as looking up each of its pixels (`Canvas.toGrid?_eq`).

* `Canvas.setAll?_finite_map` says that a canvas is a record of what was painted.
* `Canvas.not_setAll?_farDown`: not every cell that has an address can be painted.
-/

namespace Piet

theorem Pos.Paintable.near {p : Pos} (h : p.Paintable) : p.Near :=
  ⟨h.1.trans (by decide), h.2.trans (by decide)⟩

namespace Canvas

variable {c : Canvas} {p q : Pos} {k : Color}

theorem getElem?_padTo {α : Type} (a : Array α) (size : ℕ) (fill : α) (i : ℕ) :
    (padTo a size fill)[i]? =
      if i < a.size then a[i]? else if i < size then some fill else none := by
  rw [padTo, Array.getElem?_append]
  split
  · rfl
  · rw [Array.getElem?_replicate]
    split <;> split <;> first | rfl | omega

/-- A painted cell shows its colour, and every other cell shows what it showed before. -/
theorem get?_set (hp : p.Paintable) (k : Color) (q : Pos) :
    (c.set p k).get? q = if q = p then some k else c.get? q := by
  obtain ⟨py, px⟩ := p
  obtain ⟨qy, qx⟩ := q
  have hrow : (c.set ⟨py, px⟩ k).rows[qy]? =
      (if py = qy then (padTo c.rows (py + 1) #[])[qy]?.map fun row => paintRow row px k
        else (padTo c.rows (py + 1) #[])[qy]?) := by
    rw [set, dif_pos hp, Array.getElem?_modify]
  have hcell : ∀ row : Array (Option Color),
      (paintRow row px k)[qx]?.join = if qx = px then some k else row[qx]?.join := by
    intro row
    by_cases hx : qx = px
    · subst hx
      rw [paintRow, if_pos rfl, Array.getElem?_setIfInBounds_self_of_lt (by simp),
        Option.join_some]
    · rw [paintRow, if_neg hx, Array.getElem?_setIfInBounds_ne (Ne.symm hx), getElem?_padTo]
      split
      · rfl
      · next hlt =>
        rw [Array.getElem?_eq_none (by omega)]
        split <;> rfl
  rw [get?, hrow, getElem?_padTo, get?]
  simp only [Pos.mk.injEq]
  by_cases hy : py = qy
  · subst hy
    by_cases hlt : py < c.rows.size
    · simp [hlt, hcell]
    · simp [hlt, hcell]
  · by_cases hlt : qy < c.rows.size
    · simp [hlt, hy, Ne.symm hy]
    · -- A row that has been added is empty.
      have hnew : c.rows[qy]? = none := Array.getElem?_eq_none (Nat.le_of_not_lt hlt)
      have hother : ¬ (qy = py ∧ qx = px) := fun h => hy h.1.symm
      rw [if_neg hy, if_neg hlt, if_neg hother, hnew]
      split_ifs <;> rfl

/-- A canvas grows just as far as a cell takes. -/
theorem sides_set (hp : p.Paintable) (k : Color) :
    (c.set p k).height = max c.height (p.y + 1) ∧ (c.set p k).width = max c.width (p.x + 1) := by
  rw [set, dif_pos hp]
  refine ⟨?_, rfl⟩
  rw [height, Array.size_modify, size_padTo, height]

theorem inside_of_get? (h : c.get? p = some k) : p.y < c.height ∧ p.x < c.width := by
  rw [get?] at h
  split at h
  · cases h
  · next row hrow =>
    obtain ⟨hy, rfl⟩ := Array.getElem?_eq_some_iff.mp hrow
    obtain ⟨hx, -⟩ := Array.getElem?_eq_some_iff.mp (Option.join_eq_some_iff.mp h)
    exact ⟨hy, hx.trans_le (c.row_le _ hy)⟩

theorem bounded (c : Canvas) : Bounded c.get? := fun _ _ h =>
  ⟨(inside_of_get? h).1.trans c.height_lt, (inside_of_get? h).2.trans c.width_lt⟩

theorem painted_set (hp : p.Paintable) (hnone : c.get? p = none) (k : Color) :
    Painted c.get? (c.set p k).get? p k where
  before := hnone
  after := by rw [get?_set hp, if_pos rfl]
  frame q hq := by rw [get?_set hp, if_neg hq]

/-! ### The finished picture -/

/-- In the finished picture a colour other than black stands where it was painted. -/
theorem get?_toGrid_eq_some_iff (hk : k ≠ .black) :
    c.toGrid.get? p = some k ↔ c.get? p = some k := by
  rw [get?_toGrid]
  constructor
  · intro h
    split at h
    · cases hget : c.get? p with
      | none =>
        rw [hget] at h
        exact absurd (Option.some.inj h).symm hk
      | some k' => rwa [hget] at h
    · cases h
  · intro h
    rw [if_pos (inside_of_get? h), h, Option.getD_some]

/-- A cell that was left empty or painted black stops the pointer in the finished picture. -/
theorem not_open_toGrid (h : ∀ k, c.get? p = some k → k = .black) : ¬ c.toGrid.Open p := by
  rintro ⟨hsome, hblack⟩
  rw [get?_toGrid] at hsome hblack
  split at hsome
  · next hin =>
    rw [if_pos hin] at hblack
    cases hget : c.get? p with
    | none => exact hblack (by rw [hget, Option.getD_none])
    | some k => exact hblack (by rw [hget, Option.getD_some, h k hget])
  · exact hsome rfl

/-- A region of a canvas is a region of the finished picture. -/
theorem fills_toGrid {b : Block} (h : b.Fills c.get?) (hb : b.color ≠ .black) :
    b.Fills c.toGrid.get? :=
  h.congr fun _ => get?_toGrid_eq_some_iff hb

end Canvas

namespace Canvas

variable {c c' : Canvas} {sets : List (Pos × Color)} {p : Pos} {k : Color}

/-! ### Painting many cells -/

/-- Paints cells one after another.  None if one of them cannot be painted. -/
def setAll? (c : Canvas) : List (Pos × Color) → Option Canvas
  | [] => some c
  | (p, k) :: sets => (c.set? p k).bind fun c => c.setAll? sets

/-- The colour that was painted last at a position, if any was. -/
def lastColor? (sets : List (Pos × Color)) (p : Pos) : Option Color :=
  (sets.reverse.find? fun s => s.1 = p).map Prod.snd

/-- One more than the greatest of some numbers, and zero if there are none. -/
def sideFor (numbers : List ℕ) : ℕ :=
  numbers.max?.elim 0 (· + 1)

theorem lastColor?_cons (s : Pos × Color) (sets : List (Pos × Color)) (p : Pos) :
    lastColor? (s :: sets) p =
      (lastColor? sets p).or (if p = s.1 then some s.2 else none) := by
  have hfind : [s].find? (fun s => s.1 = p) = if p = s.1 then some s else none := by
    simp only [List.find?_singleton, decide_eq_true_eq, eq_comm (a := p)]
  rw [lastColor?, List.reverse_cons, List.find?_append, hfind, lastColor?]
  cases sets.reverse.find? fun s => s.1 = p with
  | none => split <;> rfl
  | some s' => rfl

theorem sideFor_cons (n : ℕ) (numbers : List ℕ) :
    sideFor (n :: numbers) = max (n + 1) (sideFor numbers) := by
  rw [sideFor, List.max?_cons, Option.elim_some, sideFor]
  cases numbers.max? with
  | none => exact (Nat.max_zero _).symm
  | some m => exact (Nat.succ_max_succ n m).symm

theorem set?_eq_some_iff : c.set? p k = some c' ↔ p.Paintable ∧ c.set p k = c' := by
  rw [set?, Option.ite_none_right_eq_some, Option.some.injEq]

theorem exists_setAll?_iff (c : Canvas) (sets : List (Pos × Color)) :
    (∃ c', c.setAll? sets = some c') ↔ ∀ s ∈ sets, s.1.Paintable := by
  induction sets generalizing c with
  | nil => exact iff_of_true ⟨c, rfl⟩ fun s hs => absurd hs List.not_mem_nil
  | cons s sets ih =>
    rw [List.forall_mem_cons, setAll?, set?]
    split
    · next hp => rw [Option.bind_some, ih, and_iff_right hp]
    · next hp =>
      refine iff_of_false ?_ fun h => hp h.1
      rintro ⟨c', hc'⟩
      cases hc'

/-- A canvas shows what was painted last, and beside that what it showed before. -/
theorem get?_setAll? (h : c.setAll? sets = some c') (p : Pos) :
    c'.get? p = (lastColor? sets p).or (c.get? p) := by
  induction sets generalizing c with
  | nil =>
    obtain rfl := Option.some.inj h
    rfl
  | cons s sets ih =>
    obtain ⟨c₁, hset, hrest⟩ := Option.bind_eq_some_iff.mp h
    obtain ⟨hp, rfl⟩ := set?_eq_some_iff.mp hset
    rw [ih hrest, get?_set hp, lastColor?_cons, Option.or_assoc]
    split <;> rfl

/-- A canvas grows just as far as the cells take. -/
theorem sides_setAll? (h : c.setAll? sets = some c') :
    c'.height = max c.height (sideFor (sets.map fun s => s.1.y)) ∧
      c'.width = max c.width (sideFor (sets.map fun s => s.1.x)) := by
  induction sets generalizing c with
  | nil =>
    obtain rfl := Option.some.inj h
    exact ⟨(Nat.max_zero _).symm, (Nat.max_zero _).symm⟩
  | cons s sets ih =>
    obtain ⟨c₁, hset, hrest⟩ := Option.bind_eq_some_iff.mp h
    obtain ⟨hp, rfl⟩ := set?_eq_some_iff.mp hset
    obtain ⟨hheight, hwidth⟩ := ih hrest
    obtain ⟨hheight₁, hwidth₁⟩ := c.sides_set hp s.2
    rw [hheight, hwidth, hheight₁, hwidth₁, List.map_cons, List.map_cons, sideFor_cons,
      sideFor_cons, Nat.max_assoc, Nat.max_assoc]
    exact ⟨rfl, rfl⟩

/-! ### The rows of the finished picture -/

/-- A row lengthened with black to the width.  None if it is longer than that. -/
def fullRow? (width : ℕ) (row : Array (Option Color)) : Option (List Color) :=
  if row.size ≤ width then
    some (row.toList.map (fun k => k.getD .black) ++ List.replicate (width - row.size) .black)
  else
    none

/-- The finished picture, put together row by row.  None if a row is too long, or if the rows do not
fit the sides. -/
def toGrid? (c : Canvas) : Option Grid := do
  let rows ← c.rows.toList.mapM (fullRow? c.width)
  Grid.ofCells? c.width c.height rows.flatten.toArray

theorem fullRow?_eq {width : ℕ} {row : Array (Option Color)} (h : row.size ≤ width) :
    fullRow? width row = some ((List.range width).map fun x => row[x]?.join.getD .black) := by
  rw [fullRow?, if_pos h, Option.some.injEq]
  refine List.ext_getElem ?_ fun x hx hx' => ?_
  · rw [List.length_append, List.length_map, List.length_replicate, List.length_map,
      List.length_range, Array.length_toList]
    omega
  · rw [List.getElem_map, List.getElem_range, List.getElem_append]
    split
    · next hlt =>
      rw [List.length_map, Array.length_toList] at hlt
      rw [List.getElem_map, Array.getElem_toList, Array.getElem?_eq_getElem hlt, Option.join_some]
    · next hge =>
      rw [List.length_map, Array.length_toList] at hge
      rw [List.getElem_replicate, Array.getElem?_eq_none (Nat.le_of_not_lt hge), Option.join_none,
        Option.getD_none]

/-- **Putting the rows together never fails**, and gives the finished picture. -/
theorem toGrid?_eq (c : Canvas) : c.toGrid? = some c.toGrid := by
  have hrow : ∀ row ∈ c.rows.toList, fullRow? c.width row =
      some ((List.range c.width).map fun x => row[x]?.join.getD .black) := by
    intro row hmem
    obtain ⟨y, hy, rfl⟩ := Array.mem_iff_getElem.mp (Array.mem_toList_iff.mp hmem)
    exact fullRow?_eq (c.row_le y hy)
  have hrows : (c.rows.toList.map fun row =>
      (List.range c.width).map fun x => row[x]?.join.getD .black) =
      (List.range c.height).map fun y =>
        (List.range c.width).map fun x => (c.get? ⟨y, x⟩).getD .black := by
    refine List.ext_getElem ?_ fun y hy _ => ?_
    · rw [List.length_map, List.length_map, List.length_range, Array.length_toList, height]
    · have hy' : y < c.rows.size := by simpa using hy
      simp only [List.getElem_map, List.getElem_range, Array.getElem_toList, get?,
        Array.getElem?_eq_getElem hy']
  have hpixel : ∀ p, c.toGrid.Inside p → c.toGrid.get? p = some ((c.get? p).getD .black) := by
    intro p hp
    rw [get?_toGrid]
    exact if_pos hp
  rw [toGrid?, mapM_eq_some_map hrow, Option.bind_eq_bind, Option.bind_some, hrows]
  exact Grid.ofCells?_rows hpixel

/-! ### What has been painted -/

/-- **A canvas is a finite map with its bounding box.**  Cells can be painted one after another if and
only if each of them lies where a canvas that holds it can be held in memory, provided that there is
as much memory as the blocks of it need and no array is made larger than it has to be.  Then:

* each cell shows the colour that was painted there last, and none if nothing was;
* the height and the width are one more than the greatest row and the greatest column painted, and
  zero if nothing was;
* the rows of the finished picture can be put together, it has these sides, and each of its pixels is
  what the canvas shows there, or black. -/
theorem setAll?_finite_map (sets : List (Pos × Color)) :
    ((∃ c, empty.setAll? sets = some c) ↔ ∀ s ∈ sets, s.1.Paintable) ∧
    ∀ c, empty.setAll? sets = some c →
      (∀ p, c.get? p = lastColor? sets p) ∧
      (c.height = sideFor (sets.map fun s => s.1.y) ∧
        c.width = sideFor (sets.map fun s => s.1.x)) ∧
      (c.toGrid? = some c.toGrid ∧ c.toGrid.width = c.width ∧ c.toGrid.height = c.height) ∧
      ∀ p, p.y < c.height → p.x < c.width →
        c.toGrid.get? p = some ((c.get? p).getD .black) := by
  refine ⟨empty.exists_setAll?_iff sets, fun c hc => ?_⟩
  obtain ⟨hheight, hwidth⟩ := sides_setAll? hc
  refine ⟨fun p => ?_, ⟨?_, ?_⟩, ⟨c.toGrid?_eq, rfl, rfl⟩, fun p hy hx => ?_⟩
  · rw [get?_setAll? hc, get?_empty, Option.or_none]
  · exact hheight.trans (Nat.zero_max _)
  · exact hwidth.trans (Nat.zero_max _)
  · rw [get?_toGrid, if_pos ⟨hy, hx⟩]

/-- Four cells, the lowest one painted first and once more in the end. -/
def outOfOrder : List (Pos × Color) :=
  [(⟨2, 1⟩, .white), (⟨0, 3⟩, .shade (.ofInts 1 4)), (⟨1, 0⟩, .black), (⟨2, 1⟩, .shade (.ofInts 0 2))]

theorem setAll?_finite_map_outOfOrder :
    ∃ c, empty.setAll? outOfOrder = some c ∧ c.get? ⟨2, 1⟩ = some (.shade (.ofInts 0 2)) ∧
      c.get? ⟨2, 3⟩ = none ∧ c.height = 3 ∧ c.width = 4 ∧ c.toGrid? = some c.toGrid ∧
      c.toGrid.get? ⟨2, 3⟩ = some .black := by
  obtain ⟨hexists, hrecord⟩ := setAll?_finite_map outOfOrder
  obtain ⟨c, hc⟩ := hexists.mpr (by decide)
  obtain ⟨hget, ⟨hheight, hwidth⟩, ⟨hgrid, -, -⟩, hpixel⟩ := hrecord c hc
  have hheight' : c.height = 3 := hheight.trans (by decide)
  have hwidth' : c.width = 4 := hwidth.trans (by decide)
  have hcorner : c.get? ⟨2, 3⟩ = none := (hget _).trans (by decide)
  refine ⟨c, hc, (hget _).trans (by decide), hcorner, hheight', hwidth', hgrid, ?_⟩
  rw [hpixel ⟨2, 3⟩ (by rw [hheight']; decide) (by rw [hwidth']; decide), hcorner, Option.getD_none]

/-- One cell in a row that has an address. -/
def farDown : List (Pos × Color) :=
  [(⟨2 ^ 62, 0⟩, .shade (.ofInts 0 1))]

/-- **Not every cell that has an address can be painted.**  There is still an address behind this one in
both directions, but no block of memory for as many rows, so that the cell does not show what was to be
painted there. -/
theorem not_setAll?_farDown :
    (∀ s ∈ farDown, s.1.y + 1 < Pos.limit ∧ s.1.x + 1 < Pos.limit) ∧
      ¬ ∃ c, empty.setAll? farDown = some c ∧ ∀ p, c.get? p = lastColor? farDown p := by
  refine ⟨by decide, ?_⟩
  rintro ⟨c, hc, -⟩
  have hpaintable := (empty.exists_setAll?_iff farDown).mp ⟨c, hc⟩ _ List.mem_cons_self
  exact absurd hpaintable (by decide)

end Canvas

end Piet
