import Piet.Color.Basic
import Piet.Plane.Position

/-!
# Pictures

A picture is a rectangle of colours, held row by row.  Its sides are in the range of
coordinates, so that no step between two of its pixels is lost at the end of that range.

* `Grid.get?` reads a pixel; `Grid.isSome_get?` says that it answers exactly inside the
  rectangle.
* `Grid.ofFn` builds a picture pixel by pixel and `Grid.get?_ofFn` reads it back.
* `Grid.set?` changes one pixel and no other (`Grid.get?_of_set?`).
* `Grid.ext_get?`: pictures of equal sides that answer alike are equal.
-/

namespace Piet

/-- A rectangle of colours, row by row from the top and each row from the left. -/
structure Grid where
  width : Nat
  height : Nat
  cells : Array Color
  size_cells : cells.size = width * height
  width_lt : width < Pos.limit
  height_lt : height < Pos.limit
deriving DecidableEq

namespace Grid

/-- The given cells as a picture, if they are as many as its sides ask for. -/
def ofCells? (width height : Nat) (cells : Array Color) : Option Grid :=
  if h : cells.size = width * height ∧ width < Pos.limit ∧ height < Pos.limit then
    some ⟨width, height, cells, h.1, h.2.1, h.2.2⟩
  else
    none

/-- A picture of one colour. -/
def filled (width height : Nat) (color : Color) (hw : width < Pos.limit)
    (hh : height < Pos.limit) : Grid :=
  ⟨width, height, Array.replicate (width * height) color, Array.size_replicate, hw, hh⟩

/-- The picture that has the colour `f p` at each of its positions `p`. -/
def ofFn (width height : Nat) (hw : width < Pos.limit) (hh : height < Pos.limit)
    (f : Pos → Color) : Grid :=
  ⟨width, height, Array.ofFn fun i : Fin (width * height) => f ⟨i / width, i % width⟩,
    Array.size_ofFn, hw, hh⟩

/-- Whether a picture has no pixels. -/
def isEmpty (g : Grid) : Bool :=
  g.cells.isEmpty

/-- A position lies inside a picture. -/
def Inside (g : Grid) (p : Pos) : Prop :=
  p.y < g.height ∧ p.x < g.width

instance (g : Grid) (p : Pos) : Decidable (g.Inside p) :=
  inferInstanceAs (Decidable (_ ∧ _))

/-- The place of a position among the cells. -/
def index (g : Grid) (p : Pos) : Nat :=
  p.y * g.width + p.x

theorem index_lt {g : Grid} {p : Pos} (h : g.Inside p) : g.index p < g.cells.size := by
  rw [g.size_cells, Nat.mul_comm]
  calc p.y * g.width + p.x < p.y * g.width + g.width := Nat.add_lt_add_left h.2 _
    _ = (p.y + 1) * g.width := (Nat.succ_mul _ _).symm
    _ ≤ g.height * g.width := Nat.mul_le_mul_right _ h.1

/-- The colour of a pixel, if the position is inside. -/
def get? (g : Grid) (p : Pos) : Option Color :=
  if h : g.Inside p then
    have := index_lt h
    some g.cells[g.index p]
  else
    none

/-- The picture with one pixel changed, if the position is inside. -/
def set? (g : Grid) (p : Pos) (color : Color) : Option Grid :=
  if h : g.Inside p then
    have := index_lt h
    some { g with
      cells := g.cells.set (g.index p) color
      size_cells := (Array.size_set this).trans g.size_cells }
  else
    none

/-- The rows from the top, as long as there are pixels. -/
def rows (g : Grid) : List (List Color) :=
  if g.isEmpty then
    []
  else
    (List.range g.height).map fun y =>
      (g.cells.extract (y * g.width) (y * g.width + g.width)).toList

/-! ### Reading pixels -/

@[simp]
theorem isSome_get? {g : Grid} {p : Pos} : (g.get? p).isSome ↔ g.Inside p := by
  unfold get?
  split <;> simp_all

theorem get?_eq_none_iff {g : Grid} {p : Pos} : g.get? p = none ↔ ¬ g.Inside p := by
  rw [← isSome_get?, Option.not_isSome_iff_eq_none]

theorem get?_eq_some_getD {g : Grid} {p : Pos} (h : g.Inside p) :
    g.get? p = some ((g.get? p).getD .black) := by
  obtain ⟨k, hk⟩ := Option.isSome_iff_exists.mp (isSome_get?.mpr h)
  rw [hk, Option.getD_some]

theorem get?_eq_getElem? {g : Grid} {p : Pos} (h : g.Inside p) :
    g.get? p = g.cells[g.index p]? := by
  rw [get?, dif_pos h, Array.getElem?_eq_getElem]

/-- Different positions inside have different places. -/
theorem index_injOn {g : Grid} {p q : Pos} (hp : g.Inside p) (hq : g.Inside q)
    (h : g.index p = g.index q) : p = q := by
  obtain ⟨py, px⟩ := p
  obtain ⟨qy, qx⟩ := q
  simp only [index, Inside] at *
  have hdiv := congrArg (· / g.width) h
  have hmod := congrArg (· % g.width) h
  have hpos : 0 < g.width := by omega
  simp only [Nat.mul_comm _ g.width, Nat.mul_add_div hpos, Nat.mul_add_mod, Nat.div_eq_of_lt hp.2,
    Nat.div_eq_of_lt hq.2, Nat.mod_eq_of_lt hp.2, Nat.mod_eq_of_lt hq.2, Nat.add_zero] at hdiv hmod
  rw [hdiv, hmod]

@[simp]
theorem get?_ofFn {width height : Nat} {hw : width < Pos.limit} {hh : height < Pos.limit}
    {f : Pos → Color} {p : Pos} :
    (ofFn width height hw hh f).get? p =
      if p.y < height ∧ p.x < width then some (f p) else none := by
  by_cases h : p.y < height ∧ p.x < width
  · have hin : (ofFn width height hw hh f).Inside p := h
    have hpos : 0 < width := by omega
    rw [get?, dif_pos hin, if_pos h]
    simp only [ofFn, index, Array.getElem_ofFn, Option.some.injEq]
    rw [Nat.mul_comm, Nat.mul_add_div hpos, Nat.mul_add_mod, Nat.div_eq_of_lt h.2,
      Nat.mod_eq_of_lt h.2, Nat.add_zero]
  · have hout : ¬ (ofFn width height hw hh f).Inside p := h
    rw [get?, dif_neg hout, if_neg h]

/-- A picture of what is shown inside its sides, and only there, shows it. -/
theorem get?_ofFn_getD {width height : Nat} {hw : width < Pos.limit} {hh : height < Pos.limit}
    {f : Pos → Option Color} {p : Pos} (hf : (f p).isSome ↔ p.y < height ∧ p.x < width) :
    (ofFn width height hw hh fun p => (f p).getD .black).get? p = f p := by
  rw [get?_ofFn]
  by_cases h : p.y < height ∧ p.x < width
  · obtain ⟨k, hk⟩ := Option.isSome_iff_exists.mp (hf.mpr h)
    rw [if_pos h, hk, Option.getD_some]
  · rw [if_neg h, Option.not_isSome_iff_eq_none.mp (mt hf.mp h)]

@[simp]
theorem get?_filled {width height : Nat} {hw : width < Pos.limit} {hh : height < Pos.limit}
    {color : Color} {p : Pos} :
    (filled width height color hw hh).get? p =
      if p.y < height ∧ p.x < width then some color else none := by
  unfold get? Inside filled
  split <;> simp_all

theorem get?_of_set? {g g' : Grid} {p : Pos} {color : Color} (h : g.set? p color = some g')
    (q : Pos) : g'.get? q = if q = p then some color else g.get? q := by
  unfold set? at h
  split at h
  · next hp =>
    have hin : g'.Inside q ↔ g.Inside q := by cases h; exact Iff.rfl
    by_cases hq : g.Inside q
    · rw [get?_eq_getElem? (hin.mpr hq), get?_eq_getElem? hq]
      cases h
      by_cases hqp : q = p
      · subst hqp
        simp [index]
      · have hne : ¬ p.y * g.width + p.x = q.y * g.width + q.x := fun he =>
          hqp (index_injOn hq hp he.symm)
        rw [if_neg hqp]
        simp [index, hne]
    · rw [get?_eq_none_iff.mpr hq, get?_eq_none_iff.mpr (mt hin.mp hq), if_neg]
      rintro rfl
      exact hq hp
  · cases h

/-- A picture is known by its sides and its pixels. -/
theorem ext_get? {g h : Grid} (hw : g.width = h.width) (hh : g.height = h.height)
    (hget : ∀ p, g.get? p = h.get? p) : g = h := by
  suffices hc : g.cells = h.cells by
    cases g; cases h; simp_all
  have hsize : g.cells.size = h.cells.size := by rw [g.size_cells, h.size_cells, hw, hh]
  refine Array.ext hsize fun i hi hi' => ?_
  have hpos : 0 < g.width := Nat.pos_of_lt_mul_right (g.size_cells ▸ hi)
  have hin : g.Inside ⟨i / g.width, i % g.width⟩ := by
    refine ⟨?_, Nat.mod_lt _ hpos⟩
    rw [g.size_cells] at hi
    exact Nat.div_lt_of_lt_mul hi
  have hidx : g.index ⟨i / g.width, i % g.width⟩ = i := by
    rw [index, Nat.mul_comm]
    exact Nat.div_add_mod i g.width
  have hin' : h.Inside ⟨i / g.width, i % g.width⟩ := by
    simpa only [Inside, hw, hh] using hin
  have hidx' : h.index ⟨i / g.width, i % g.width⟩ = i := by
    simpa only [index, hw] using hidx
  have := hget ⟨i / g.width, i % g.width⟩
  rw [get?_eq_getElem? hin, get?_eq_getElem? hin', hidx, hidx', Array.getElem?_eq_getElem hi,
    Array.getElem?_eq_getElem hi'] at this
  exact Option.some.inj this

end Grid

end Piet
