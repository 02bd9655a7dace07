import Piet.Proofs.Paint.Compose
import Piet.Proofs.Paint.Kept

/-!
# The sides of a composed picture

A canvas is never larger than its painted cells take (`Canvas.Snug`), since painting a cell keeps it
so and everything that a pen does is painting cells one by one (`Pen.Kept.paintLanes`).  So the
sides of a picture follow from where its cells are.

The lanes keep to their width and take two rows each, but the dead end behind the last lane takes a
row for itself and one for the wall below it, which is one row more than were planned
(`Pen.InLane.spans_paintLanes`).

* `compose_sides`: no picture is too wide, but one of 8192 lanes is one row too high.
* `compose_too_high`: there is such a picture.
-/

namespace Piet

/-! ### The sides of a canvas -/

namespace Canvas

variable {c : Canvas} {p : Pos} {width low : ℕ}

/-- A property of canvases that painting a cell keeps. -/
def Kept (P : Canvas → Prop) : Prop :=
  ∀ c p k, P c → p.Paintable → P (c.set p k)

/-- A canvas is no larger than its painted cells take. -/
structure Snug (c : Canvas) : Prop where
  height_le : ∀ n, (∀ q, c.get? q ≠ none → q.y < n) → c.height ≤ n
  width_le : ∀ n, (∀ q, c.get? q ≠ none → q.x < n) → c.width ≤ n

/-- Everything has been painted left of a column, and something in the lowest row. -/
structure Spans (width low : ℕ) (c : Canvas) : Prop where
  within : ∀ q, c.get? q ≠ none → q.x < width ∧ q.y ≤ low
  lowest : ∃ q, c.get? q ≠ none ∧ q.y = low

theorem snug_empty : empty.Snug :=
  ⟨fun n _ => n.zero_le, fun n _ => n.zero_le⟩

/-- What has been painted stays painted. -/
theorem kept_painted (q : Pos) : Kept fun c => c.get? q ≠ none := by
  intro c p k hq hp
  by_cases hqp : q = p
  · rw [hqp, get?_set hp, if_pos rfl]
    exact Option.some_ne_none k
  · rwa [get?_set hp, if_neg hqp]

theorem kept_snug : Kept Snug := by
  intro c p k hc hp
  obtain ⟨hheight, hwidth⟩ := c.sides_set hp k
  have hset : (c.set p k).get? p ≠ none := by
    rw [get?_set hp, if_pos rfl]
    exact Option.some_ne_none k
  have hkept : ∀ q, c.get? q ≠ none → (c.set p k).get? q ≠ none := fun q hq =>
    kept_painted q c p k hq hp
  -- What bounds the cells painted now bounds those painted before, and the new one.
  refine ⟨fun n hn => ?_, fun n hn => ?_⟩
  · rw [hheight]
    exact Nat.max_le.mpr ⟨hc.height_le n fun q hq => hn q (hkept q hq), hn p hset⟩
  · rw [hwidth]
    exact Nat.max_le.mpr ⟨hc.width_le n fun q hq => hn q (hkept q hq), hn p hset⟩

theorem Snug.sides (h : c.Snug) (hspans : c.Spans width low) :
    c.width ≤ width ∧ c.height = low + 1 := by
  obtain ⟨hwithin, q, hq, rfl⟩ := hspans
  obtain ⟨k, hk⟩ := Option.ne_none_iff_exists'.mp hq
  refine ⟨h.width_le _ fun r hr => (hwithin r hr).1, Nat.le_antisymm ?_ ?_⟩
  · exact h.height_le _ fun r hr => Nat.lt_succ_of_le (hwithin r hr).2
  · exact (inside_of_get? hk).1

end Canvas

/-- What painting a cell keeps of a canvas is kept of the canvas of a pen. -/
theorem Canvas.Kept.pen {P : Canvas → Prop} (hP : Canvas.Kept P) :
    Pen.Kept fun pen => P pen.canvas := by
  intro pen ink p h hfree
  rw [Pen.canvas_lay]
  exact hP _ _ _ h hfree.paintable

/-! ### The cells of the dead end -/

namespace DeadEnd.Site

variable {a s : Direction} {entry c : Pos}

/-- The cells take up two lines of three. -/
theorem reach_le (site : DeadEnd.Site entry a s) (has : a.Across s) (hc : c ∈ site.cells) :
    (a.reach entry ≤ a.reach c ∧ a.reach c ≤ a.reach entry + 2) ∧
      s.reach entry ≤ s.reach c ∧ s.reach c ≤ s.reach entry + 1 := by
  obtain ⟨h1, h2, h3, h4, h5⟩ := site.reach_cells has
  revert c
  rw [forall_cells]
  refine ⟨?_, ?_, ?_, ?_, ?_⟩ <;> omega

end DeadEnd.Site

namespace Pen

open Compose (heading)
open Payload (laneStrokes)

variable {pen pen' : Pen} {input : Array UInt8} {n width : ℕ} {rightward keyed : Bool}
  {lanes : List (List UInt8)} {ink : Ink} {p q : Pos} {ps : List Pos}

theorem painted_paint (h : pen.paint ink p = (pen', none)) :
    pen'.canvas.get? q ≠ none ↔ q = p ∨ pen.canvas.get? q ≠ none := by
  obtain ⟨hfree, rfl⟩ := paint_eq_iff.mp h
  by_cases hqp : q = p
  · subst hqp
    simp [(painted_lay hfree).after]
  · rw [(painted_lay hfree).frame q hqp]
    simp [hqp]

theorem painted_paintAll (h : pen.paintAll ink ps = (pen', none)) :
    pen'.canvas.get? q ≠ none ↔ q ∈ ps ∨ pen.canvas.get? q ≠ none := by
  induction ps generalizing pen with
  | nil =>
    obtain rfl := (Prod.mk.inj h).1
    simp
  | cons p ps ih =>
    obtain ⟨pen₁, hpaint, hrest⟩ := goOn_eq_none h
    rw [ih hrest, painted_paint hpaint, List.mem_cons, or_left_comm, or_assoc]

theorem painted_paintWalls (h : pen.paintWalls ps = (pen', none)) :
    pen'.canvas.get? q ≠ none ↔ q ∈ ps ∨ pen.canvas.get? q ≠ none := by
  induction ps generalizing pen with
  | nil =>
    obtain rfl := (Prod.mk.inj h).1
    simp
  | cons p ps ih =>
    rw [paintWalls_eq_goOn] at h
    split at h
    · next hsome =>
      have hp : q = p → pen.canvas.get? q ≠ none := by
        rintro rfl
        exact Option.isSome_iff_ne_none.mp hsome
      rw [ih h, List.mem_cons, or_assoc, or_left_comm, or_iff_right_of_imp hp]
    · obtain ⟨pen₁, hpaint, hrest⟩ := goOn_eq_none h
      rw [ih hrest, painted_paint hpaint, List.mem_cons, or_left_comm, or_assoc]

/-- What closing a program has painted. -/
theorem painted_close {b : Bearing} (h : pen.close b = (pen', none)) :
    ∃ entry deadEnd, pen.tip.step pen.shadow.dp = some entry ∧
      DeadEnd.behind? entry pen.shadow.dp (pen.shadow.dp.rotate b.turns) = some deadEnd ∧
      ∀ q, pen'.canvas.get? q ≠ none ↔
        q ∈ deadEnd.walls ∨ q ∈ deadEnd.cells ∨ q = entry ∨ pen.canvas.get? q ≠ none := by
  obtain ⟨pen₁, deadEnd, pen₂, hadvance, hbehind, -, hcells, hwalls⟩ := close_eq_iff.mp h
  obtain ⟨entry, hstep, hfree, rfl⟩ := exists_of_advance hadvance
  refine ⟨entry, deadEnd, hstep, hbehind, fun q => ?_⟩
  rw [painted_paintWalls hwalls, painted_paintAll hcells, painted_paint (paint_eq hfree)]

/-! ### The extent of the lanes -/

/-- The white cell and those of the dead end behind it lie in the row of the tip and the one below,
and none of them in the last column. -/
theorem InLane.cells_within (h : InLane input n width rightward pen)
    (hspare : 4 ≤ pen.spare width rightward) {entry : Pos}
    (hstep : pen.tip.step (heading rightward) = some entry)
    (site : DeadEnd.Site entry (heading rightward) .down) {c : Pos}
    (hc : c = entry ∨ c ∈ site.cells) : c.x + 1 < width ∧ c.y ≤ pen.tip.y + 1 := by
  have has : (heading rightward).Across .down := Compose.down_across_heading rightward
  have hahead := Pos.reach_step hstep
  have hrow := Pos.reach_step_across hstep has
  obtain ⟨⟨hlo, hhi⟩, -, hdown⟩ : ((heading rightward).reach entry ≤ (heading rightward).reach c ∧
      (heading rightward).reach c ≤ (heading rightward).reach entry + 2) ∧
      Direction.down.reach entry ≤ Direction.down.reach c ∧
      Direction.down.reach c ≤ Direction.down.reach entry + 1 := by
    rcases hc with rfl | hc
    · omega
    · exact site.reach_le has hc
  rw [hrow] at hdown
  rw [hahead] at hlo hhi
  have hx := h.within.1
  cases rightward with
  | true =>
    simp only [heading, spare, if_true, Direction.reach] at hlo hhi hdown hspare
    omega
  | false =>
    simp only [heading, Bool.false_eq_true, if_false, Direction.reach] at hlo hhi hdown
    omega

/-- **The dead end takes two more rows**, the second of them for the wall below it. -/
theorem InLane.spans_close (h : InLane input n width rightward pen)
    (hspare : 4 ≤ pen.spare width rightward) (hheight : pen.tip.y + 5 < Canvas.maxHeight)
    (hclose : pen.close (if rightward then .right else .left) = (pen', none)) :
    pen'.canvas.Spans width (pen.tip.y + 2) := by
  obtain ⟨hx, hold⟩ := h.within
  have hlimit : Canvas.maxHeight < Pos.limit := by decide
  have has : (heading rightward).Across .down := Compose.down_across_heading rightward
  obtain ⟨entry, deadEnd, hstep, hbehind, hpainted⟩ := painted_close hclose
  rw [h.dp, Compose.rotate_heading_close] at hbehind
  rw [h.dp] at hstep
  obtain ⟨site, rfl⟩ := DeadEnd.exists_site_of_behind? hbehind
  refine ⟨fun q hq => ?_, ?_⟩
  · rcases (hpainted q).mp hq with hq | hq | hq | hq
    · obtain ⟨-, c, hc, d, hcq⟩ := site.exists_step_of_mem_walls has hq
      have hle := Pos.step_le hcq
      have hcell := h.cells_within hspare hstep site (.inr hc)
      exact ⟨by omega, by omega⟩
    · have hcell := h.cells_within hspare hstep site (.inr hq)
      exact ⟨by omega, by omega⟩
    · have hcell := h.cells_within hspare hstep site (.inl hq)
      exact ⟨by omega, by omega⟩
    · have hold := hold q hq
      exact ⟨hold.1, by omega⟩
  · -- The wall below the middle cell stands in the lowest row.
    obtain ⟨-, -, ⟨-, hdown⟩, -⟩ := site.reach_cells has
    have hrow := Pos.reach_step_across hstep has
    simp only [Direction.reach] at hdown hrow
    have hwall : site.sideNear.step .down = some ⟨site.sideNear.y + 1, site.sideNear.x⟩ :=
      if_pos (by omega)
    have hmem : (⟨site.sideNear.y + 1, site.sideNear.x⟩ : Pos) ∈ site.walls := by
      simp [DeadEnd.Site.mem_walls, hwall]
    refine ⟨_, (hpainted _).mpr (.inl hmem), ?_⟩
    dsimp only
    omega

/-- **Lanes take two rows each, and one more below the last.** -/
theorem InLane.spans_paintLanes (h : InLane input n width rightward pen)
    (hfits : pen.Fits width rightward keyed lanes) (hne : lanes ≠ [])
    (hpaint : Compose.paintLanes width pen rightward (lanes.map (laneStrokes keyed)) =
      (pen', none)) :
    pen'.canvas.Spans width (pen.tip.y + 2 * lanes.length) := by
  obtain ⟨-, hheight⟩ := maxSide_le
  have hlow := hfits.low
  obtain ⟨pen₁, side, hlanes, h₁, -, hrow₁, hspare₁⟩ := h.exists_close hfits hne
  -- The dead end starts in the row of the last lane.
  have hspans := h₁.spans_close (by omega) (by omega) (hlanes.symm.trans hpaint)
  rwa [hrow₁] at hspans

end Pen

/-! ### The room that bytes take -/

namespace Payload

/-- No byte takes more than 280 cells. -/
theorem totalCount_byteStrokes_le (keyed : Bool) (b : UInt8) :
    Stroke.totalCount (byteStrokes keyed b) ≤ 280 := by
  have hb : b.toNat < 256 := b.toNat_lt
  have hpush : Stroke.totalCount (pushStrokes b) ≤ 256 := by
    rw [pushStrokes]
    split
    · decide
    · simp only [Stroke.totalCount_cons, Stroke.totalCount_nil]
      omega
  have hunmask : Stroke.totalCount (if keyed then unmaskStrokes else []) ≤ 21 := by
    cases keyed <;> decide
  simp only [byteStrokes, Stroke.totalCount_append, Stroke.totalCount_cons, Stroke.totalCount_nil]
  omega

theorem totalCount_laneStrokes_le (keyed : Bool) (bytes : List UInt8) :
    Stroke.totalCount (laneStrokes keyed bytes) ≤ 280 * bytes.length := by
  induction bytes with
  | nil => exact Nat.le_refl 0
  | cons b bytes ih =>
    have hb := totalCount_byteStrokes_le keyed b
    rw [laneStrokes] at ih ⊢
    rw [List.map_cons, List.flatten_cons, Stroke.totalCount_append, List.length_cons]
    omega

end Payload

theorem length_le_of_mem_piecesFor {α : Type} {size fuel : ℕ} {l piece : List α}
    (h : piece ∈ piecesFor size fuel l) : piece.length ≤ size := by
  induction fuel generalizing l with
  | zero => cases h
  | succ fuel ih =>
    cases l with
    | nil => cases h
    | cons a l =>
      rw [piecesFor_cons] at h
      rcases List.mem_cons.mp h with rfl | h
      · exact List.length_take_le size (a :: l)
      · exact ih h

theorem Pen.snug_start (input : Array UInt8) : (Pen.start input).canvas.Snug :=
  Canvas.kept_snug .empty .origin (.shade (.ofInts 0 0)) Canvas.snug_empty (by decide)

namespace Compose

open Payload (laneStrokes masked)

variable {data : Array UInt8} {key : Option (Array UInt8)} {cols : ℕ} {c : Composition}

theorem length_le_of_mem_byteLanes (hcols : 0 < cols) {bytes : List UInt8}
    (h : bytes ∈ byteLanes data key cols) : bytes.length ≤ cols := by
  have hpiece : ∀ piece ∈ pieces (max cols 1) (masked data key), piece.length ≤ cols := by
    intro piece hmem
    rw [Nat.max_eq_left hcols] at hmem
    exact length_le_of_mem_piecesFor hmem
  rw [byteLanes] at h
  split at h
  · rw [List.mem_singleton.mp h]
    exact Nat.zero_le cols
  · exact hpiece bytes h

theorem widthFor_le (hcols : 0 < cols) : widthFor (lanes data key cols) ≤ 9 + 280 * cols := by
  have hlane : ∀ m ∈ (lanes data key cols).map Stroke.totalCount, m ≤ 280 * cols := by
    intro m hm
    rw [lanes_eq, List.map_map, List.mem_map] at hm
    obtain ⟨bytes, hbytes, rfl⟩ := hm
    exact (Payload.totalCount_laneStrokes_le _ bytes).trans
      (Nat.mul_le_mul_left 280 (length_le_of_mem_byteLanes hcols hbytes))
  have hne : (lanes data key cols).map Stroke.totalCount ≠ [] := by
    rw [lanes_eq]
    simpa using byteLanes_ne_nil data key cols
  have hmax := hlane _ (List.max_mem hne)
  rw [widthFor, List.foldl_max_eq_max hne, turnLength]
  omega

theorem heightFor_eq (hcols : 0 < cols) :
    heightFor (lanes data key cols) = 2 * lanesFor data.size cols := by
  rw [heightFor, length_lanes data key hcols]

/-! ### The sides of a picture -/

/-- The picture of a composition is what a pen has painted. -/
theorem exists_pen (h : compose data key cols = .ok c) :
    ∃ pen, paintLanes (widthFor (lanes data key cols)) (.start (Payload.feed data key)) true
        (lanes data key cols) = (pen, none) ∧ c.grid = pen.canvas.toGrid := by
  obtain ⟨hkey, hfits⟩ := fits_of_compose h
  rw [compose, if_neg hkey] at h
  replace h := (if_neg hfits).symm.trans h
  split at h
  · cases h
  · next pen hpaint =>
    split at h
    · obtain rfl := Except.ok.inj h
      exact ⟨pen, hpaint, rfl⟩
    · cases h

/-- The picture of a composition is a canvas that is no larger than what the lanes and their dead
end take. -/
theorem exists_canvas (h : compose data key cols = .ok c) :
    ∃ canvas : Canvas, c.grid = canvas.toGrid ∧ canvas.Snug ∧
      canvas.Spans (widthFor (lanes data key cols)) (heightFor (lanes data key cols)) := by
  obtain ⟨-, hfits⟩ := fits_of_compose h
  obtain ⟨hlane, hlanesFit⟩ := start_fits hfits (Payload.feed data key)
  obtain ⟨pen, hpaint, hgrid⟩ := exists_pen h
  have hsnug := Canvas.kept_snug.pen.paintLanes (Pen.snug_start (Payload.feed data key))
    (widthFor (lanes data key cols)) true (lanes data key cols)
  rw [hpaint] at hsnug
  have hlanes := lanes_eq data key cols
  have hspans : pen.canvas.Spans (widthFor (lanes data key cols))
      ((Pen.start (Payload.feed data key)).tip.y + 2 * (byteLanes data key cols).length) := by
    refine hlane.spans_paintLanes hlanesFit (byteLanes_ne_nil data key cols) ?_
    rw [← hlanes]
    exact hpaint
  have htop : (Pen.start (Payload.feed data key)).tip.y = 0 := rfl
  rw [htop, Nat.zero_add] at hspans
  refine ⟨pen.canvas, hgrid, hsnug, ?_⟩
  rw [heightFor, hlanes, List.length_map, ← hlanes]
  exact hspans

/-- A picture is no wider than planned, but one row higher. -/
theorem sides_eq (h : compose data key cols = .ok c) :
    c.grid.width ≤ widthFor (lanes data key cols) ∧
      c.grid.height = heightFor (lanes data key cols) + 1 := by
  obtain ⟨canvas, hgrid, hsnug, hspans⟩ := exists_canvas h
  rw [hgrid]
  exact hsnug.sides hspans

theorem width_pos (h : compose data key cols = .ok c) : 0 < c.grid.width := by
  obtain ⟨canvas, hgrid, -, -, q, hq, -⟩ := exists_canvas h
  obtain ⟨k, hk⟩ := Option.ne_none_iff_exists'.mp hq
  rw [hgrid]
  exact Nat.zero_lt_of_lt (Canvas.inside_of_get? hk).2

/-- Up to 58 bytes in a lane fit into every picture. -/
theorem not_overfull (hcols : 0 < cols) (hsmall : cols ≤ 58)
    (hlanes : lanesFor data.size cols ≤ 8192) : ¬ Overfull data key cols := by
  have hwidth : widthFor (lanes data key cols) ≤ 9 + 280 * cols := widthFor_le hcols
  have hheight : heightFor (lanes data key cols) = 2 * lanesFor data.size cols :=
    heightFor_eq hcols
  rw [Overfull, maxSide, hheight]
  omega

end Compose

variable {data : Array UInt8} {key : Option (Array UInt8)} {cols : ℕ} {c : Composition}

/-- **The sides of a composed picture.**  No picture is wider than a side may be.  Its height is
two rows for every lane and the wall below the last one, which is not planned for: a picture is
too high if its lanes alone take all the rows that it may have, and then by one row. -/
theorem compose_sides (h : compose data key cols = .ok c) :
    c.grid.width ≤ Compose.maxSide ∧
      c.grid.height = 2 * Compose.lanesFor data.size cols + 1 ∧
      (Compose.maxSide < c.grid.height ↔ Compose.lanesFor data.size cols = 8192) := by
  obtain ⟨-, hfits⟩ := fits_of_compose h
  obtain ⟨hcols, hwidth, hheight⟩ : cols ≠ 0 ∧
      Compose.widthFor (Compose.lanes data key cols) ≤ Compose.maxSide ∧
      Compose.heightFor (Compose.lanes data key cols) ≤ Compose.maxSide := by
    simpa [Compose.Overfull, not_or] using hfits
  have hlanes : Compose.heightFor (Compose.lanes data key cols) =
      2 * Compose.lanesFor data.size cols := Compose.heightFor_eq (Nat.pos_of_ne_zero hcols)
  obtain ⟨hgridWidth, hgridHeight⟩ := Compose.sides_eq h
  rw [hgridHeight, hlanes]
  rw [hlanes] at hheight
  -- What is checked is even, as the limit is, so only the greatest height can be exceeded.
  refine ⟨hgridWidth.trans hwidth, rfl, ?_⟩
  rw [Compose.maxSide] at hheight ⊢
  omega

theorem compose_sides_one_byte : ∃ c, compose #[1] none 3 = .ok c ∧
    c.grid.width ≤ Compose.maxSide ∧ c.grid.height = 3 := by
  have hok : (compose #[1] none 3).isOk = true := by decide +kernel
  cases hcompose : compose #[1] none 3 with
  | error e =>
    rw [hcompose] at hok
    cases hok
  | ok c =>
    obtain ⟨hwidth, hheight, -⟩ := compose_sides hcompose
    exact ⟨c, rfl, hwidth, hheight⟩

/-- **A picture can be too high**: 8192 lanes of one byte each are composed. -/
theorem compose_too_high :
    ∃ c, compose (Array.replicate 8192 1) none 1 = .ok c ∧ Compose.maxSide < c.grid.height := by
  have hlanes : Compose.lanesFor (Array.replicate 8192 (1 : UInt8)).size 1 = 8192 := by
    rw [Array.size_replicate]
    decide
  have hfits : ¬ Compose.Overfull (Array.replicate 8192 1) none 1 :=
    Compose.not_overfull Nat.one_pos (by decide) hlanes.le
  obtain ⟨c, hcompose, -⟩ := compose_of_fits (Option.some_ne_none _).symm hfits
  refine ⟨c, hcompose, ?_⟩
  obtain ⟨-, hheight⟩ := Compose.sides_eq hcompose
  rw [hheight, Compose.heightFor_eq Nat.one_pos, hlanes]
  decide

end Piet
