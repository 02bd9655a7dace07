import Piet.Proofs.Paint.Extent

/-!
# How far a picture has come

A picture is painted lane by lane.  Behind every lane but the last, the pen is at the outer end of
the row two below, its machine has printed the bytes of the lanes so far, and nothing has been
painted further down or outside the width of the picture (`Pen.Turned`).  The turns reach the edge
of the picture, so it is as wide as planned (`Compose.width_of_turned`), unless there is only one
lane, which is followed by the dead end at once (`Compose.width_of_single`).

* `compose_lane_by_lane`: so a picture that can be laid out is composed, with these sides.
-/

namespace Piet

open Payload (laneStrokes masked)

/-! ### Behind a turn -/

/-- Where a pen is behind a lane and its turn, and what has been done until then. -/
structure Pen.Turned (data : Array UInt8) (key : Option (Array UInt8)) (cols width idx : ℕ)
    (pen : Pen) : Prop where
  tip : pen.tip = ⟨2 * (idx + 1), if idx % 2 = 0 then width - 1 else 0⟩
  dp : pen.shadow.dp = if idx % 2 = 0 then .left else .right
  cc : pen.shadow.cc = .left
  stack : pen.shadow.stack = .empty
  input : pen.shadow.input =
    ⟨Payload.feed data key, if key.isSome then (idx + 1) * cols else 0⟩
  written : pen.shadow.output.written.toList = data.toList.take ((idx + 1) * cols)
  shown : pen.canvas.get? pen.tip ≠ none
  within : ∀ q, pen.canvas.get? q ≠ none → q.y ≤ 2 * (idx + 1) ∧ q.x < width

namespace Payload

variable {data : Array UInt8} {key : Option (Array UInt8)} {n : ℕ}

/-- What the machine of a pen has printed after the first `n` bytes. -/
theorem written_take (data : Array UInt8) (key : Option (Array UInt8)) (n : ℕ) :
    ((Machine.start (feed data key)).printBytes key.isSome
      ((masked data key).take n)).output.written.toList = data.toList.take n := by
  rw [Machine.written_printBytes_take rfl, written_feed]

/-- What it has read by then: as many bytes of the key as it has printed. -/
theorem input_take (key : Option (Array UInt8)) (hn : n ≤ data.size) :
    ((Machine.start (feed data key)).printBytes key.isSome ((masked data key).take n)).input =
      ⟨feed data key, if key.isSome then n else 0⟩ := by
  have hlength : ((masked data key).take n).length = n :=
    List.length_take_of_le (by rwa [Compose.length_masked])
  have hinput : (Machine.start (feed data key)).input = ⟨feed data key, 0⟩ := rfl
  rw [Machine.input_printBytes, hlength, hinput, Input.advance, Nat.zero_add]
  intro hkey
  rw [hlength, hinput, size_feed data hkey, Nat.zero_add]
  exact hn

end Payload

namespace Compose

variable {data : Array UInt8} {key : Option (Array UInt8)} {cols idx : ℕ} {c : Composition}

/-- Behind every lane but the last and its turn, the pen is in the lane that follows. -/
theorem exists_inLane (hfits : ¬ Overfull data key cols)
    (hidx : idx + 1 < (lanes data key cols).length) :
    let width := widthFor (lanes data key cols)
    let side := laneSide true (idx + 1)
    ∃ pen n, paintTurned width (.start (Payload.feed data key)) true
        ((lanes data key cols).take (idx + 1)) = (pen, none) ∧
      Pen.InLane (Payload.feed data key) n width side pen ∧
      pen.shadow = { (Machine.start (Payload.feed data key)).printBytes key.isSome
        ((masked data key).take ((idx + 1) * cols)) with dp := heading side } ∧
      pen.tip = ⟨2 * (idx + 1), if side then 0 else width - 1⟩ := by
  intro width side
  have hcols : 0 < cols := Nat.pos_of_ne_zero fun hzero => hfits (.inl hzero)
  obtain ⟨hstart, hstartFit⟩ := start_fits hfits (Payload.feed data key)
  have hlanes := lanes_eq data key cols
  rw [hlanes, List.length_map] at hidx
  have hlength : ((byteLanes data key cols).take (idx + 1)).length = idx + 1 :=
    List.length_take_of_le hidx.le
  have hrest : (byteLanes data key cols).drop (idx + 1) ≠ [] := by
    rw [Ne, List.drop_eq_nil_iff]
    exact Nat.not_le_of_lt hidx
  rw [← List.take_append_drop (idx + 1) (byteLanes data key cols)] at hstartFit
  obtain ⟨pen, hpaint, h, hshadow, hfit, hrow⟩ := hstart.turned hstartFit hrest
  rw [hlength] at h hshadow hfit hrow
  rw [flatten_take_byteLanes hcols] at hshadow
  rw [List.map_take, ← hlanes] at hpaint
  refine ⟨pen, _, hpaint, h, hshadow, ?_⟩
  -- The first lane is in the top row, and every turn leads two rows down.
  have hy : pen.tip.y = 2 * (idx + 1) := hrow.trans (Nat.zero_add _)
  rw [← hy, ← hfit.tip_x h.within.1]

/-- **Behind every lane but the last** and its turn, the bytes so far have been printed. -/
theorem exists_turned (hfits : ¬ Overfull data key cols)
    (hidx : idx + 1 < (lanes data key cols).length) :
    let width := widthFor (lanes data key cols)
    ∃ pen, paintTurned width (.start (Payload.feed data key)) true
        ((lanes data key cols).take (idx + 1)) = (pen, none) ∧
      pen.Turned data key cols width idx := by
  intro width
  have hcols : 0 < cols := Nat.pos_of_ne_zero fun hzero => hfits (.inl hzero)
  obtain ⟨pen, n, hpaint, h, hshadow, htip⟩ := exists_inLane hfits hidx
  have hcount : (idx + 1) * cols < data.size := by
    rw [length_lanes data key hcols] at hidx
    exact lt_of_succ_lt_lanesFor hcols hidx
  have hdp := h.dp
  rw [laneSide_true_succ] at htip hdp
  refine ⟨pen, hpaint, ?_, ?_, h.cc, h.stack, ?_, ?_, ?_, fun q hq => ?_⟩
  · rw [htip]
    rcases Nat.mod_two_eq_zero_or_one idx with hmod | hmod <;> rw [hmod] <;> rfl
  · rw [hdp]
    rcases Nat.mod_two_eq_zero_or_one idx with hmod | hmod <;> rw [hmod] <;> rfl
  · rw [hshadow]
    exact Payload.input_take key hcount.le
  · rw [hshadow]
    exact Payload.written_take data key _
  · rw [h.ready.traced.look_tip]
    exact Option.some_ne_none _
  · obtain ⟨hqx, hqy⟩ := h.within.2 q hq
    rw [htip] at hqy
    exact ⟨hqy, hqx⟩

end Compose

/-! ### The width of a picture -/

/-- The dead end behind a rightward lane reaches four cells further. -/
theorem Pen.InLane.exists_painted_close {pen pen' : Pen} {input : Array UInt8} {n width : ℕ}
    (h : Pen.InLane input n width true pen) (hwidth : pen.tip.x + 5 ≤ Canvas.maxWidth)
    (hclose : pen.close .right = (pen', none)) :
    ∃ q, pen'.canvas.get? q ≠ none ∧ q.x = pen.tip.x + 4 := by
  have hlimit : Canvas.maxWidth < Pos.limit := by decide
  have hdown : (Compose.heading true).rotate Bearing.right.turns = .down :=
    Compose.rotate_heading_close true
  obtain ⟨entry, deadEnd, hstep, hbehind, hpainted⟩ := Pen.painted_close hclose
  rw [h.dp, hdown] at hbehind
  rw [h.dp] at hstep
  obtain ⟨site, rfl⟩ := DeadEnd.exists_site_of_behind? hbehind
  have hentry := Pos.reach_step hstep
  have hnear := Pos.reach_step site.near_eq
  have hfar := Pos.reach_step site.far_eq
  simp only [Compose.heading, if_true, Direction.reach] at hentry hnear hfar
  -- The wall ahead of the cell that lies furthest.
  have hwall : site.far.step (Compose.heading true) = some ⟨site.far.y, site.far.x + 1⟩ :=
    if_pos (by omega)
  have hmem : (⟨site.far.y, site.far.x + 1⟩ : Pos) ∈ site.walls := by
    simp [DeadEnd.Site.mem_walls, hwall]
  refine ⟨_, (hpainted _).mpr (.inl hmem), ?_⟩
  dsimp only
  omega

namespace Compose

variable {data : Array UInt8} {key : Option (Array UInt8)} {cols : ℕ} {c : Composition}

/-- The first turn reaches the edge, so a picture with a turn is as wide as planned. -/
theorem width_of_turned (h : compose data key cols = .ok c)
    (hlanes : 2 ≤ (lanes data key cols).length) :
    c.grid.width = widthFor (lanes data key cols) := by
  obtain ⟨-, hfits⟩ := fits_of_compose h
  obtain ⟨hle, -⟩ := sides_eq h
  obtain ⟨pen, hpaint, hgrid⟩ := exists_pen h
  obtain ⟨pen₁, hturned, hpen₁⟩ := exists_turned hfits (show 0 + 1 < _ from hlanes)
  rw [paintLanes_of_turned hturned hlanes] at hpaint
  have hpainted := (Canvas.kept_painted pen₁.tip).pen.paintLanes hpen₁.shown
    (widthFor (lanes data key cols)) (laneSide true 1) ((lanes data key cols).drop 1)
  rw [hpaint] at hpainted
  obtain ⟨k, hk⟩ := Option.ne_none_iff_exists'.mp hpainted
  have hinside := (Canvas.inside_of_get? hk).2
  rw [hpen₁.tip] at hinside
  rw [hgrid] at hle ⊢
  refine Nat.le_antisymm hle ?_
  exact Nat.le_of_pred_lt hinside

/-- A single lane is followed by the dead end at once. -/
theorem width_of_single (h : compose data key cols = .ok c) {lane : List Stroke}
    (hlane : lanes data key cols = [lane]) : c.grid.width = Stroke.totalCount lane + 5 := by
  obtain ⟨-, hfits⟩ := fits_of_compose h
  obtain ⟨pen, hpaint, hgrid⟩ := exists_pen h
  have hsnug := Canvas.kept_snug.pen.paintLanes (Pen.snug_start (Payload.feed data key))
    (widthFor (lanes data key cols)) true (lanes data key cols)
  rw [hpaint] at hsnug
  have hsmall : Stroke.totalCount lane + 9 ≤ maxSide :=
    (totalCount_le_widthFor (hlane ▸ List.mem_cons_self)).trans
      (Nat.le_of_not_lt fun hlt => hfits (.inr (.inl hlt)))
  obtain ⟨hwidth, hheight⟩ := Pen.maxSide_le
  obtain ⟨bytes, -, rfl⟩ :=
    List.map_eq_singleton_iff.mp ((lanes_eq data key cols).symm.trans hlane)
  -- Let the picture be just wide enough for the dead end to take what the bytes leave.
  let count := Stroke.totalCount (laneStrokes key.isSome bytes)
  have hstart : Pen.InLane (Payload.feed data key) 0 (count + 5) true
      (.start (Payload.feed data key)) := .start _ (Nat.succ_pos _)
  obtain ⟨pen₁, hstrokes, h₁, -, hrow₁, hspare₁⟩ :=
    hstart.bytes (by omega) key.isSome bytes (Nat.le_add_right count 4)
  have hspare : pen₁.spare (count + 5) true = 4 := hspare₁.trans (Nat.add_sub_cancel_left count 4)
  have htop : pen₁.tip.y = 0 := hrow₁
  have hx : pen₁.tip.x = count := by
    rw [Pen.spare, if_pos rfl] at hspare
    omega
  rw [hlane] at hpaint
  have hclose : pen₁.close .right = (pen, none) := (Pen.paintLanes_last hstrokes).symm.trans hpaint
  have hspans := h₁.spans_close hspare.ge (by omega) hclose
  obtain ⟨q, hq, hqx⟩ := h₁.exists_painted_close (by omega) hclose
  obtain ⟨k, hk⟩ := Option.ne_none_iff_exists'.mp hq
  have hinside := (Canvas.inside_of_get? hk).2
  rw [hgrid]
  refine Nat.le_antisymm (hsnug.sides hspans).1 ?_
  show count + 5 ≤ pen.canvas.width
  omega

end Compose

/-! ### Lane by lane -/

variable {data : Array UInt8} {key : Option (Array UInt8)} {cols : ℕ}

/-- **A picture is composed lane by lane.**  Let the key not be empty, and let there be room for the
picture, whose width is planned as that of its longest lane and nine cells more.  Behind every lane
but the last and its turn, the pen is at the outer edge of the row two below, and painting goes on
from there the other way.  Its chooser points left and its stack is empty.  It has printed the bytes
of the lanes so far and read as many bytes of the key, or none without a key, and nothing has been
painted below its row or outside the planned width.

The picture is composed, and its lanes take two rows each and one more below the last.  It is as
wide as planned if a lane turns around; a single lane takes five columns besides its own. -/
theorem compose_lane_by_lane (hkey : key ≠ some #[]) (hfits : ¬ Compose.Overfull data key cols) :
    let lanes := Compose.lanes data key cols
    let width := 9 + (lanes.map Stroke.totalCount).foldl max 0
    let start := Pen.start (Payload.feed data key)
    lanes.length = max 1 (data.size ⌈/⌉ cols) ∧
      (∀ idx, idx + 1 < lanes.length → (idx + 1) * cols < data.size ∧
        ∃ pen, Compose.paintTurned width start true (lanes.take (idx + 1)) = (pen, none) ∧
          Compose.paintLanes width start true lanes =
            Compose.paintLanes width pen (decide (idx % 2 = 1)) (lanes.drop (idx + 1)) ∧
          pen.Turned data key cols width idx) ∧
      ∃ c, compose data key cols = .ok c ∧ c.grid.height = 2 * lanes.length + 1 ∧
        (2 ≤ lanes.length → c.grid.width = width) ∧
        ∀ lane, lanes = [lane] → c.grid.width = Stroke.totalCount lane + 5 := by
  intro lanes width start
  have hcols : 0 < cols := Nat.pos_of_ne_zero fun hzero => hfits (.inl hzero)
  have hwidth : width = Compose.widthFor lanes := (Compose.widthFor_eq lanes).symm
  have hcount : lanes.length = Compose.lanesFor data.size cols :=
    Compose.length_lanes data key hcols
  obtain ⟨c, hcompose, -⟩ := compose_of_fits hkey hfits
  refine ⟨hcount, fun idx hidx => ⟨?_, ?_⟩, c, hcompose, (Compose.sides_eq hcompose).2, ?_, ?_⟩
  · exact Compose.lt_of_succ_lt_lanesFor hcols (hcount ▸ hidx)
  · obtain ⟨pen, hpaint, hturned⟩ := Compose.exists_turned hfits hidx
    have hgoesOn := Compose.paintLanes_of_turned hpaint hidx
    rw [Compose.laneSide_true_succ] at hgoesOn
    rw [hwidth]
    exact ⟨pen, hpaint, hgoesOn, hturned⟩
  · intro hlanes
    rw [hwidth]
    exact Compose.width_of_turned hcompose hlanes
  · intro lane hlane
    exact Compose.width_of_single hcompose hlane

theorem compose_lane_by_lane_three_lanes :
    (some #[3] : Option (Array UInt8)) ≠ some #[] ∧
      ¬ Compose.Overfull #[2, 0, 255] (some #[3]) 1 ∧
      (∃ pen, Compose.paintTurned 38 (.start #[3, 3, 3]) true
          ((Compose.lanes #[2, 0, 255] (some #[3]) 1).take 2) = (pen, none) ∧
        pen.tip = ⟨4, 0⟩ ∧ pen.shadow.dp = .right ∧ pen.shadow.input = ⟨#[3, 3, 3], 2⟩ ∧
        pen.shadow.output.written.toList = [2, 0]) ∧
      ∃ c, compose #[2, 0, 255] (some #[3]) 1 = .ok c ∧ c.grid.height = 7 ∧ c.grid.width = 38 := by
  have hkey : (some #[3] : Option (Array UInt8)) ≠ some #[] := by decide
  have hfits : ¬ Compose.Overfull #[2, 0, 255] (some #[3]) 1 :=
    Compose.not_overfull (by decide) (by decide) (by decide)
  have hwidth : 9 + ((Compose.lanes #[2, 0, 255] (some #[3]) 1).map Stroke.totalCount).foldl max 0 =
      38 := by decide
  obtain ⟨hcount, hturns, c, hcompose, hheight, hwide, -⟩ := compose_lane_by_lane hkey hfits
  have hthree : (Compose.lanes #[2, 0, 255] (some #[3]) 1).length = 3 := by decide
  rw [hthree] at hturns hheight hwide
  rw [hwidth] at hturns hwide
  obtain ⟨-, pen, hpaint, -, hpen⟩ := hturns 1 (by decide)
  exact ⟨hkey, hfits, ⟨pen, hpaint, hpen.tip, hpen.dp, hpen.input, hpen.written⟩, c, hcompose,
    hheight, hwide (by decide)⟩

end Piet
