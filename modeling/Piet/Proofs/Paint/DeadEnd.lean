import Piet.Proofs.Paint.Alike
import Piet.Proofs.Walk.Trail

/-!
# A closed program ends

`Pen.close` paints a white cell and a block of five cells behind it.  If that succeeds, the five
cells are a block of their own, which the pointer enters from the white cell, and every way out of
it is walled: the pixels ahead of its exits are all among the cells in which walls were painted or
stood before (`DeadEnd.Site.exit_mem_walls`), since no exit points back at the white cell.

So the pointer is trapped there, wherever the pen came from and whatever it had painted before
(`Pen.Traced.close`).  `Pen.interpret_closed` draws the conclusion for the program that a script of
calls has painted.
-/

namespace Piet

/-! ### The cells of a dead end -/

section Geometry

variable {a s d : Direction} {c entry w : Pos} {deadEnd : DeadEnd}

/-- Each of some cells lies next to one that comes before it. -/
def Attached (before : List Pos) : List Pos → Prop
  | [] => True
  | p :: ps => (∃ q ∈ before, ∃ d, q.step d = some p) ∧ Attached (p :: before) ps

/-- The five cells of a dead end behind a white cell. -/
structure DeadEnd.Site (entry : Pos) (a s : Direction) where
  near : Pos
  far : Pos
  sideNear : Pos
  sideFar : Pos
  sideEntry : Pos
  near_eq : entry.step a = some near
  far_eq : near.step a = some far
  sideEntry_eq : entry.step s = some sideEntry
  sideNear_eq : near.step s = some sideNear
  sideFar_eq : far.step s = some sideFar

namespace DeadEnd.Site

/-- The cells in the order in which they are painted. -/
def cells (site : DeadEnd.Site entry a s) : List Pos :=
  [site.near, site.far, site.sideNear, site.sideFar, site.sideEntry]

/-- The cells around them, except for the white one and those that touch only at a corner. -/
def walls (site : DeadEnd.Site entry a s) : List Pos :=
  [site.far.step a, site.sideFar.step a, site.sideEntry.step a.back, site.sideEntry.step s,
    site.sideNear.step s, site.sideFar.step s, site.near.step s.back,
    site.far.step s.back].filterMap id

variable (site : DeadEnd.Site entry a s)

theorem behind?_eq : DeadEnd.behind? entry a s = some ⟨site.cells, site.walls⟩ := by
  simp only [DeadEnd.behind?, site.near_eq, site.far_eq, site.sideEntry_eq, site.sideNear_eq,
    site.sideFar_eq, cells, walls, Direction.rotate_two, Option.bind_eq_bind, Option.bind_some]

theorem forall_cells {P : Pos → Prop} : (∀ c ∈ site.cells, P c) ↔
    P site.near ∧ P site.far ∧ P site.sideNear ∧ P site.sideFar ∧ P site.sideEntry := by
  simp [cells]

include site in
/-- Where the cells lie, seen from the white cell. -/
theorem reach_cells (has : a.Across s) :
    (a.reach site.near = a.reach entry + 1 ∧ s.reach site.near = s.reach entry) ∧
      (a.reach site.far = a.reach entry + 2 ∧ s.reach site.far = s.reach entry) ∧
      (a.reach site.sideNear = a.reach entry + 1 ∧ s.reach site.sideNear = s.reach entry + 1) ∧
      (a.reach site.sideFar = a.reach entry + 2 ∧ s.reach site.sideFar = s.reach entry + 1) ∧
      a.reach site.sideEntry = a.reach entry ∧ s.reach site.sideEntry = s.reach entry + 1 := by
  have hnear := Pos.reach_step site.near_eq
  have hnear' := Pos.reach_step_across site.near_eq has
  have hfar := Pos.reach_step site.far_eq
  have hfar' := Pos.reach_step_across site.far_eq has
  have hsideEntry := Pos.reach_step site.sideEntry_eq
  have hsideEntry' := Pos.reach_step_across site.sideEntry_eq has.symm
  have hsideNear := Pos.reach_step site.sideNear_eq
  have hsideNear' := Pos.reach_step_across site.sideNear_eq has.symm
  have hsideFar := Pos.reach_step site.sideFar_eq
  have hsideFar' := Pos.reach_step_across site.sideFar_eq has.symm
  refine ⟨⟨?_, ?_⟩, ⟨?_, ?_⟩, ⟨?_, ?_⟩, ⟨?_, ?_⟩, ?_, ?_⟩ <;> omega

theorem nodup (has : a.Across s) : (entry :: site.cells).Nodup := by
  obtain ⟨⟨h1, h2⟩, ⟨h3, h4⟩, ⟨h5, h6⟩, ⟨h7, h8⟩, h9, h10⟩ := site.reach_cells has
  refine List.Nodup.of_map (fun q => (a.reach q - a.reach entry, s.reach q - s.reach entry)) ?_
  have hmap : (entry :: site.cells).map
      (fun q => (a.reach q - a.reach entry, s.reach q - s.reach entry)) =
        [(0, 0), (1, 0), (2, 0), (1, 1), (2, 1), (0, 1)] := by
    simp only [cells, List.map_cons, List.map_nil, List.cons.injEq, Prod.mk.injEq, and_true]
    omega
  rw [hmap]
  decide

/-- The side to which a dead end extends is neither ahead nor behind if its cells are distinct and
none of them is the white one. -/
theorem across (hentry : entry.y < Pos.limit ∧ entry.x < Pos.limit)
    (hnodup : (entry :: site.cells).Nodup) : a.Across s := by
  rcases a.eq_or_across s with rfl | rfl | has
  · have heq : site.sideEntry = site.near :=
      Option.some.inj (site.sideEntry_eq.symm.trans site.near_eq)
    simp [cells, heq] at hnodup
  · have heq : site.sideNear = entry :=
      Option.some.inj (site.sideNear_eq.symm.trans (Pos.step_back hentry site.near_eq))
    simp [cells, heq] at hnodup
  · exact has

/-- The cells can be added to the first of them in this order. -/
theorem attached (has : a.Across s) (hrange : site.sideEntry.Paintable) :
    Attached [site.near] [site.far, site.sideNear, site.sideFar, site.sideEntry] := by
  have hback : site.sideNear.step a.back = some site.sideEntry :=
    Pos.step_back hrange.near.lt_limit
      (Pos.step_comm has site.near_eq site.sideNear_eq site.sideEntry_eq)
  exact ⟨⟨site.near, by simp, a, site.far_eq⟩, ⟨site.near, by simp, s, site.sideNear_eq⟩,
    ⟨site.far, by simp, s, site.sideFar_eq⟩, ⟨site.sideNear, by simp, a.back, hback⟩, trivial⟩

/-! #### The walls -/

theorem mem_walls : w ∈ site.walls ↔ some w ∈ [site.far.step a, site.sideFar.step a,
    site.sideEntry.step a.back, site.sideEntry.step s, site.sideNear.step s, site.sideFar.step s,
    site.near.step s.back, site.far.step s.back] := by
  simp [walls]

/-- Walls stand next to the cells, but not where the white cell is. -/
theorem exists_step_of_mem_walls (has : a.Across s) (hw : w ∈ site.walls) :
    w ≠ entry ∧ ∃ c ∈ site.cells, ∃ d, c.step d = some w := by
  obtain ⟨h1, h2, h3, h4, h5⟩ := site.reach_cells has
  have hcells : site.near ∈ site.cells ∧ site.far ∈ site.cells ∧ site.sideNear ∈ site.cells ∧
      site.sideFar ∈ site.cells ∧ site.sideEntry ∈ site.cells := by
    simp [cells]
  obtain ⟨hn, hf, hsn, hsf, hse⟩ := hcells
  simp only [mem_walls, List.mem_cons, List.not_mem_nil, or_false] at hw
  rcases hw with hw | hw | hw | hw | hw | hw | hw | hw
  · exact ⟨Pos.ne_of_step hw.symm (by omega), _, hf, _, hw.symm⟩
  · exact ⟨Pos.ne_of_step hw.symm (by omega), _, hsf, _, hw.symm⟩
  · refine ⟨Pos.ne_of_step hw.symm ?_, _, hse, _, hw.symm⟩
    rw [Direction.reach_back, Direction.reach_back]
    omega
  · exact ⟨Pos.ne_of_step hw.symm (by omega), _, hse, _, hw.symm⟩
  · exact ⟨Pos.ne_of_step hw.symm (by omega), _, hsn, _, hw.symm⟩
  · exact ⟨Pos.ne_of_step hw.symm (by omega), _, hsf, _, hw.symm⟩
  · refine ⟨Pos.ne_of_step hw.symm ?_, _, hn, _, hw.symm⟩
    rw [Direction.reach_back, Direction.reach_back]
    omega
  · refine ⟨Pos.ne_of_step hw.symm ?_, _, hf, _, hw.symm⟩
    rw [Direction.reach_back, Direction.reach_back]
    omega

/-- **Every way out is walled**: what lies ahead of a cell than which none lies further in that
direction is a wall. -/
theorem exit_mem_walls (has : a.Across s) (hc : c ∈ site.cells)
    (hfar : ∀ r ∈ site.cells, d.reach r ≤ d.reach c) (hstep : c.step d = some w) :
    w ∈ site.walls := by
  obtain ⟨h1, h2, h3, h4, h5⟩ := site.reach_cells has
  rw [forall_cells] at hfar
  simp only [mem_walls, List.mem_cons, List.not_mem_nil, or_false, ← hstep]
  simp only [cells, List.mem_cons, List.not_mem_nil, or_false] at hc
  -- The distances rule out the cells that do not lie furthest.
  rcases has.cases d with rfl | rfl | rfl | rfl
  · rcases hc with rfl | rfl | rfl | rfl | rfl <;> first | omega | simp
  · rcases hc with rfl | rfl | rfl | rfl | rfl <;> first | omega | simp
  · simp only [Direction.reach_back] at hfar
    rcases hc with rfl | rfl | rfl | rfl | rfl <;> first | omega | simp
  · simp only [Direction.reach_back] at hfar
    rcases hc with rfl | rfl | rfl | rfl | rfl <;> first | omega | simp

/-- **No way out.**  A block of these cells cannot be left if the cells around it are black. -/
theorem dead (has : a.Across s) {b : Block} {canvas : Canvas} (hnear : b.Near)
    (hb : ∀ q, q ∈ b.pixels ↔ q ∈ site.cells)
    (hblack : ∀ w ∈ site.walls, w ∉ site.cells → canvas.get? w = some .black) (dp : Direction)
    (cc : Chooser) : canvas.toGrid.ahead? (b.exit dp cc) dp = none := by
  rw [Option.eq_none_iff_forall_ne_some]
  intro w hw
  obtain ⟨hstep, hopen⟩ := Grid.ahead?_eq_some_iff.mp hw
  have hfar : ∀ r ∈ site.cells, dp.reach r ≤ dp.reach (b.exit dp cc) := fun r hr =>
    Block.reach_le_exit hnear dp cc ((hb r).mpr hr)
  have hwall := site.exit_mem_walls has ((hb _).mp (b.exit_mem dp cc)) hfar hstep
  have hnot : w ∉ site.cells := fun hmem =>
    Block.not_mem_of_step_exit hnear hstep ((hb w).mpr hmem)
  refine Canvas.not_open_toGrid (fun k hk => ?_) hopen
  rw [hblack w hwall hnot] at hk
  exact (Option.some.inj hk).symm

end DeadEnd.Site

/-- A dead end has a place for each of its cells. -/
theorem DeadEnd.exists_site_of_behind? (h : DeadEnd.behind? entry a s = some deadEnd) :
    ∃ site : DeadEnd.Site entry a s, ⟨site.cells, site.walls⟩ = deadEnd := by
  have hcells := h
  simp only [DeadEnd.behind?, Option.bind_eq_bind, Option.bind_eq_some_iff] at hcells
  obtain ⟨near, hnear, far, hfar, sideEntry, hsideEntry, sideNear, hsideNear, sideFar, hsideFar,
    -⟩ := hcells
  let site : DeadEnd.Site entry a s := ⟨near, far, sideNear, sideFar, sideEntry, hnear, hfar,
    hsideEntry, hsideNear, hsideFar⟩
  exact ⟨site, Option.some.inj (site.behind?_eq.symm.trans h)⟩

end Geometry

namespace Pen

variable {pen pen' : Pen} {input : Array UInt8} {past : List Block} {n : ℕ} {s : Direction}
  {ink : Ink} {q w : Pos} {ps before : List Pos} {k : Color}

/-! ### Cells that have been painted -/

/-- Cells that have been painted were blank and distinct, and no other cell has changed. -/
theorem frame_paintAll (h : pen.paintAll ink ps = (pen', none)) :
    ps.Nodup ∧ (∀ p ∈ ps, pen.canvas.get? p = none ∧ p.Paintable) ∧
      ∀ q, q ∉ ps → pen'.canvas.get? q = pen.canvas.get? q := by
  induction ps generalizing pen with
  | nil =>
    obtain rfl := (Prod.mk.inj h).1
    exact ⟨List.nodup_nil, List.forall_mem_nil _, fun _ _ => rfl⟩
  | cons p ps ih =>
    obtain ⟨pen₁, hpaint, hrest⟩ := goOn_eq_none h
    obtain ⟨hfree, rfl⟩ := paint_eq_iff.mp hpaint
    obtain ⟨hnodup, hblank, hframe⟩ := ih hrest
    have hlaid := painted_lay hfree
    have hnot : p ∉ ps := fun hp => by
      have hnone := (hblank p hp).1
      rw [hlaid.after] at hnone
      cases hnone
    refine ⟨List.nodup_cons.mpr ⟨hnot, hnodup⟩, List.forall_mem_cons.mpr
      ⟨⟨hfree.blank, hfree.paintable⟩, fun r hr => ?_⟩, fun r hr => ?_⟩
    · rw [← hlaid.frame r (ne_of_mem_of_not_mem hr hnot)]
      exact hblank r hr
    · obtain ⟨hne, hr⟩ := not_or.mp (mt List.mem_cons.mpr hr)
      rw [hframe r hr, hlaid.frame r hne]

/-- Cells that were painted next to one another have enlarged the block. -/
theorem AtBlock.paintAll (h : pen.AtBlock input past n)
    (hbefore : ∀ q ∈ before, q ∈ pen.block.pixels) (hattached : Attached before ps)
    (hpaint : pen.paintAll (.op .noop) ps = (pen', none)) :
    pen'.AtBlock input past n ∧ pen'.shadow = pen.shadow ∧
      ∀ q, q ∈ pen'.block.pixels ↔ q ∈ pen.block.pixels ∨ q ∈ ps := by
  induction ps generalizing pen before with
  | nil =>
    obtain rfl := (Prod.mk.inj hpaint).1
    exact ⟨h, rfl, by simp⟩
  | cons p ps ih =>
    obtain ⟨⟨q, hq, d, hstep⟩, hattached⟩ := hattached
    obtain ⟨pen₁, hfirst, hrest⟩ := goOn_eq_none hpaint
    obtain ⟨hfree, rfl⟩ := paint_eq_iff.mp hfirst
    have hblock : (pen.lay (.op .noop) p).block = pen.block.push p := by
      rw [lay_noop h.not_onWhite]
    have hbefore' : ∀ r ∈ p :: before, r ∈ (pen.lay (.op .noop) p).block.pixels := by
      intro r hr
      rw [hblock, Block.mem_pixels_push]
      exact (List.mem_cons.mp hr).symm.imp_left (hbefore r)
    obtain ⟨hin, hshadow, hpixels⟩ :=
      ih (h.grow hfree (hbefore q hq) hstep) hbefore' hattached hrest
    refine ⟨hin, by rw [hshadow, shadow_lay_op, leave_noop], fun r => ?_⟩
    rw [hpixels, hblock, Block.mem_pixels_push, List.mem_cons, or_assoc]

/-! ### Walls that have been painted -/

/-- What laying a wall keeps, painting walls does. -/
theorem paintWalls_induction {P : Pen → Prop}
    (hlay : ∀ pen p, P pen → pen.Free .black p → P (pen.lay .black p)) (hpen : P pen)
    (h : pen.paintWalls ps = (pen', none)) : P pen' := by
  induction ps generalizing pen with
  | nil =>
    obtain rfl := (Prod.mk.inj h).1
    exact hpen
  | cons p ps ih =>
    rw [paintWalls_eq_goOn] at h
    split at h
    · exact ih hpen h
    · obtain ⟨pen₁, hpaint, hrest⟩ := goOn_eq_none h
      obtain ⟨hfree, rfl⟩ := paint_eq_iff.mp hpaint
      exact ih (hlay pen p hpen hfree) hrest

theorem AtBlock.paintWalls (h : pen.AtBlock input past n)
    (hpaint : pen.paintWalls ps = (pen', none)) :
    pen'.AtBlock input past n ∧ pen'.block = pen.block ∧ pen'.shadow = pen.shadow := by
  refine paintWalls_induction (P := fun pen' => pen'.AtBlock input past n ∧
    pen'.block = pen.block ∧ pen'.shadow = pen.shadow) ?_ ⟨h, rfl, rfl⟩ hpaint
  rintro pen₁ p ⟨hin, hblock, hshadow⟩ hfree
  exact ⟨hin.wall hfree, hblock, hshadow⟩

theorem keep_paintWalls (h : pen.paintWalls ps = (pen', none))
    (hq : pen.canvas.get? q = some k) : pen'.canvas.get? q = some k :=
  paintWalls_induction (P := fun pen => pen.canvas.get? q = some k)
    (fun _ _ hk hfree => (painted_lay hfree).keep hk) hq h

/-- Where nothing but black was, there is black afterwards. -/
theorem black_paintWalls (h : pen.paintWalls ps = (pen', none)) (hw : w ∈ ps)
    (hclear : ¬ pen.Occupied w) : pen'.canvas.get? w = some .black := by
  induction ps generalizing pen with
  | nil => exact absurd hw List.not_mem_nil
  | cons p ps ih =>
    rw [paintWalls_eq_goOn] at h
    split at h
    · next hsome =>
      rcases List.mem_cons.mp hw with rfl | hw
      · refine keep_paintWalls h (not_not.mp fun hne => hclear ⟨?_, hne⟩)
        exact Option.isSome_iff_ne_none.mp hsome
      · exact ih h hw hclear
    · obtain ⟨pen₁, hpaint, hrest⟩ := goOn_eq_none h
      obtain ⟨hfree, rfl⟩ := paint_eq_iff.mp hpaint
      have hlaid := painted_lay hfree
      rcases eq_or_ne w p with rfl | hne
      · exact keep_paintWalls hrest hlaid.after
      · refine ih hrest (List.mem_of_ne_of_mem hne hw) ?_
        rw [Occupied, hlaid.frame w hne]
        exact hclear

/-! ### Closing -/

/-- A finished pen is in a block that the pointer reaches after `n` steps and cannot leave. -/
structure Finished (input : Array UInt8) (n : ℕ) (pen : Pen) : Prop where
  inside : ∃ past, pen.AtBlock input past n
  dead : ∀ dp cc, pen.canvas.toGrid.ahead? (pen.block.exit dp cc) dp = none

/-- After white the cells of a dead end are a block of their own: the first of them begins it, and
the others enlarge it. -/
theorem Traced.fill (h : Traced input n pen) (hw : pen.OnWhite)
    (site : DeadEnd.Site pen.tip pen.shadow.dp s) (has : pen.shadow.dp.Across s)
    (hcells : pen.paintAll (.op .noop) site.cells = (pen', none)) :
    (∃ past, pen'.AtBlock input past (n + 1)) ∧ pen'.shadow = pen.shadow ∧
      ∀ q, q ∈ pen'.block.pixels ↔ q ∈ site.cells := by
  have hs : pen.Starts .noop := .inl hw
  have hpaces : pen.paces (.op .noop) = 1 := if_pos hs
  have hfirst : ∀ q, q ∈ (pen.lay (.op .noop) site.near).block.pixels ↔ q = site.near := by
    intro q
    rw [block_lay_op hs]
    exact Array.mem_singleton
  have hrange : site.sideEntry.Paintable :=
    ((frame_paintAll hcells).2.1 _ (by simp [DeadEnd.Site.cells])).2
  obtain ⟨pen₁, hnear, hothers⟩ := goOn_eq_none hcells
  obtain ⟨hfree, rfl⟩ := paint_eq_iff.mp hnear
  have htraced := h.paint (h.suits_front site.near_eq (.op .noop)) hfree
  rw [hpaces] at htraced
  obtain ⟨past, hin⟩ := htraced.atBlock (not_onWhite_lay_op hs site.near)
  obtain ⟨hin', hshadow, hpixels⟩ :=
    hin.paintAll (by simp [hfirst]) (site.attached has hrange) hothers
  refine ⟨⟨past, hin'⟩, by rw [hshadow, shadow_lay_op, leave_noop], fun q => ?_⟩
  rw [hpixels, hfirst]
  exact List.mem_cons.symm

/-- **Closing traps the pointer.**  It is led into the dead end by way of the white cell, and the
machine stays as it was. -/
theorem Traced.close (h : Traced input n pen) {b : Bearing} (hclose : pen.close b = (pen', none)) :
    Finished input (n + pen.paces .white + 1) pen' ∧ pen'.shadow = pen.shadow := by
  obtain ⟨pen₁, deadEnd, pen₂, hadvance, hbehind, hclear, hcells, hwalls⟩ := close_eq_iff.mp hclose
  obtain ⟨entry, hstep, hfree, rfl⟩ := exists_of_advance hadvance
  obtain ⟨site, rfl⟩ := DeadEnd.exists_site_of_behind? hbehind
  obtain ⟨hnodup, hblank, hframe⟩ := frame_paintAll hcells
  -- That all cells could be painted tells on which side of the direction they lie.
  have hentry : entry ∉ site.cells := fun hmem => by
    have hnone := (hblank entry hmem).1
    rw [(painted_lay hfree).after] at hnone
    cases hnone
  have has := site.across hfree.paintable.near.lt_limit (List.nodup_cons.mpr ⟨hentry, hnodup⟩)
  have htraced : Traced input (n + pen.paces .white) (pen.lay .white entry) := h.paint hstep hfree
  obtain ⟨⟨past, hin⟩, hshadow, hpixels⟩ :=
    htraced.fill (onWhite_lay_white pen entry) site has hcells
  obtain ⟨hin', hblock', hshadow'⟩ := hin.paintWalls hwalls
  have hnear : pen'.block.Near := (hin'.whole _ List.mem_cons_self).2
  have hb : ∀ q, q ∈ pen'.block.pixels ↔ q ∈ site.cells := hblock' ▸ hpixels
  have hblack : ∀ w ∈ site.walls, w ∉ site.cells → pen'.canvas.get? w = some .black := by
    intro w hw hout
    refine black_paintWalls hwalls hw ?_
    rw [Occupied, hframe w hout]
    exact hclear w hw
  exact ⟨⟨⟨past, hin'⟩, site.dead has hnear hb hblack⟩, hshadow'.trans hshadow⟩

/-- **The run of a finished picture.** -/
theorem Finished.interpret (h : Finished input n pen) (limit : ℕ) :
    (n + 7 < limit →
        (pen.canvas.toGrid.interpret input limit).output = pen.shadow.output.written ∧
          (pen.canvas.toGrid.interpret input limit).ending = .halted .finished) ∧
      (limit ≤ n + 7 →
        (pen.canvas.toGrid.interpret input limit).ending = .halted .stepLimit) := by
  obtain ⟨past, hin⟩ := h.inside
  obtain ⟨-, hnear⟩ := hin.whole _ List.mem_cons_self
  refine Grid.interpret_of_trapped (hin.strides (by omega)) hnear ?_ h.dead limit
  rw [hin.color]
  exact Color.shade_ne_white _

/-- **A program that has been closed ends in its dead end.**  For every script of permitted calls,
whether they fail or not, if the pen can then be closed, on whatever side, there is a number of
steps such that with any greater limit the finished picture, given the same input, writes what the
pen has written and is finished. -/
theorem interpret_closed (input : Array UInt8) (script : List Call) (b : Bearing)
    (hpermits : (start input).PermitsAll script) :
    let r := ((start input).calls script).close b
    r.2 = none → ∃ n, ∀ limit,
      (n < limit → (r.1.canvas.toGrid.interpret input limit).output = r.1.shadow.output.written ∧
        (r.1.canvas.toGrid.interpret input limit).ending = .halted .finished) ∧
      (limit ≤ n → (r.1.canvas.toGrid.interpret input limit).ending = .halted .stepLimit) := by
  intro r hnone
  obtain ⟨n, h⟩ : ∃ n, Traced input n ((start input).calls script) :=
    (Traced.start input).calls hpermits
  have hclose : ((start input).calls script).close b = (r.1, none) := Prod.ext rfl hnone
  obtain ⟨hfinished, -⟩ := h.close hclose
  exact ⟨_, hfinished.interpret⟩

/-- A script that writes a numeral along the upper edge of the picture, where one of its calls
fails, and leaves a wall ahead of where the dead end will be. -/
def edgeScript : List Call :=
  [.stroke (.op .push) 1, .stroke (.op .outNum) 2, .grow .left, .wall ⟨0, 8⟩, .stroke .white 1]

theorem interpret_closed_edge :
    (start #[]).PermitsAll edgeScript ∧
      let r := ((start #[]).calls edgeScript).close .backRight
      r.2 = none ∧ ∃ n, ∀ limit,
        (n < limit → (r.1.canvas.toGrid.interpret #[] limit).output = #[49] ∧
          (r.1.canvas.toGrid.interpret #[] limit).ending = .halted .finished) ∧
        (limit ≤ n → (r.1.canvas.toGrid.interpret #[] limit).ending = .halted .stepLimit) := by
  have hpermits : (start #[]).PermitsAll edgeScript := by decide +kernel
  have hnone : (((start #[]).calls edgeScript).close .backRight).2 = none := by decide +kernel
  have houtput : (((start #[]).calls edgeScript).close .backRight).1.shadow.output.written =
      #[49] := by
    decide +kernel
  have hinterpret := interpret_closed #[] edgeScript .backRight hpermits hnone
  rw [houtput] at hinterpret
  exact ⟨hpermits, hnone, hinterpret⟩

end Pen

end Piet
