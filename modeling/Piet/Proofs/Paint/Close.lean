import Piet.Proofs.Paint.DeadEnd
import Piet.Proofs.Paint.Stroke

/-!
# Room for a dead end

A dead end is painted into blank cells if nothing has been painted ahead of the tip or beyond it on
the side to which the dead end extends (`Beyond`).  All neighbours of its five cells lie there, so
no cell can touch an earlier block (`Pen.Filling.grow`), and no wall can stand where something else
has been painted.

`Pen.Ready.close` says that a pen with enough room around it can be closed.
-/

namespace Piet

/-! ### Where a dead end lies -/

/-- Beyond a place on one side, or ahead of it and no further than one line off on the other. -/
def Beyond (a s : Direction) (t q : Pos) : Prop :=
  s.reach t < s.reach q ∨ a.reach t < a.reach q ∧ s.reach t ≤ s.reach q + 1

/-- All neighbours lie beyond the place. -/
def Deep (a s : Direction) (t q : Pos) : Prop :=
  a.reach t < a.reach q ∧ s.reach t ≤ s.reach q ∧
    (s.reach t < s.reach q ∨ a.reach t + 1 < a.reach q)

section Geometry

variable {a s d : Direction} {t p q entry : Pos}

theorem Deep.beyond (h : Deep a s t q) : Beyond a s t q := by
  obtain ⟨ha, hs, -⟩ := h
  exact .inr ⟨ha, by omega⟩

theorem Deep.beyond_step (has : a.Across s) (h : Deep a s t p) (hstep : p.step d = some q) :
    Beyond a s t q := by
  obtain ⟨ha, hs, hor⟩ := h
  have hnext := Pos.reach_step hstep
  rcases has.cases d with rfl | rfl | rfl | rfl
  · have hside := Pos.reach_step_across hstep has
    exact .inr ⟨by omega, by omega⟩
  · exact .inl (by omega)
  · have hside := Pos.reach_step_across hstep has.symm.back.symm
    rw [Direction.reach_back, Direction.reach_back] at hnext
    rcases hor with hor | hor
    · exact .inl (by omega)
    · exact .inr ⟨by omega, by omega⟩
  · have hside := Pos.reach_step_across hstep has.back.symm
    rw [Direction.reach_back, Direction.reach_back] at hnext
    exact .inr ⟨by omega, by omega⟩

namespace DeadEnd.Site

variable (site : DeadEnd.Site entry a s)

/-- The cells lie deep beyond the cell from which the white one is entered. -/
theorem deep (has : a.Across s) (hstep : t.step a = some entry) :
    ∀ c ∈ site.cells, Deep a s t c := by
  have ha := Pos.reach_step hstep
  have hs := Pos.reach_step_across hstep has
  obtain ⟨h1, h2, h3, h4, h5⟩ := site.reach_cells has
  rw [forall_cells]
  refine ⟨?_, ?_, ?_, ?_, ?_⟩ <;> refine ⟨?_, ?_, ?_⟩ <;> omega

/-- No cell lies further than three steps from the white one. -/
theorem cells_le : ∀ c ∈ site.cells, c.y ≤ entry.y + 3 ∧ c.x ≤ entry.x + 3 := by
  have hnear := Pos.step_le site.near_eq
  have hfar := Pos.step_le site.far_eq
  have hsideEntry := Pos.step_le site.sideEntry_eq
  have hsideNear := Pos.step_le site.sideNear_eq
  have hsideFar := Pos.step_le site.sideFar_eq
  rw [forall_cells]
  refine ⟨?_, ?_, ?_, ?_, ?_⟩ <;> omega

/-- There is room for a dead end behind a cell. -/
theorem exists_paintable (has : a.Across s) (hentry : entry.Paintable) (hahead : entry.Room a 2)
    (hside : entry.Room s 1) :
    ∃ site : DeadEnd.Site entry a s, ∀ c ∈ site.cells, c.Paintable := by
  obtain ⟨near, hnear, hpnear, hroom⟩ := hahead.step hentry
  obtain ⟨far, hfar, hpfar, -⟩ := hroom.step hpnear
  obtain ⟨sideEntry, hsideEntry, hpe, -⟩ := hside.step hentry
  have hsnear : near.Room s 1 := hside.congr (Pos.reach_step_across hnear has)
  have hsfar : far.Room s 1 := hsnear.congr (Pos.reach_step_across hfar has)
  obtain ⟨sideNear, hsideNear, hpn, -⟩ := hsnear.step hpnear
  obtain ⟨sideFar, hsideFar, hpf, -⟩ := hsfar.step hpfar
  refine ⟨⟨near, far, sideNear, sideFar, sideEntry, hnear, hfar, hsideEntry, hsideNear,
    hsideFar⟩, ?_⟩
  exact (forall_cells _).mpr ⟨hpnear, hpfar, hpn, hpf, hpe⟩

end DeadEnd.Site

end Geometry

namespace Pen

variable {pen : Pen} {input : Array UInt8} {n : ℕ} {a s d : Direction} {t p q entry : Pos}
  {ps before : List Pos}

/-! ### The cells -/

/-- The pen is filling the dead end: beyond the place `t` there is nothing but the white cell and
the block that is being painted. -/
structure Filling (input : Array UInt8) (n : ℕ) (a s : Direction) (t entry : Pos) (pen : Pen) :
    Prop where
  inside : ∃ past, pen.AtBlock input past n
  shown : ∀ q, Beyond a s t q → pen.canvas.get? q ≠ none → q = entry ∨ q ∈ pen.block.pixels
  entry : pen.canvas.get? entry = some .white

/-- A cell that lies deep enough can be added to the block. -/
theorem Filling.grow (has : a.Across s) (h : Filling input n a s t entry pen)
    (hdeep : Deep a s t p) (hrange : p.Paintable) (hne : p ≠ entry) (hnot : p ∉ pen.block.pixels)
    (hq : q ∈ pen.block.pixels) (hstep : q.step d = some p) :
    ∃ pen', pen.paint (.op .noop) p = (pen', none) ∧ Filling input n a s t entry pen' ∧
      pen'.block = pen.block.push p := by
  obtain ⟨⟨past, hin⟩, hshown, hentry⟩ := h
  have hblank : pen.canvas.get? p = none := by
    by_contra hpainted
    exact (hshown p hdeep.beyond hpainted).elim hne hnot
  have hapart : ∀ i, Ink.op .noop = .op i → ¬ pen.Merges i p := by
    rintro i ⟨⟩ ⟨e, -, r, hr, hlook, hor⟩
    rw [Shade.shift_noop] at hlook
    have hpainted := Option.ne_none_iff_exists'.mpr ⟨_, hlook⟩
    rcases hshown r (hdeep.beyond_step has hr) hpainted with rfl | hmem
    · rw [hentry] at hlook
      cases hlook
    · rcases hor with hs | hhas
      · exact hs.elim hin.not_onWhite fun hne => hne rfl
      · exact hhas hmem
  have hfree : pen.Free (.op .noop) p := ⟨hblank, hrange, hapart⟩
  have hblock : (pen.lay (.op .noop) p).block = pen.block.push p := by
    rw [lay_noop hin.not_onWhite]
  refine ⟨_, paint_eq hfree, ⟨⟨past, hin.grow hfree hq hstep⟩, fun r hr hpainted => ?_,
    white_lay hfree hentry⟩, hblock⟩
  rw [hblock, Block.mem_pixels_push]
  by_cases hrp : r = p
  · exact .inr (.inr hrp)
  · rw [(painted_lay hfree).frame r hrp] at hpainted
    exact (hshown r hr hpainted).imp_right .inl

theorem paintAll_cons {pen' : Pen} {ink : Ink} (h : pen.paint ink p = (pen', none))
    (ps : List Pos) : pen.paintAll ink (p :: ps) = pen'.paintAll ink ps := by
  rw [paintAll, h]

/-- Cells that lie deep enough can be added one after another. -/
theorem Filling.paintAll (has : a.Across s) (h : Filling input n a s t entry pen)
    (hdeep : ∀ p ∈ ps, Deep a s t p) (hrange : ∀ p ∈ ps, p.Paintable) (hnodup : ps.Nodup)
    (hnew : ∀ p ∈ ps, p ≠ entry ∧ p ∉ pen.block.pixels)
    (hbefore : ∀ q ∈ before, q ∈ pen.block.pixels) (hattached : Attached before ps) :
    ∃ pen', pen.paintAll (.op .noop) ps = (pen', none) := by
  induction ps generalizing pen before with
  | nil => exact ⟨pen, rfl⟩
  | cons p ps ih =>
    obtain ⟨⟨q, hq, d, hstep⟩, hattached⟩ := hattached
    obtain ⟨hdeep, hdeeps⟩ := List.forall_mem_cons.mp hdeep
    obtain ⟨hrange, hranges⟩ := List.forall_mem_cons.mp hrange
    obtain ⟨hp, hnodup⟩ := List.nodup_cons.mp hnodup
    obtain ⟨⟨hne, hnot⟩, hnews⟩ := List.forall_mem_cons.mp hnew
    obtain ⟨pen₁, hpaint, h₁, hblock⟩ := h.grow has hdeep hrange hne hnot (hbefore q hq) hstep
    have hmem : ∀ r, r ∈ pen₁.block.pixels ↔ r ∈ pen.block.pixels ∨ r = p := fun r => by
      rw [hblock, Block.mem_pixels_push]
    have hnews' : ∀ r ∈ ps, r ≠ entry ∧ r ∉ pen₁.block.pixels := by
      intro r hr
      rw [hmem]
      exact ⟨(hnews r hr).1, not_or.mpr ⟨(hnews r hr).2, ne_of_mem_of_not_mem hr hp⟩⟩
    have hbefore' : ∀ r ∈ p :: before, r ∈ pen₁.block.pixels := by
      intro r hr
      rw [hmem]
      exact (List.mem_cons.mp hr).symm.imp_left (hbefore r)
    obtain ⟨pen', hrest⟩ := ih h₁ hdeeps hranges hnodup hnews' hbefore' hattached
    exact ⟨pen', (paintAll_cons hpaint ps).trans hrest⟩

/-- The cells of a dead end can be painted after the first of them has been. -/
theorem Filling.fill (has : a.Across s) (hentry : t.step a = some entry)
    (site : DeadEnd.Site entry a s) (hrange : ∀ c ∈ site.cells, c.Paintable)
    (h : Filling input n a s t entry pen) (hfirst : ∀ q, q ∈ pen.block.pixels ↔ q = site.near) :
    ∃ pen', pen.paintAll (.op .noop) [site.far, site.sideNear, site.sideFar, site.sideEntry] =
      (pen', none) := by
  obtain ⟨hwhite, hcells⟩ := List.nodup_cons.mp (site.nodup has)
  obtain ⟨hnear, hnodup⟩ := List.nodup_cons.mp hcells
  have hothers : ∀ p ∈ [site.far, site.sideNear, site.sideFar, site.sideEntry], p ∈ site.cells :=
    fun p hp => List.mem_cons_of_mem site.near hp
  refine h.paintAll has (fun p hp => site.deep has hentry p (hothers p hp))
    (fun p hp => hrange p (hothers p hp)) hnodup (fun p hp => ?_) (by simp [hfirst])
    (site.attached has (hrange _ (by simp [DeadEnd.Site.cells])))
  rw [hfirst]
  exact ⟨ne_of_mem_of_not_mem (hothers p hp) hwhite, ne_of_mem_of_not_mem hp hnear⟩

/-- Beyond the tip of a ready pen nothing has been painted, if nothing has on that side of it. -/
theorem Ready.blank_beyond (h : Ready input n pen) (has : pen.shadow.dp.Across s)
    (hside : ∀ q, pen.canvas.get? q ≠ none → s.reach q ≤ s.reach pen.tip)
    (hq : Beyond pen.shadow.dp s pen.tip q) : pen.canvas.get? q = none := by
  by_contra hpainted
  have hle := hside q hpainted
  rcases hq with hlt | ⟨hlt, hback⟩
  · omega
  · have hclear := h.clear q hpainted fun e he => by
      rcases has.eq_or he with rfl | rfl
      · omega
      · rw [Direction.reach_back, Direction.reach_back]
        omega
    omega

/-- The white cell in front of the tip and the first cell of the dead end. -/
theorem Ready.begin_filling (h : Ready input n pen) (hw : ¬ pen.OnWhite)
    (has : pen.shadow.dp.Across s)
    (hside : ∀ q, pen.canvas.get? q ≠ none → s.reach q ≤ s.reach pen.tip)
    (hahead : pen.tip.Room pen.shadow.dp 3) (hbeside : pen.tip.Room s 1) :
    ∃ pen₁ pen₂, pen.advance .white = (pen₁, none) ∧
      pen.tip.step pen.shadow.dp = some pen₁.tip ∧
      (∀ q, Beyond pen.shadow.dp s pen.tip q → q ≠ pen₁.tip → pen₁.canvas.get? q = none) ∧
      ∃ site : DeadEnd.Site pen₁.tip pen.shadow.dp s, (∀ c ∈ site.cells, c.Paintable) ∧
        pen₁.paint (.op .noop) site.near = (pen₂, none) ∧
        Filling input (n + 2) pen.shadow.dp s pen.tip pen₁.tip pen₂ ∧
        ∀ q, q ∈ pen₂.block.pixels ↔ q = site.near := by
  obtain ⟨p, hadvance, htraced, halong, hp, hstep⟩ :=
    h.advance hahead Ink.white_ne_black
  rw [paces, if_neg hw] at htraced
  have hready : Ready input (n + 1) (pen.lay .white p) := ⟨htraced, h.clear.along halong rfl, hp⟩
  have hwhite := pen.onWhite_lay_white p
  have hentry := hready.traced.look_tip
  rw [hwhite] at hentry
  have hblank : ∀ q, Beyond pen.shadow.dp s pen.tip q → q ≠ (pen.lay .white p).tip →
      (pen.lay .white p).canvas.get? q = none := by
    intro q hq hne
    by_contra hpainted
    rcases halong.painted q hpainted with hold | ⟨hlt, hle, hline⟩
    · exact hold (h.blank_beyond has hside hq)
    · have hahead := halong.ahead
      exact hne (has.ext (by omega) ((hline s has).trans (halong.beside s has).symm))
  have hroom : (pen.lay .white p).tip.Room pen.shadow.dp 2 := halong.room hahead
  have hroom' : (pen.lay .white p).tip.Room s 1 := hbeside.congr (halong.beside s has)
  obtain ⟨site, hrange⟩ := DeadEnd.Site.exists_paintable has hp hroom hroom'
  have hnear : site.near ∈ site.cells := List.mem_cons_self
  have hfree := hready.free site.near_eq (hrange _ hnear) (.op .noop)
  have hs : (pen.lay .white p).Starts .noop := .inl hwhite
  have hfirst : ∀ q, q ∈ ((pen.lay .white p).lay (.op .noop) site.near).block.pixels ↔
      q = site.near := by
    intro q
    rw [block_lay_op hs]
    exact Array.mem_singleton
  have htraced' := hready.traced.paint (hready.traced.suits_front site.near_eq (.op .noop)) hfree
  rw [paces, if_pos hs] at htraced'
  refine ⟨_, _, hadvance, hstep, hblank, site, hrange, paint_eq hfree, ⟨?_, ?_, ?_⟩, hfirst⟩
  · exact htraced'.atBlock (not_onWhite_lay_op hs site.near)
  · intro q hq hpainted
    rw [hfirst]
    by_cases hqn : q = site.near
    · exact .inr hqn
    · rw [(painted_lay hfree).frame q hqn] at hpainted
      by_contra hor
      exact hpainted (hblank q hq fun he => hor (.inl he))
  · exact white_lay hfree hentry

/-- Walls can be painted wherever there is room for them. -/
theorem exists_paintWalls (pen : Pen) {walls : List Pos} (hrange : ∀ w ∈ walls, w.Paintable) :
    ∃ pen', pen.paintWalls walls = (pen', none) := by
  induction walls generalizing pen with
  | nil => exact ⟨pen, rfl⟩
  | cons w walls ih =>
    obtain ⟨hw, hwalls⟩ := List.forall_mem_cons.mp hrange
    rw [paintWalls_eq_goOn]
    split
    · exact ih pen hwalls
    · next hnone =>
      have hfree : pen.Free .black w :=
        ⟨Option.not_isSome_iff_eq_none.mp hnone, hw, by rintro _ ⟨⟩⟩
      rw [paint_eq hfree]
      exact ih _ hwalls

/-- **A pen with enough room can be closed.**  Two more steps lead into a block without a way out,
and the machine stays as it was. -/
theorem Ready.close (h : Ready input n pen) (hw : ¬ pen.OnWhite) {bearing : Bearing}
    (hs : pen.shadow.dp.rotate bearing.turns = s) (has : pen.shadow.dp.Across s)
    (hside : ∀ q, pen.canvas.get? q ≠ none → s.reach q ≤ s.reach pen.tip)
    (hahead : pen.tip.Room pen.shadow.dp 3) (hbeside : pen.tip.Room s 1)
    (hsmall : pen.tip.y + 5 < Canvas.maxHeight ∧ pen.tip.x + 5 < Canvas.maxWidth) :
    ∃ pen', pen.close bearing = (pen', none) ∧ Finished input (n + 2) pen' ∧
      pen'.shadow = pen.shadow := by
  subst hs
  obtain ⟨pen₁, pen₂, hadvance, hstep, hblank, site, hrange, hpaint, hfilling, hfirst⟩ :=
    h.begin_filling hw has hside hahead hbeside
  obtain ⟨pen₃, hfill⟩ := hfilling.fill has hstep site hrange hfirst
  have hcells : pen₁.paintAll (.op .noop) site.cells = (pen₃, none) :=
    (paintAll_cons hpaint _).trans hfill
  have hclear : ∀ w ∈ site.walls, ¬ pen₁.Occupied w := by
    intro w hwall hoccupied
    obtain ⟨hne, c, hc, d, hcw⟩ := site.exists_step_of_mem_walls has hwall
    exact hoccupied.1 (hblank w ((site.deep has hstep c hc).beyond_step has hcw) hne)
  have hsteps := Pos.step_le hstep
  have hpaintable : ∀ w ∈ site.walls, w.Paintable := by
    intro w hwall
    obtain ⟨-, c, hc, d, hcw⟩ := site.exists_step_of_mem_walls has hwall
    have hle := site.cells_le c hc
    have hle' := Pos.step_le hcw
    exact ⟨by omega, by omega⟩
  obtain ⟨pen', hwalls⟩ := pen₃.exists_paintWalls hpaintable
  have hclose : pen.close bearing = (pen', none) :=
    close_eq_iff.mpr ⟨pen₁, _, pen₃, hadvance, site.behind?_eq, hclear, hcells, hwalls⟩
  have hpaces : pen.paces .white = 1 := if_neg hw
  obtain ⟨hfinished, hshadow⟩ := h.traced.close hclose
  rw [hpaces] at hfinished
  exact ⟨pen', hclose, hfinished, hshadow⟩

end Pen

end Piet
