import Piet.Proofs.Paint.Kept

/-!
# Which cells belong together

A chronicle lists the cells that a pen has painted, the latest one first, and marks those with which
the pen left the block that it had been painting (`Pen.Chronicle`).  Whatever commands a pen is
given, wherever they paint and whether they fail or not, neighbours of the same shade were painted
as parts of one block (`Pen.Chronicle.together`).  A block need not hang together; but no cell
outside of the current block touches one inside in the same shade (`Pen.Whole`), so the region of a
cell that the pen has left never changes (`Pen.Left.region_lay`).

`Pen.blocks_apart` puts this together.
-/

namespace Piet

open Relation

namespace Pen

variable {pen : Pen} {input : Array UInt8} {ink : Ink} {p q r c : Pos} {d : Direction} {s : Shade}

/-! ### Chronicles -/

/-- Painting a cell in this ink leaves the block that the pen has been painting: it goes to white or
begins another block. -/
def Leaves (pen : Pen) : Ink → Prop
  | .white => ¬ pen.OnWhite
  | .black => False
  | .op i => pen.Starts i

instance (pen : Pen) : (ink : Ink) → Decidable (pen.Leaves ink)
  | .white => inferInstanceAs (Decidable (¬ pen.OnWhite))
  | .black => inferInstanceAs (Decidable False)
  | .op i => inferInstanceAs (Decidable (pen.Starts i))

/-- A cell that has been painted, its colour, and whether the pen left a block with it. -/
structure Mark where
  place : Pos
  color : Color
  leaves : Bool
deriving DecidableEq

/-- The mark of a cell that is about to be painted. -/
def mark (pen : Pen) (ink : Ink) (p : Pos) : Mark :=
  ⟨p, pen.colorOf ink, pen.Leaves ink⟩

/-- How a pen has come to what it has painted, cell by cell, the latest one first. -/
inductive Chronicle (input : Array UInt8) : List Mark → Pen → Prop
  | start : Chronicle input [⟨.origin, .shade (.ofInts 0 0), true⟩] (.start input)
  | lay {marks : List Mark} {pen : Pen} {ink : Ink} {p : Pos} (h : Chronicle input marks pen)
      (hfree : pen.Free ink p) : Chronicle input (pen.mark ink p :: marks) (pen.lay ink p)

/-- A cell has been painted, and no block has been left since. -/
def Recent (marks : List Mark) (q : Pos) : Prop :=
  ∃ later m earlier, marks = later ++ m :: earlier ∧ m.place = q ∧ ∀ x ∈ later, ¬ x.leaves

/-- Two cells were painted as parts of one block: from the one painted first until the other was
painted, no block was left. -/
def Together (marks : List Mark) (p q : Pos) : Prop :=
  ∃ later m between m' earlier, marks = later ++ m :: (between ++ m' :: earlier) ∧
    (∀ x ∈ m :: between, ¬ x.leaves) ∧
    (m.place = p ∧ m'.place = q ∨ m.place = q ∧ m'.place = p)

theorem Recent.cons {marks : List Mark} {x : Mark} (h : Recent marks q) (hx : ¬ x.leaves) :
    Recent (x :: marks) q := by
  obtain ⟨later, m, earlier, rfl, hplace, hlater⟩ := h
  exact ⟨x :: later, m, earlier, rfl, hplace, List.forall_mem_cons.mpr ⟨hx, hlater⟩⟩

theorem Recent.together {marks : List Mark} {x : Mark} (h : Recent marks q) (hx : ¬ x.leaves) :
    Together (x :: marks) x.place q ∧ Together (x :: marks) q x.place := by
  obtain ⟨later, m, earlier, rfl, rfl, hlater⟩ := h
  have hleaves : ∀ y ∈ x :: later, ¬ y.leaves := List.forall_mem_cons.mpr ⟨hx, hlater⟩
  exact ⟨⟨[], x, later, m, earlier, rfl, hleaves, .inl ⟨rfl, rfl⟩⟩,
    ⟨[], x, later, m, earlier, rfl, hleaves, .inr ⟨rfl, rfl⟩⟩⟩

theorem Together.cons {marks : List Mark} (h : Together marks p q) (x : Mark) :
    Together (x :: marks) p q := by
  obtain ⟨later, m, between, m', earlier, rfl, hleaves, hplaces⟩ := h
  exact ⟨x :: later, m, between, m', earlier, rfl, hleaves, hplaces⟩

/-! ### The pen after a cell -/

/-- A cell in a shade was painted by an instruction. -/
theorem exists_op_of_shade (h : pen.colorOf ink = .shade s) : ∃ i, ink = .op i := by
  cases ink with
  | white => exact absurd h.symm (Color.shade_ne_white s)
  | black => exact absurd h.symm (Color.shade_ne_black s)
  | op i => exact ⟨i, rfl⟩

/-- The cells of the current block, unless that is white: the new cell, and those of the block
before if it was not left. -/
theorem mem_block_lay (hw : ¬ (pen.lay ink p).OnWhite) :
    q ∈ (pen.lay ink p).block.pixels ↔
      q = p ∧ (∃ i, ink = .op i) ∨ ¬ pen.OnWhite ∧ ¬ pen.Leaves ink ∧ q ∈ pen.block.pixels := by
  cases ink with
  | white => exact absurd (pen.onWhite_lay_white p) hw
  | black =>
    have hnone : ¬ ∃ i, Ink.black = .op i := fun ⟨i, hi⟩ => Ink.op_ne_black i hi.symm
    have hstays : ¬ pen.OnWhite ∧ ¬ pen.Leaves .black := ⟨hw, id⟩
    rw [← and_assoc, and_iff_right hstays, or_iff_right fun h => hnone h.2]
    rfl
  | op i =>
    rw [and_iff_left ⟨i, rfl⟩]
    by_cases hs : pen.Starts i
    · have hleft : ¬ (¬ pen.OnWhite ∧ ¬ pen.Leaves (.op i) ∧ q ∈ pen.block.pixels) :=
        fun h => h.2.1 hs
      rw [block_lay_op hs, or_iff_left hleft]
      exact Array.mem_singleton
    · obtain ⟨rfl, hwhite⟩ := eq_noop_of_not_starts hs
      have hstays : ¬ pen.OnWhite ∧ ¬ pen.Leaves (.op .noop) := ⟨hwhite, hs⟩
      rw [lay_noop hwhite, ← and_assoc, and_iff_right hstays, or_comm]
      exact Block.mem_pixels_push

/-- The shade stays the same unless a block is left. -/
theorem shade_lay (hw : ¬ pen.OnWhite) (hleaves : ¬ pen.Leaves ink) (p : Pos) :
    (pen.lay ink p).shade = pen.shade := by
  cases ink with
  | white => exact absurd hw hleaves
  | black => rfl
  | op i =>
    obtain ⟨rfl, -⟩ := eq_noop_of_not_starts hleaves
    rw [shade_lay_op, Shade.shift_noop]

/-- **A new cell next to one of its shade enlarges the block of that cell.** -/
theorem Free.enlarges (hfree : pen.Free ink p)
    (hp : (pen.lay ink p).canvas.get? p = some (.shade s))
    (hr : (pen.lay ink p).canvas.get? r = some (.shade s))
    (hstep : p.step d = some r ∨ r.step d = some p) :
    ¬ pen.OnWhite ∧ ¬ pen.Leaves ink ∧ r ∈ pen.block.pixels := by
  have hlaid := painted_lay hfree
  have hcolor : pen.colorOf ink = .shade s := Option.some.inj (hlaid.after.symm.trans hp)
  obtain ⟨i, rfl⟩ := exists_op_of_shade hcolor
  have hne : r ≠ p := by
    rintro rfl
    exact hstep.elim (fun h => Pos.step_ne_self h rfl) fun h => Pos.step_ne_self h rfl
  rw [hlaid.frame r hne, ← hcolor] at hr
  have hgrows : ¬ pen.Starts i ∧ r ∈ pen.block.pixels :=
    hstep.elim (fun h => hfree.grows h hr) fun h => hfree.grows_back h hr
  exact ⟨(eq_noop_of_not_starts hgrows.1).2, hgrows⟩

/-! ### Neighbours of the same shade -/

/-- At the start, the cell at the origin has been painted and no other. -/
theorem get?_start (input : Array UInt8) (p : Pos) :
    (start input).canvas.get? p = if p = .origin then some (.shade (.ofInts 0 0)) else none := by
  rw [start, Canvas.get?_set (by decide), Canvas.get?_empty]

namespace Chronicle

variable {marks : List Mark}

/-- Each painted cell is marked once, with its colour. -/
theorem faithful (h : Chronicle input marks pen) :
    (marks.map Mark.place).Nodup ∧
      ∀ p k, pen.canvas.get? p = some k ↔ ∃ m ∈ marks, m.place = p ∧ m.color = k := by
  induction h with
  | start =>
    refine ⟨List.nodup_singleton _, fun p k => ?_⟩
    rw [get?_start]
    split
    · next hp => simp [hp]
    · next hp => simp [Ne.symm hp]
  | @lay marks pen ink c h hfree ih =>
    obtain ⟨hnodup, hmarks⟩ := ih
    have hlaid := painted_lay hfree
    have hnot : c ∉ marks.map Mark.place := by
      intro hc
      obtain ⟨m, hm, rfl⟩ := List.mem_map.mp hc
      have hpainted := (hmarks m.place m.color).mpr ⟨m, hm, rfl, rfl⟩
      rw [hfree.blank] at hpainted
      cases hpainted
    refine ⟨List.nodup_cons.mpr ⟨hnot, hnodup⟩, fun p k => ?_⟩
    rw [List.exists_mem_cons_iff]
    by_cases hp : p = c
    · subst hp
      have hold : ¬ ∃ m ∈ marks, m.place = p ∧ m.color = k := fun ⟨m, hm, hplace, _⟩ =>
        hnot (List.mem_map.mpr ⟨m, hm, hplace⟩)
      rw [hlaid.after, Option.some_inj, or_iff_left hold]
      exact (and_iff_right rfl).symm
    · have hother : ¬ ((pen.mark ink c).place = p ∧ (pen.mark ink c).color = k) :=
        fun h => hp h.1.symm
      rw [hlaid.frame p hp, hmarks, or_iff_right hother]

/-- The cells of the current block have been painted since the last one was left. -/
theorem recent (h : Chronicle input marks pen) (hw : ¬ pen.OnWhite) (hq : q ∈ pen.block.pixels) :
    Recent marks q := by
  induction h with
  | start =>
    obtain rfl : q = .origin := Array.mem_singleton.mp hq
    exact ⟨[], _, [], rfl, rfl, List.forall_mem_nil _⟩
  | @lay marks pen ink c h hfree ih =>
    rcases (mem_block_lay hw).mp hq with ⟨rfl, -⟩ | ⟨hw, hleaves, hq⟩
    · exact ⟨[], _, marks, rfl, rfl, List.forall_mem_nil _⟩
    · exact (ih hw hq).cons (mt of_decide_eq_true hleaves)

/-- **Neighbours of the same shade were painted as parts of one block.** -/
theorem together (h : Chronicle input marks pen) (hstep : p.step d = some q)
    (hp : pen.canvas.get? p = some (.shade s)) (hq : pen.canvas.get? q = some (.shade s)) :
    Together marks p q := by
  have hne : q ≠ p := Pos.step_ne_self hstep
  induction h with
  | start =>
    rw [get?_start] at hp hq
    split at hp
    · next horigin =>
      rw [if_neg (horigin ▸ hne)] at hq
      cases hq
    · cases hp
  | @lay marks pen ink c h hfree ih =>
    have hlaid := painted_lay hfree
    by_cases hpc : p = c
    · subst hpc
      obtain ⟨hw, hleaves, hmem⟩ := hfree.enlarges hp hq (.inl hstep)
      exact ((h.recent hw hmem).together (mt of_decide_eq_true hleaves)).1
    by_cases hqc : q = c
    · subst hqc
      obtain ⟨hw, hleaves, hmem⟩ := hfree.enlarges hq hp (.inr hstep)
      exact ((h.recent hw hmem).together (mt of_decide_eq_true hleaves)).2
    · rw [hlaid.frame p hpc] at hp
      rw [hlaid.frame q hqc] at hq
      exact (ih hp hq).cons _

theorem exists_commands (input : Array UInt8) (script : List Command) :
    ∃ marks, Chronicle input marks ((Pen.start input).commands script) := by
  have hkept : Kept fun pen => ∃ marks, Chronicle input marks pen :=
    fun _ _ _ ⟨_, h⟩ hfree => ⟨_, h.lay hfree⟩
  exact hkept.commands ⟨_, .start⟩ script

end Chronicle

/-! ### Regions that have been left -/

/-- The cells of a block have its shade, and no cell beside one of them has that shade as well but
is not in the block. -/
structure Whole (pen : Pen) : Prop where
  color : ∀ q ∈ pen.block.pixels, pen.canvas.get? q = some (.shade pen.shade)
  closed : ∀ q ∈ pen.block.pixels, ∀ d r, q.step d = some r →
    pen.canvas.get? r = some (.shade pen.shade) → r ∈ pen.block.pixels

/-- Unless the pen is on white, its block is whole. -/
theorem kept_whole : Kept fun pen => ¬ pen.OnWhite → pen.Whole := by
  intro pen ink c h hfree hw
  have hlaid := painted_lay hfree
  have hcolor : ∀ q ∈ (pen.lay ink c).block.pixels,
      (pen.lay ink c).canvas.get? q = some (.shade (pen.lay ink c).shade) := by
    intro q hq
    rcases (mem_block_lay hw).mp hq with ⟨rfl, i, rfl⟩ | ⟨hwhite, hleaves, hq⟩
    · rw [hlaid.after, colorOf, shade_lay_op]
    · rw [shade_lay hwhite hleaves]
      exact hlaid.keep ((h hwhite).color q hq)
  refine ⟨hcolor, fun q hq d r hstep hr => (mem_block_lay hw).mpr ?_⟩
  by_cases hrc : r = c
  · subst hrc
    have hink : pen.colorOf ink = .shade (pen.lay ink r).shade :=
      Option.some.inj (hlaid.after.symm.trans hr)
    exact .inl ⟨rfl, exists_op_of_shade hink⟩
  rcases (mem_block_lay hw).mp hq with ⟨rfl, -⟩ | ⟨hwhite, hleaves, hq⟩
  · exact .inr (hfree.enlarges (hcolor q hq) hr (.inl hstep))
  · rw [hlaid.frame r hrc, shade_lay hwhite hleaves] at hr
    exact .inr ⟨hwhite, hleaves, (h hwhite).closed q hq d r hstep hr⟩

theorem whole_start (input : Array UInt8) : (start input).Whole := by
  constructor
  · intro q hq
    obtain rfl : q = .origin := Array.mem_singleton.mp hq
    exact get?_start input .origin
  · intro q _ d r _ hr
    rw [get?_start] at hr
    split at hr
    · next horigin => exact Array.mem_singleton.mpr horigin
    · cases hr

/-- A cell of this shade that is not in the current block. -/
structure Left (pen : Pen) (s : Shade) (p : Pos) : Prop where
  color : pen.canvas.get? p = some (.shade s)
  outside : pen.OnWhite ∨ p ∉ pen.block.pixels

namespace Left

/-- The pen never comes back. -/
theorem lay (h : pen.Left s p) (hfree : pen.Free ink c) : (pen.lay ink c).Left s p := by
  refine ⟨(painted_lay hfree).keep h.color, or_iff_not_imp_left.mpr fun hw hmem => ?_⟩
  rcases (mem_block_lay hw).mp hmem with ⟨rfl, -⟩ | ⟨hwhite, -, hmem⟩
  · have hblank := hfree.blank
    rw [h.color] at hblank
    cases hblank
  · exact h.outside.elim hwhite fun hnot => hnot hmem

/-- With one cell of a region the others have been left. -/
theorem joined (hwhole : ¬ pen.OnWhite → pen.Whole) (h : pen.Left s p)
    (hpq : ReflTransGen (Joins pen.canvas.get?) p q) : pen.Left s q := by
  induction hpq with
  | refl => exact h
  | @tail r q _ hjoin hr =>
    obtain ⟨⟨d, hstep⟩, hlook⟩ := hjoin
    have hq := hlook.trans hr.color
    refine ⟨hq, or_iff_not_imp_left.mpr fun hw hmem => ?_⟩
    have hshade : pen.canvas.get? r = some (.shade pen.shade) :=
      hlook.symm.trans ((hwhole hw).color q hmem)
    have hback : q.step d.back = some r := Pos.step_back (pen.canvas.bounded r _ hr.color) hstep
    exact hr.outside.elim hw fun hnot => hnot ((hwhole hw).closed q hmem _ r hback hshade)

/-- **A region that has been left does not change.** -/
theorem region_lay (hwhole : ¬ pen.OnWhite → pen.Whole) (h : pen.Left s p)
    (hfree : pen.Free ink c) :
    ReflTransGen (Joins (pen.lay ink c).canvas.get?) p q ↔
      ReflTransGen (Joins pen.canvas.get?) p q := by
  have hlaid := painted_lay hfree
  refine ⟨fun hpq => ?_, hlaid.joins h.color⟩
  induction hpq with
  | refl => exact .refl
  | @tail r q _ hjoin ih =>
    obtain ⟨⟨d, hstep⟩, hlook⟩ := hjoin
    have hr := h.joined hwhole ih
    have hr' := hlaid.keep hr.color
    have hq := hlook.trans hr'
    -- The new cell would be beside one of its shade that the pen has left.
    have hqc : q ≠ c := by
      rintro rfl
      obtain ⟨hw, -, hmem⟩ := hfree.enlarges hq hr' (.inr hstep)
      exact hr.outside.elim hw fun hnot => hnot hmem
    rw [hlaid.frame q hqc] at hq
    exact ih.tail ⟨⟨d, hstep⟩, hq.trans hr.color.symm⟩

theorem region_commands (hwhole : ¬ pen.OnWhite → pen.Whole) (h : pen.Left s p)
    (script : List Command) (q : Pos) :
    ReflTransGen (Joins (pen.commands script).canvas.get?) p q ↔
      ReflTransGen (Joins pen.canvas.get?) p q := by
  have hkept : Kept fun pen' => (¬ pen'.OnWhite → pen'.Whole) ∧ pen'.Left s p ∧
      (ReflTransGen (Joins pen'.canvas.get?) p q ↔ ReflTransGen (Joins pen.canvas.get?) p q) := by
    rintro pen' ink c ⟨hwhole', h', hregion⟩ hfree
    exact ⟨kept_whole pen' ink c hwhole' hfree, h'.lay hfree,
      (h'.region_lay hwhole' hfree).trans hregion⟩
  exact (hkept.commands ⟨hwhole, h, Iff.rfl⟩ script).2.2

end Left

/-- **Blocks stay apart.**  After any commands, wherever they were to paint and whether they failed
or not, there is a chronicle of what has been painted.  In every such chronicle each painted cell is
marked once, and two neighbours of the same shade were painted as parts of one block.  So whatever
follows, the region of a cell outside of the current block keeps its size and shape. -/
theorem blocks_apart (input : Array UInt8) (script : List Command) :
    let pen := (start input).commands script
    (∃ marks, Chronicle input marks pen) ∧
    (∀ marks, Chronicle input marks pen →
      ((marks.map Mark.place).Nodup ∧
        ∀ p k, pen.canvas.get? p = some k ↔ ∃ m ∈ marks, m.place = p ∧ m.color = k) ∧
      ∀ p q d s, p.step d = some q → pen.canvas.get? p = some (.shade s) →
        pen.canvas.get? q = some (.shade s) → Together marks p q) ∧
    ∀ p s, pen.canvas.get? p = some (.shade s) → pen.OnWhite ∨ p ∉ pen.block.pixels →
      ∀ later q, ReflTransGen (Joins (pen.commands later).canvas.get?) p q ↔
        ReflTransGen (Joins pen.canvas.get?) p q := by
  intro pen
  have hwhole : ¬ pen.OnWhite → pen.Whole :=
    kept_whole.commands (fun _ => whole_start input) script
  refine ⟨Chronicle.exists_commands input script, fun marks h => ⟨h.faithful, ?_⟩, ?_⟩
  · intro p q d s hstep hp hq
    exact h.together hstep hp hq
  · intro p s hp houtside later q
    exact Left.region_commands hwhole ⟨hp, houtside⟩ later q

/-- After a cell and another one beside it, a third one begins a new block; painting a cell of the
shade of the first two below the first one is refused and leaves their region as it is. -/
theorem blocks_apart_threeCells :
    let pen := (start #[]).commands [.stroke (.op .noop) 1, .stroke (.op .push) 1]
    (∃ marks, Chronicle #[] marks pen ∧ Together marks .origin ⟨0, 1⟩) ∧
      ∀ q, ReflTransGen (Joins (pen.commands [.paint (.op .pop) ⟨1, 0⟩]).canvas.get?) .origin q ↔
        ReflTransGen (Joins pen.canvas.get?) .origin q := by
  intro pen
  obtain ⟨⟨marks, hmarks⟩, happart, hregion⟩ :=
    blocks_apart #[] [.stroke (.op .noop) 1, .stroke (.op .push) 1]
  have hfirst : pen.canvas.get? .origin = some (.shade (.ofInts 0 0)) := by decide +kernel
  have hsecond : pen.canvas.get? ⟨0, 1⟩ = some (.shade (.ofInts 0 0)) := by decide +kernel
  have houtside : Pos.origin ∉ pen.block.pixels := by decide +kernel
  exact ⟨⟨marks, hmarks, (happart marks hmarks).2 _ _ .right _ rfl hfirst hsecond⟩,
    hregion _ _ hfirst (.inr houtside) _⟩

end Pen

end Piet
