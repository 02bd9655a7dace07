import Piet.Paint.Pen
import Piet.Proofs.Machine.Execute
import Piet.Proofs.Paint.Canvas

/-!
# What painting one cell does

`Pen.Free` says that nothing keeps a cell from being painted, in the form in which proofs use it,
and `Pen.paint_eq` that a cell is then laid.  The equations after it give each part of the pen once
a cell has been laid.  An instruction that only enlarges a block executes nothing and keeps the
shade, so the shadow and the shade obey one equation for all instructions
(`Pen.shadow_lay_op`, `Pen.shade_lay_op`).
-/

namespace Piet

@[simp]
theorem Shade.shift_noop (s : Shade) : s.shift Instruction.noop.change = s := by
  have hchange : Instruction.noop.change = ⟨0, 0⟩ := rfl
  obtain ⟨l, h⟩ := s
  simp [Shade.shift, hchange]

@[simp]
theorem Color.instructionTo_shift (s : Shade) (i : Instruction) :
    (Color.shade s).instructionTo (.shade (s.shift i.change)) = i := by
  rw [Color.instructionTo, Shade.changeTo_shift, Instruction.ofChange_change]

theorem Ink.white_ne_black : Ink.white ≠ .black :=
  Ink.noConfusion

theorem Ink.op_ne_black (i : Instruction) : Ink.op i ≠ .black :=
  Ink.noConfusion

namespace Pen

variable {pen pen' : Pen} {ink : Ink} {i : Instruction} {p q : Pos} {d : Direction}

/-- The colour in which an ink is painted. -/
def colorOf (pen : Pen) : Ink → Color
  | .white => .white
  | .black => .black
  | .op i => .shade (pen.shade.shift i.change)

/-- The machine after the pointer has left the current block by an instruction. -/
def leave (pen : Pen) (i : Instruction) : Machine :=
  if pen.OnWhite then pen.shadow else (pen.shadow.execute i pen.block.size).1

/-- Nothing keeps a cell from being painted. -/
structure Free (pen : Pen) (ink : Ink) (p : Pos) : Prop where
  blank : pen.canvas.get? p = none
  paintable : p.Paintable
  apart : ∀ i, ink = .op i → ¬ pen.Merges i p

/-! ### Painting or not -/

theorem obstacle?_eq_none_iff : pen.obstacle? ink p = none ↔ pen.Free ink p := by
  have hblank : ¬ (pen.canvas.get? p).isSome ↔ pen.canvas.get? p = none := by
    rw [Option.not_isSome_iff_eq_none]
  constructor
  · intro h
    unfold obstacle? at h
    split at h
    · cases h
    · next hsome =>
      split at h
      · cases h
      · next hrange =>
        refine ⟨hblank.mp hsome, not_not.mp hrange, fun i hi hmerges => ?_⟩
        subst hi
        dsimp only at h
        rw [if_pos hmerges] at h
        cases h
  · rintro ⟨hnone, hrange, hapart⟩
    unfold obstacle?
    rw [if_neg (hblank.mpr hnone), if_neg (not_not.mpr hrange)]
    split
    · next i => exact if_neg (hapart i rfl)
    · rfl

theorem paint_eq (h : pen.Free ink p) : pen.paint ink p = (pen.lay ink p, none) := by
  rw [paint, obstacle?_eq_none_iff.mpr h]

/-- A cell that has been painted was free, and has been laid. -/
theorem paint_eq_iff : pen.paint ink p = (pen', none) ↔ pen.Free ink p ∧ pen.lay ink p = pen' := by
  refine ⟨fun h => ?_, fun ⟨hfree, hlay⟩ => hlay ▸ paint_eq hfree⟩
  rw [paint] at h
  split at h
  · cases h
  · next hnone =>
    cases h
    exact ⟨obstacle?_eq_none_iff.mp hnone, rfl⟩

/-- A cell that has been painted where the pointer goes next. -/
theorem exists_of_advance (h : pen.advance ink = (pen', none)) :
    ∃ p, pen.tip.step pen.shadow.dp = some p ∧ pen.Free ink p ∧ pen.lay ink p = pen' := by
  rw [advance] at h
  split at h
  · next p hstep => exact ⟨p, hstep, paint_eq_iff.mp h⟩
  · cases h

/-- A cell is laid or the pen stays as it was. -/
theorem paint_cases (pen : Pen) (ink : Ink) (p : Pos) :
    pen.Free ink p ∧ pen.paint ink p = (pen.lay ink p, none) ∨
      ∃ e, pen.paint ink p = (pen, some e) := by
  cases h : pen.obstacle? ink p with
  | none =>
    have hfree := obstacle?_eq_none_iff.mp h
    exact .inl ⟨hfree, paint_eq hfree⟩
  | some e => exact .inr ⟨e, by rw [paint, h]⟩

/-- Where a new cell touches one of its shade, it grows the block of that cell. -/
theorem Free.grows (h : pen.Free (.op i) p) (hstep : p.step d = some q)
    (hq : pen.canvas.get? q = some (pen.colorOf (.op i))) :
    ¬ pen.Starts i ∧ q ∈ pen.block.pixels := by
  have hmerges := h.apart i rfl
  have hnot : ¬ (pen.Starts i ∨ ¬ pen.block.Has q) := fun hor =>
    hmerges ⟨d, Direction.mem_all d, q, hstep, hq, hor⟩
  exact ⟨fun hs => hnot (.inl hs), not_not.mp fun hhas => hnot (.inr hhas)⟩

theorem Free.grows_back (h : pen.Free (.op i) p) (hstep : q.step d = some p)
    (hq : pen.canvas.get? q = some (pen.colorOf (.op i))) :
    ¬ pen.Starts i ∧ q ∈ pen.block.pixels :=
  h.grows (Pos.step_back (pen.canvas.bounded q _ hq) hstep) hq

/-! ### The pen after a cell -/

@[simp]
theorem shadow_execute (pen : Pen) (i : Instruction) :
    (pen.execute i).shadow = (pen.shadow.execute i pen.block.size).1 := by
  rw [execute]
  split <;> next h => rw [h]

@[simp]
theorem canvas_execute (pen : Pen) (i : Instruction) : (pen.execute i).canvas = pen.canvas := by
  rw [execute]
  split <;> rfl

theorem eq_noop_of_not_starts (h : ¬ pen.Starts i) : i = .noop ∧ ¬ pen.OnWhite :=
  ⟨not_not.mp fun hi => h (.inr hi), fun hw => h (.inl hw)⟩

theorem leave_noop (pen : Pen) : pen.leave .noop = pen.shadow := by
  rw [leave, Machine.execute_noop, ite_self]

theorem canvas_lay (pen : Pen) (ink : Ink) (p : Pos) :
    (pen.lay ink p).canvas = pen.canvas.set p (pen.colorOf ink) := by
  cases ink with
  | white => rfl
  | black => rfl
  | op i =>
    by_cases hs : pen.Starts i
    · by_cases hw : pen.OnWhite
      · simp only [lay, if_pos hs, if_pos hw, colorOf]
      · simp only [lay, if_pos hs, if_neg hw, colorOf, canvas_execute]
    · simp only [lay, if_neg hs, colorOf]

theorem shadow_lay_op (pen : Pen) (i : Instruction) (p : Pos) :
    (pen.lay (.op i) p).shadow = pen.leave i := by
  by_cases hs : pen.Starts i
  · by_cases hw : pen.OnWhite
    · simp only [lay, if_pos hs, if_pos hw, leave]
    · simp only [lay, if_pos hs, if_neg hw, leave, shadow_execute]
  · obtain ⟨rfl, -⟩ := eq_noop_of_not_starts hs
    rw [leave_noop]
    simp only [lay, if_neg hs]

theorem shade_lay_op (pen : Pen) (i : Instruction) (p : Pos) :
    (pen.lay (.op i) p).shade = pen.shade.shift i.change := by
  by_cases hs : pen.Starts i
  · simp only [lay, if_pos hs]
  · obtain ⟨rfl, -⟩ := eq_noop_of_not_starts hs
    rw [Shade.shift_noop]
    simp only [lay, if_neg hs]

theorem block_lay_op (hs : pen.Starts i) (p : Pos) :
    (pen.lay (.op i) p).block = .single (pen.colorOf (.op i)) p := by
  simp only [lay, if_pos hs, colorOf]

theorem not_onWhite_lay_op (hs : pen.Starts i) (p : Pos) : ¬ (pen.lay (.op i) p).OnWhite := by
  rw [OnWhite, block_lay_op hs]
  exact Color.shade_ne_white _

theorem tip_lay_op (hs : pen.Starts i) (p : Pos) : (pen.lay (.op i) p).tip = p := by
  simp only [lay, if_pos hs]

theorem onWhite_lay_white (pen : Pen) (p : Pos) : (pen.lay .white p).OnWhite := by
  by_cases hw : pen.OnWhite
  · have hblock : (pen.lay .white p).block = pen.block.push p := if_pos hw
    rw [OnWhite, hblock]
    exact hw
  · have hblock : (pen.lay .white p).block = .single .white p := if_neg hw
    rw [OnWhite, hblock]
    rfl

/-- A cell that enlarges the current block. -/
theorem lay_noop (hw : ¬ pen.OnWhite) (p : Pos) :
    pen.lay (.op .noop) p =
      { pen with
        canvas := pen.canvas.set p (.shade pen.shade)
        block := pen.block.push p
        tip := (Heading.of pen.shadow.dp pen.shadow.cc).further pen.tip p } := by
  have hs : ¬ pen.Starts .noop := fun h => h.elim hw fun hne => hne rfl
  simp only [lay, if_neg hs, Shade.shift_noop]

/-- What a cell shows once it has been laid. -/
theorem painted_lay (h : pen.Free ink p) :
    Painted pen.canvas.get? (pen.lay ink p).canvas.get? p (pen.colorOf ink) := by
  rw [canvas_lay]
  exact Canvas.painted_set h.paintable h.blank _

end Pen

end Piet
