import Piet.Block.Atlas
import Piet.Error
import Piet.Machine.Basic
import Piet.Paint.Canvas

/-!
# Painting programs with a pen

A pen paints a program cell by cell and runs it at the same time on a shadow machine, so that
its tip is always at the pixel from which a pointer that has come this far looks ahead.

Each cell is painted in two parts: `Pen.obstacle?` says what keeps it from being painted, if
anything, and `Pen.lay` paints it.  A cell that cannot be painted leaves the pen as it was.
Strokes and the closing dead end consist of several cells, and what was painted before one of
them failed stays.
-/

namespace Piet

/-- What to paint into a cell.  An instruction is painted in the shade that executes it when
the pointer comes from the current block; the instruction that does nothing enlarges the
current block instead. -/
inductive Ink where
  | white
  | black
  | op (i : Instruction)
deriving DecidableEq, Inhabited

/-- The ink for the rest of a stroke: an instruction is executed once, after which its block
only grows. -/
def Ink.continued : Ink → Ink
  | .op _ => .op .noop
  | ink => ink

/-- A place next to the tip of the pen, as seen in its direction. -/
inductive Bearing where
  | front
  | right
  | back
  | left
  | frontRight
  | backRight
  | backLeft
  | frontLeft
deriving DecidableEq, Inhabited

namespace Bearing

/-- The quarter turns from the front, for a diagonal one those of its first leg. -/
def turns : Bearing → Int
  | front | frontRight => 0
  | right | backRight => 1
  | back | backLeft => 2
  | left | frontLeft => 3

/-- Whether a place touches only at a corner. -/
def IsDiagonal (b : Bearing) : Prop :=
  b = frontRight ∨ b = backRight ∨ b = backLeft ∨ b = frontLeft

instance (b : Bearing) : Decidable b.IsDiagonal :=
  inferInstanceAs (Decidable (_ ∨ _))

/-- The place that lies at a bearing.  Diagonal ones are reached in two legs, the second of
which is a quarter turn clockwise from the first. -/
def place? (b : Bearing) (p : Pos) (dp : Direction) : Option Pos :=
  let d := dp.rotate b.turns
  if b.IsDiagonal then
    (p.step d).bind fun q => q.step d.clockwise
  else
    p.step d

end Bearing

/-- A pen in the middle of a program. -/
structure Pen where
  /-- What has been painted. -/
  canvas : Canvas
  /-- The shade of the last block that was not white. -/
  shade : Shade
  /-- The block that is being painted. -/
  block : Block
  /-- The pixel from which the pointer looks ahead. -/
  tip : Pos
  /-- The machine after the instructions painted so far. -/
  shadow : Machine
  /-- The instructions that the machine ignored. -/
  notices : Array Notice

namespace Pen

/-- A pen that has painted the top left pixel in light red.  The bytes are those that the
finished program will read. -/
def start (input : Array UInt8) : Pen :=
  let shade := Shade.ofInts 0 0
  ⟨Canvas.empty.set .origin (.shade shade), shade, .single (.shade shade) .origin, .origin,
    .start input, #[]⟩

/-- The block that is being painted is a stretch of white. -/
def OnWhite (pen : Pen) : Prop :=
  pen.block.color = .white

instance (pen : Pen) : Decidable pen.OnWhite :=
  inferInstanceAs (Decidable (_ = _))

/-- Painting an instruction begins a new block: always after white, otherwise unless it only
enlarges the current one. -/
def Starts (pen : Pen) (i : Instruction) : Prop :=
  pen.OnWhite ∨ i ≠ .noop

instance (pen : Pen) (i : Instruction) : Decidable (pen.Starts i) :=
  inferInstanceAs (Decidable (_ ∨ _))

/-- A cell of this shade would touch one of the same shade that does not belong to its block. -/
def Merges (pen : Pen) (i : Instruction) (p : Pos) : Prop :=
  ∃ d ∈ Direction.all, ∃ q ∈ p.step d,
    pen.canvas.get? q = some (.shade (pen.shade.shift i.change)) ∧
      (pen.Starts i ∨ ¬ pen.block.Has q)

instance (pen : Pen) (i : Instruction) (p : Pos) : Decidable (pen.Merges i p) :=
  inferInstanceAs (Decidable (∃ d ∈ Direction.all, _))

/-- What keeps a cell from being painted. -/
def obstacle? (pen : Pen) (ink : Ink) (p : Pos) : Option Error :=
  if (pen.canvas.get? p).isSome then
    some (.overlap p)
  else if ¬ p.Paintable then
    some (.outOfRange p)
  else
    match ink with
    | .op i => if pen.Merges i p then some (.merge p) else none
    | _ => none

/-- Executes an instruction on the shadow machine, which may write without bound. -/
def execute (pen : Pen) (i : Instruction) : Pen :=
  match pen.shadow.execute i pen.block.size with
  | (shadow, .ignored fault) =>
    { pen with shadow := shadow, notices := pen.notices.push ⟨i, fault⟩ }
  | (shadow, _) => { pen with shadow := shadow }

/-- Paints a cell that nothing keeps from being painted.  Black cells are walls, off the way of
the pointer; the others move the tip.  While a block grows, the tip stays at its exit, since
neither the direction nor the chooser changes. -/
def lay (pen : Pen) (ink : Ink) (p : Pos) : Pen :=
  match ink with
  | .black => { pen with canvas := pen.canvas.set p .black }
  | .white =>
    let block := if pen.OnWhite then pen.block.push p else .single .white p
    { pen with canvas := pen.canvas.set p .white, block := block, tip := p }
  | .op i =>
    let shade := pen.shade.shift i.change
    if pen.Starts i then
      let pen := if pen.OnWhite then pen else pen.execute i
      { pen with
        canvas := pen.canvas.set p (.shade shade)
        shade := shade
        block := .single (.shade shade) p
        tip := p }
    else
      { pen with
        canvas := pen.canvas.set p (.shade shade)
        block := pen.block.push p
        tip := (Heading.of pen.shadow.dp pen.shadow.cc).further pen.tip p }

/-- Paints a cell, or tells why it cannot be painted. -/
def paint (pen : Pen) (ink : Ink) (p : Pos) : Pen × Option Error :=
  match pen.obstacle? ink p with
  | some e => (pen, some e)
  | none => (pen.lay ink p, none)

/-- Paints the cell that the pointer enters next. -/
def advance (pen : Pen) (ink : Ink) : Pen × Option Error :=
  match pen.tip.step pen.shadow.dp with
  | some p => pen.paint ink p
  | none => (pen, some .offCanvas)

/-- Paints so many cells, each where the pointer goes next. -/
def stroke (pen : Pen) (ink : Ink) : (count : Nat) → Pen × Option Error
  | 0 => (pen, none)
  | count + 1 =>
    match pen.advance ink with
    | (pen, none) => stroke pen ink.continued count
    | (pen, some e) => (pen, some e)

/-- Paints the cell at a bearing. -/
def paintAt (pen : Pen) (ink : Ink) (b : Bearing) : Pen × Option Error :=
  match b.place? pen.tip pen.shadow.dp with
  | some p => pen.paint ink p
  | none => (pen, some .offCanvas)

/-- Paints some cells one after another. -/
def paintAll (pen : Pen) (ink : Ink) : List Pos → Pen × Option Error
  | [] => (pen, none)
  | p :: ps =>
    match pen.paint ink p with
    | (pen, none) => paintAll pen ink ps
    | (pen, some e) => (pen, some e)

/-- Paints black those of some cells that have not been painted yet. -/
def paintWalls (pen : Pen) : List Pos → Pen × Option Error
  | [] => (pen, none)
  | p :: ps =>
    if (pen.canvas.get? p).isSome then
      paintWalls pen ps
    else
      match pen.paint .black p with
      | (pen, none) => paintWalls pen ps
      | (pen, some e) => (pen, some e)

end Pen

/-- A block that the pointer cannot leave, and the walls around it. -/
structure DeadEnd where
  cells : List Pos
  walls : List Pos

namespace DeadEnd

/-- The dead end behind a white cell.  It has two cells ahead of the white one and three in the
row beside them, the last of which lies beside the white cell itself, so that no exit points at
the way in.  None if one of its cells has no address. -/
def behind? (entry : Pos) (ahead side : Direction) : Option DeadEnd := do
  let near ← entry.step ahead
  let far ← near.step ahead
  let sideEntry ← entry.step side
  let sideNear ← near.step side
  let sideFar ← far.step side
  let back := ahead.rotate 2
  let other := side.rotate 2
  let walls := [far.step ahead, sideFar.step ahead, sideEntry.step back, sideEntry.step side,
    sideNear.step side, sideFar.step side, near.step other, far.step other]
  some ⟨[near, far, sideNear, sideFar, sideEntry], walls.filterMap id⟩

end DeadEnd

namespace Pen

/-- A cell has been painted in another colour than black. -/
def Occupied (pen : Pen) (p : Pos) : Prop :=
  pen.canvas.get? p ≠ none ∧ pen.canvas.get? p ≠ some .black

instance (pen : Pen) (p : Pos) : Decidable (pen.Occupied p) :=
  inferInstanceAs (Decidable (_ ∧ _))

/-- Ends the program: one white cell and a dead end behind it, which extends to the given side
of the direction. -/
def close (pen : Pen) (b : Bearing) : Pen × Option Error :=
  let ahead := pen.shadow.dp
  match pen.advance .white with
  | (pen, some e) => (pen, some e)
  | (pen, none) =>
    match DeadEnd.behind? pen.tip ahead (ahead.rotate b.turns) with
    | none => (pen, some .offCanvas)
    | some deadEnd =>
      -- No wall can stand where something else has been painted.
      match deadEnd.walls.find? fun p => pen.Occupied p with
      | some p => (pen, some (.overlap p))
      | none =>
        match pen.paintAll (.op .noop) deadEnd.cells with
        | (pen, none) => pen.paintWalls deadEnd.walls
        | (pen, some e) => (pen, some e)

end Pen

end Piet
