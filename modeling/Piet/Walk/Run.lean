import Piet.Block.Atlas
import Piet.Machine.Basic

/-!
# Walking over a picture

A program is run by a pointer that walks from block to block.  In each step it leaves the
current block at the exit pixel and enters what lies ahead, which executes the instruction of
the change of shade.  White is crossed in one slide and executes nothing.  Where black or the
edge is ahead, the chooser is flipped and the direction turned alternately, until a way out is
found or all eight combinations have failed.

* `Walk.step` takes one step.  A step that cannot write its output is an error, after which the
  walk can go on: the block has been entered, but the step is not counted.
* `Walk.run` takes steps until the walk halts or cannot write, and `Grid.interpret` runs the
  program of a picture from the start.
-/

namespace Piet

/-! ### Steps and halts -/

/-- Why a walk has come to its end. -/
inductive Halt where
  | finished
  | stepLimit
deriving DecidableEq

/-- The written name of an end. -/
def Halt.name : Halt → String
  | finished => "Finished"
  | stepLimit => "StepLimit"

/-- A walk under way. -/
structure Walk where
  /-- The picture and its blocks. -/
  atlas : Atlas
  /-- The state the program works on. -/
  machine : Machine
  /-- The number of steps the walk may take. -/
  limit : Nat
  /-- The number of steps it has taken. -/
  steps : Nat
  /-- How often the chooser has been flipped since the last change of colour. -/
  flips : Nat
  /-- Whether the step before was a flip of the chooser. -/
  flipped : Bool
  /-- The pixel from which the pointer looks ahead. -/
  position : Pos
  /-- The block before the current one. -/
  last : Block
  /-- The block the pointer is in. -/
  current : Block

/-- What one step did. -/
structure Step where
  iteration : Nat
  position : Pos
  instruction : Instruction
  blocked : Bool
  flipped : Bool
  last : Block
  current : Block
  /-- Why the instruction was ignored, if it was. -/
  ignored : Option Fault

namespace Step

/-- The notice of the instruction that was ignored. -/
def notice? (s : Step) : Option Notice :=
  s.ignored.map fun fault => ⟨s.instruction, fault⟩

/-- A line that tells what a step did. -/
def text (s : Step) : String :=
  let did :=
    if s.blocked then
      if s.flipped then "blocked, flip" else "blocked, rotate"
    else
      s.instruction.name ++ " (" ++ toString s.last.size ++ " -> " ++ toString s.current.size ++
        " pixels)"
  "#" ++ toString s.iteration ++ " at " ++ s.position.text ++ ": " ++ did

end Step

/-- What a call for a step can lead to. -/
inductive Event where
  /-- The walk is at its end; nothing has changed. -/
  | halted (halt : Halt)
  /-- The step was taken. -/
  | continued (step : Step)
  /-- The output did not take all that was to be written. -/
  | sinkFull

/-! ### Looking ahead -/

namespace Grid

/-- The pointer can enter a pixel: it is inside the picture and not black. -/
def Open (g : Grid) (p : Pos) : Prop :=
  g.get? p ≠ none ∧ g.get? p ≠ some .black

instance (g : Grid) (p : Pos) : Decidable (g.Open p) :=
  inferInstanceAs (Decidable (_ ∧ _))

/-- The open neighbour of a pixel in a direction. -/
def ahead? (g : Grid) (p : Pos) (d : Direction) : Option Pos :=
  (p.step d).filter fun q => g.Open q

/-- Extends a stretch of white by the white pixels that follow it in a direction, at most
`fuel` of them. -/
def slide (g : Grid) (d : Direction) : (fuel : Nat) → Block → Block
  | 0, b => b
  | fuel + 1, b =>
    match b.final.step d with
    | none => b
    | some p => if g.get? p = some .white then slide g d fuel (b.push p) else b

/-- The stretch of white that begins at a pixel.  No stretch is longer than both sides of the
picture together. -/
def whiteFrom (g : Grid) (p : Pos) (d : Direction) : Block :=
  g.slide d (g.width + g.height) (.single .white p)

end Grid

namespace Color

/-- The instruction that moving from one colour into another executes.  Only a change between
two shades means anything. -/
def instructionTo : Color → Color → Instruction
  | shade s, shade t => .ofChange (s.changeTo t)
  | _, _ => .noop

/-- Moving between these colours ends the search for a way out: both are shades, or they
differ. -/
def Resets (c k : Color) : Prop :=
  c.shade?.isSome ∧ k.shade?.isSome ∨ c ≠ k

instance (c k : Color) : Decidable (Resets c k) :=
  inferInstanceAs (Decidable (_ ∧ _ ∨ _))

end Color

namespace Atlas

/-- What the pointer enters at an open pixel, and the pixel from which it looks ahead next: the
far end of a stretch of white, or the exit of a block. -/
def enter (a : Atlas) (p : Pos) (dp : Direction) (cc : Chooser) : Atlas × Option (Block × Pos) :=
  match a.grid.get? p with
  | some .white =>
    let b := a.grid.whiteFrom p dp
    (a, some (b, b.final))
  | _ =>
    match a.blockAt p with
    | (a, some b) => (a, some (b, b.exit dp cc))
    | (a, none) => (a, none)

end Atlas

namespace Walk

/-- The walk that begins at the top left pixel, unless the picture has none.  White at the
beginning counts as one pixel. -/
def start? (a : Atlas) (m : Machine) (limit : Nat) : Option Walk :=
  let (a, first) :=
    match a.grid.get? .origin with
    | some .white => (a, some (Block.single .white .origin))
    | _ => a.blockAt .origin
  first.map fun b =>
    let position := if b.color = .white then .origin else b.exit m.dp m.cc
    ⟨a, m, limit, 0, 0, false, position, b, b⟩

/-- Moves to the exit of the current block.  Within white the pointer stays where it is. -/
def reposition (w : Walk) : Walk :=
  if w.current.color = .white then
    w
  else
    { w with position := w.current.exit w.machine.dp w.machine.cc }

/-- What a step that has just been taken reports, with the counter not yet advanced. -/
def report (w : Walk) (i : Instruction) (blocked : Bool) (ignored : Option Fault) : Step :=
  ⟨w.steps, w.position, i, blocked, w.flipped, w.last, w.current, ignored⟩

/-- Counts a step. -/
def count (w : Walk) : Walk :=
  { w with steps := w.steps + 1 }

/-- Flips the chooser. -/
def flip (w : Walk) : Walk :=
  reposition { w with
    machine := { w.machine with cc := w.machine.cc.flip 1 }
    flips := w.flips + 1
    flipped := true }

/-- Turns the direction clockwise. -/
def turn (w : Walk) : Walk :=
  reposition { w with
    machine := { w.machine with dp := w.machine.dp.rotate 1 }
    flipped := false }

/-- Looks for another way out of the current block: a flip and a turn take turns, and the
fourth flip is the last attempt. -/
def detour (w : Walk) : Walk × Event :=
  if w.flipped then
    if 4 ≤ w.flips then
      (w, .halted .finished)
    else
      let w := w.turn
      (w.count, .continued (w.report .noop true none))
  else
    let w := w.flip
    (w.count, .continued (w.report .noop true none))

/-- Makes a block the current one and executes the instruction of the change of colour.  The
word pushed by a push is the size of the block left behind. -/
def cross (w : Walk) (b : Block) (position : Pos) : Walk × Instruction × Outcome :=
  let ⟨atlas, machine, limit, steps, flips, _, _, _, left⟩ := w
  let i := left.color.instructionTo b.color
  let flips := if left.color.Resets b.color then 0 else flips
  let (machine, outcome) := machine.execute i left.size
  (⟨atlas, machine, limit, steps, flips, false, position, left, b⟩, i, outcome)

/-- Enters an open pixel.  The instructions that change the direction or the chooser also
change the exit. -/
def enter (w : Walk) (p : Pos) : Walk × Event :=
  let ⟨atlas, machine, limit, steps, flips, flipped, position, last, current⟩ := w
  match atlas.enter p machine.dp machine.cc with
  | (atlas, none) =>
    -- No open pixel lies outside the picture.
    (⟨atlas, machine, limit, steps, flips, flipped, position, last, current⟩, .halted .finished)
  | (atlas, some (b, next)) =>
    match cross ⟨atlas, machine, limit, steps, flips, flipped, position, last, current⟩ b next with
    | (w, _, .sinkFull) => (w, .sinkFull)
    | (w, i, outcome) =>
      let ignored :=
        match outcome with
        | .ignored fault => some fault
        | _ => none
      let w := if i = .pointer ∨ i = .switch then w.reposition else w
      let step := w.report i false ignored
      (w.count, .continued step)

/-- Takes one step. -/
def step (w : Walk) : Walk × Event :=
  if w.limit ≤ w.steps then
    (w, .halted .stepLimit)
  else
    match w.atlas.grid.ahead? w.position w.machine.dp with
    | none => w.detour
    | some p => w.enter p

end Walk

/-! ### A whole run -/

/-- How a run ended. -/
inductive Ending where
  | halted (halt : Halt)
  | sinkFull
deriving DecidableEq

namespace Walk

/-- Takes at most `fuel` steps, and collects the notices of ignored instructions. -/
def runFor : (fuel : Nat) → Walk → Array Notice → Walk × Array Notice × Ending
  | 0, w, notices => (w, notices, .halted .stepLimit)
  | fuel + 1, w, notices =>
    match w.step with
    | (w, .halted halt) => (w, notices, .halted halt)
    | (w, .sinkFull) => (w, notices, .sinkFull)
    | (w, .continued s) =>
      match s.notice? with
      | some n => runFor fuel w (notices.push n)
      | none => runFor fuel w notices

/-- Takes steps until the walk halts or cannot write.  Every step is counted, so the steps left
up to the limit are enough; with none left the walk halts at once. -/
def run (w : Walk) : Walk × Array Notice × Ending :=
  w.runFor (w.limit - w.steps) #[]

end Walk

/-- What a run from the start left behind. -/
structure Run where
  output : Array UInt8
  ending : Ending
  notices : Array Notice
deriving DecidableEq

/-- Runs the program of a picture on some input.  A picture without pixels does nothing. -/
def Grid.interpret (g : Grid) (input : Array UInt8) (limit : Nat) : Run :=
  match Walk.start? (.ofGrid g) (.start input) limit with
  | none => ⟨#[], .halted .finished, #[]⟩
  | some w =>
    let (w, notices, ending) := w.run
    ⟨w.machine.output.written, ending, notices⟩

end Piet
