import Mathlib.Data.Set.Card
import Piet.Proofs.Block.Partition
import Piet.Proofs.Walk.Enter

/-!
# The course of a program

What a program does, told by its picture alone.  There are no blocks to be found and nothing is
kept from one step for the next but the state itself, which is a `Course`.

* What the pointer enters is an `Area`, a colour and a set of pixels: the connected region of a
  pixel, or the stretch of white that is slid over from it.  Its size is the number of its pixels,
  and it is left from the pixel that the table of exits has for the heading.
* Where the edge or black is ahead, the chooser is flipped and the direction turned alternately.
  The program is over when the way is shut after the fourth flip, so that all eight headings have
  been tried (`Course.recover`).
* Otherwise the area ahead is entered, which executes the instruction of the change of colour.
  The number it may push is the size of the area left behind, and the exit is chosen for the
  heading that the pointer has afterwards (`Course.enter`).

The definitions are not meant to be run: sets of pixels are not searched for, and pixels are picked
by what is said of them.  That there is exactly one such pixel is proved where it matters.
-/

namespace Piet

open Relation

/-! ### Areas -/

/-- Pixels of one colour that the pointer treats as a unit. -/
structure Area where
  color : Color
  pixels : Set Pos

namespace Area

/-- The number of pixels. -/
noncomputable def size (s : Area) : ℕ :=
  s.pixels.ncard

/-- The pixel from which the pointer leaves. -/
noncomputable def exit (s : Area) (dp : Direction) (cc : Chooser) : Pos :=
  Classical.epsilon fun p => ExitOf s.pixels p dp cc

end Area

namespace Grid

/-- The white pixels that follow a pixel in a direction without a gap, and the pixel itself. -/
def stretch (g : Grid) (d : Direction) (p : Pos) : Set Pos :=
  {q | ReflTransGen (fun r s => r.step d = some s ∧ g.get? s = some .white) p q}

/-- The last pixel of a stretch: what follows it is not white. -/
noncomputable def stretchEnd (g : Grid) (d : Direction) (p : Pos) : Pos :=
  Classical.epsilon fun q => q ∈ g.stretch d p ∧ ∀ r, q.step d = some r → g.get? r ≠ some .white

/-- What the pointer enters at a pixel of this colour. -/
def areaAt (g : Grid) (color : Color) (d : Direction) (p : Pos) : Area :=
  if color = .white then ⟨.white, g.stretch d p⟩ else ⟨color, g.region p⟩

end Grid

/-! ### Courses -/

/-- A program under way. -/
structure Course where
  /-- The state the program works on. -/
  machine : Machine
  /-- The number of steps that may be taken. -/
  limit : ℕ
  /-- The number of steps that have been taken. -/
  steps : ℕ
  /-- How often the chooser has been flipped since the last change of colour. -/
  flips : ℕ
  /-- Whether the step before was a flip of the chooser. -/
  flipped : Bool
  /-- The pixel from which the pointer looks ahead. -/
  position : Pos
  /-- The area before the current one. -/
  last : Area
  /-- The area the pointer is in. -/
  current : Area

namespace Course

/-- What is told of a step.  Of an area one learns the colour and the size. -/
structure Report where
  iteration : ℕ
  position : Pos
  instruction : Instruction
  blocked : Bool
  flipped : Bool
  last : Color × ℕ
  current : Color × ℕ
  /-- Why the instruction was ignored, if it was. -/
  ignored : Option Fault

/-- The notice of the instruction that was ignored. -/
def Report.notice? (r : Report) : Option Notice :=
  r.ignored.map fun fault => ⟨r.instruction, fault⟩

/-- What a call for a step can lead to. -/
inductive Event where
  | halted (halt : Halt)
  | continued (report : Report)
  | sinkFull

variable (g : Grid) (c : Course)

/-- What a step that has just been taken reports, with the counter not yet advanced. -/
noncomputable def report (i : Instruction) (blocked : Bool) (ignored : Option Fault) : Report :=
  ⟨c.steps, c.position, i, blocked, c.flipped, (c.last.color, c.last.size),
    (c.current.color, c.current.size), ignored⟩

/-- Counts a step. -/
def count : Course :=
  { c with steps := c.steps + 1 }

/-- Moves to the exit of the current area.  Within white the pointer stays where it is. -/
noncomputable def atExit : Course :=
  if c.current.color = .white then c
  else { c with position := c.current.exit c.machine.dp c.machine.cc }

/-- Flips the chooser. -/
noncomputable def flip : Course :=
  atExit { c with
    machine := { c.machine with cc := c.machine.cc.flip 1 }
    flips := c.flips + 1
    flipped := true }

/-- Turns the direction clockwise. -/
noncomputable def turn : Course :=
  atExit { c with
    machine := { c.machine with dp := c.machine.dp.rotate 1 }
    flipped := false }

/-- What is done where the way is shut. -/
noncomputable def recover : Course × Event :=
  if c.flipped = false then (c.flip.count, .continued (c.flip.report .noop true none))
  else if c.flips < 4 then (c.turn.count, .continued (c.turn.report .noop true none))
  else (c, .halted .finished)

/-- The instruction that is executed at the entry to an area of this colour, and what comes of
it. -/
noncomputable def executed (color : Color) : Machine × Outcome :=
  c.machine.execute (c.current.color.instructionTo color) c.current.size

/-- The course that has entered the area at a pixel of this colour, before the step is counted. -/
noncomputable def entered (color : Color) (p : Pos) : Course :=
  let area := g.areaAt color c.machine.dp p
  let m := (c.executed color).1
  ⟨m, c.limit, c.steps, if c.current.color.Resets color then 0 else c.flips, false,
    if color = .white then g.stretchEnd c.machine.dp p else area.exit m.dp m.cc, c.current, area⟩

/-- Enters the area at a pixel of this colour.  The step is not counted if the output is too full
for the instruction. -/
noncomputable def enter (color : Color) (p : Pos) : Course × Event :=
  let outcome := (c.executed color).2
  let c' := c.entered g color p
  if outcome = .sinkFull then (c', .sinkFull)
  else (c'.count,
    .continued (c'.report (c.current.color.instructionTo color) false outcome.fault?))

/-- Takes one step. -/
noncomputable def step : Course × Event :=
  if c.limit ≤ c.steps then (c, .halted .stepLimit)
  else
    match c.position.step c.machine.dp with
    | none => c.recover
    | some p =>
      match g.get? p with
      | none | some .black => c.recover
      | some color => c.enter g color p

variable {g c}

/-- Black and the edge shut the way. -/
theorem step_of_shut (hlt : c.steps < c.limit)
    (hahead : g.ahead? c.position c.machine.dp = none) : c.step g = c.recover := by
  rw [step, if_neg (Nat.not_le.mpr hlt)]
  rcases hstep : c.position.step c.machine.dp with _ | p
  · rfl
  · have hshut : ¬ g.Open p := fun hopen => by
      rw [Grid.ahead?_eq_some_iff.mpr ⟨hstep, hopen⟩] at hahead
      cases hahead
    rcases hp : g.get? p with _ | color
    · simp only [hp]
    · cases color with
      | black => simp only [hp]
      | white => exact absurd (Grid.open_of_get? hp Color.white_ne_black) hshut
      | shade s => exact absurd (Grid.open_of_get? hp (Color.shade_ne_black s)) hshut

/-- Any other pixel is entered. -/
theorem step_of_open (hlt : c.steps < c.limit) {p : Pos}
    (hahead : g.ahead? c.position c.machine.dp = some p) {color : Color}
    (hp : g.get? p = some color) : c.step g = c.enter g color p := by
  obtain ⟨hstep, hopen⟩ := Grid.ahead?_eq_some_iff.mp hahead
  simp only [step, if_neg (Nat.not_le.mpr hlt), hstep, hp]
  cases color with
  | black => exact absurd hp hopen.2
  | white => rfl
  | shade s => rfl

variable (g c)

/-- The course at its start, in this area. -/
noncomputable def begin (m : Machine) (limit : ℕ) (s : Area) : Course :=
  ⟨m, limit, 0, 0, false, if s.color = .white then .origin else s.exit m.dp m.cc, s, s⟩

/-- A program begins in the region of the first pixel, or in that pixel alone if it is white. -/
noncomputable def start? (m : Machine) (limit : ℕ) : Option Course :=
  (g.get? .origin).map fun color =>
    begin m limit (if color = .white then ⟨.white, {.origin}⟩ else ⟨color, g.region .origin⟩)

/-- The course after a number of calls for a step. -/
noncomputable def after : ℕ → Course
  | 0 => c
  | n + 1 => ((after n).step g).1

/-- Takes at most `fuel` steps, and collects the notices of ignored instructions. -/
noncomputable def runFor : (fuel : ℕ) → Course → Array Notice → Course × Array Notice × Ending
  | 0, c, notices => (c, notices, .halted .stepLimit)
  | fuel + 1, c, notices =>
    match c.step g with
    | (c, .halted halt) => (c, notices, .halted halt)
    | (c, .sinkFull) => (c, notices, .sinkFull)
    | (c, .continued r) =>
      match r.notice? with
      | some n => runFor fuel c (notices.push n)
      | none => runFor fuel c notices

/-- Takes steps until the course is over. -/
noncomputable def run : Course × Array Notice × Ending :=
  runFor g (c.limit - c.steps) c #[]

end Course

end Piet
