import Piet.Cli.Options
import Piet.Grid.Runs
import Piet.Grid.Scale
import Piet.Image.Basic
import Piet.Paint.Compose
import Piet.Walk.Run

/-!
# Carrying out commands

Generating works in rounds.  Each round composes a picture that prints some bytes, first the
source and then the image file of the round before, and makes sure that its program does so
within the limit of steps.  The picture of the last round is the result.  Running takes a picture
from an image file, with one pixel for each codel, and walks across it.

* `Rounds.run` carries out all rounds.
* `Invocation.perform` carries out a command on a disk and reports what is printed and how the
  program ends.
-/

namespace Piet

/-! ### The log -/

/-- How much attention a line of the log deserves. -/
inductive LogLevel where
  | debug
  | info
deriving DecidableEq

/-- A line of the log. -/
structure LogLine where
  level : LogLevel
  text : String
deriving DecidableEq

/-- The written form of a line. -/
def LogLine.render (l : LogLine) : String :=
  (match l.level with
    | .debug => "DEBUG "
    | .info => "INFO ") ++ l.text

/-- The lines written so far. -/
abbrev Log :=
  Array LogLine

namespace Log

/-- Adds a line about the work as a whole. -/
def info (log : Log) (text : String) : Log :=
  log.push ⟨.info, text⟩

/-- Adds a line about a detail. -/
def debug (log : Log) (text : String) : Log :=
  log.push ⟨.debug, text⟩

/-- Adds the notices of ignored instructions. -/
def notices (log : Log) (notices : Array Notice) : Log :=
  notices.foldl (fun log n => log.debug n.message) log

end Log

/-! ### Images that print images -/

/-- What the rounds have in common. -/
structure Rounds where
  /-- The format in which the picture of a round is handed on to the next one. -/
  png : Format
  /-- The keys, which are used in turn; none if the bytes are not masked. -/
  keys : List (Array UInt8)
  bytesPerLane : Nat
  stepLimit : Nat

namespace Rounds

/-- The key of a round. -/
def key? (c : Rounds) (round : Nat) : Option (Array UInt8) :=
  c.keys[round % c.keys.length]?

/-- What is logged when a picture has been composed. -/
def composed (data : Array UInt8) (p : Composition) (log : Log) : Log :=
  (log.debug ("encoding " ++ toString data.size ++ " bytes in " ++ toString p.laneCount ++
    " rows of width " ++ toString p.width)).notices p.notices

/-- One round: composes a picture and makes sure that it prints its bytes. -/
def round (c : Rounds) (number : Nat) (data : Array UInt8) (log : Log) :
    Log × Except Error Grid :=
  let key := c.key? number
  match compose data key c.bytesPerLane with
  | .error e => (log, .error e)
  | .ok p =>
    let r := p.grid.interpret (Payload.feed data key) c.stepLimit
    let log := (composed data p log).notices r.notices
    if r.ending = .halted .finished ∧ r.output = data then
      (log.info ("round " ++ toString number ++ ": " ++ toString data.size ++ " bytes as a " ++
          toString p.grid.width ++ "x" ++ toString p.grid.height ++ " image"),
        .ok p.grid)
    else
      (log, .error .unfaithful)

/-- The rounds from a number on, so many of them after the first. -/
def runFrom (c : Rounds) : (more : Nat) → (number : Nat) → Array UInt8 → Log →
    Log × Except Error Grid
  | 0, number, data, log => c.round number data log
  | more + 1, number, data, log =>
    match c.round number data log with
    | (log, .error e) => (log, .error e)
    | (log, .ok g) =>
      match c.png.write g with
      | .error e => (log, .error e)
      | .ok file => runFrom c more (number + 1) file log

/-- All rounds, of which the first encodes the source and `recurse` more follow. -/
def run (c : Rounds) (recurse : Nat) (source : Array UInt8) : Log × Except Error Grid :=
  c.runFrom recurse 0 source #[]

end Rounds

/-! ### Commands -/

/-- What a command leaves behind, apart from files. -/
structure Report where
  exitCode : Nat
  stdout : Array UInt8
  stderr : List String
deriving DecidableEq

/-- How a command ended: the output that was not written to a file, and why the program run
halted, if one was. -/
structure Completion where
  stdout : Array UInt8
  halt : Option Halt

namespace GenerateOptions

/-- The bytes of a word of the command line. -/
def bytesOf (s : String) : Array UInt8 :=
  s.toUTF8.data

/-- The bytes to generate: those of the file that is named, or of the name itself if there is
no such file. -/
def sourceBytes {m : Type → Type} [Monad m] (disk : Disk m) (o : GenerateOptions) :
    m (Except Error (Array UInt8)) := do
  if ← disk.contains o.source then
    match ← disk.read? o.source with
    | some bytes => pure (.ok bytes)
    | none => pure (.error .io)
  else
    pure (.ok (bytesOf o.source))

/-- The rounds that a command asks for, given the format to encode their pictures in. -/
def rounds (o : GenerateOptions) (png : Format) : Rounds :=
  ⟨png, o.keys.map bytesOf, o.bytesPerLane, o.stepLimit⟩

/-- Generates an image and saves it. -/
def perform {m : Type → Type} [Monad m] (disk : Disk m) (o : GenerateOptions) :
    m (Log × Except Error Completion) := do
  match ← o.sourceBytes disk with
  | .error e => pure (#[], .error e)
  | .ok source =>
    match (o.rounds disk.formats.png).run o.recurse source with
    | (log, .error e) => pure (log, .error e)
    | (log, .ok g) =>
      match ← disk.save g o.output with
      | .ok () => pure (log, .ok ⟨#[], none⟩)
      | .error e => pure (log, .error e)

end GenerateOptions

namespace RunOptions

/-- The picture with one pixel for each codel. -/
def reduced (o : RunOptions) (g : Grid) : Log × Grid :=
  let size := if o.codelSize = 0 then g.smallestSide else o.codelSize
  if 1 < size then
    (Log.info #[] ("reading " ++ toString size ++ "x" ++ toString size ++ " pixels per codel"),
      g.scaleDown size)
  else
    (#[], g)

/-- Writes the output to the file that is named for it, if there is one. -/
def keep {m : Type → Type} [Monad m] (disk : Disk m) (o : RunOptions) (bytes : Array UInt8) :
    m Bool :=
  match o.output with
  | some path => disk.write path bytes
  | none => pure true

/-- Runs a picture with one pixel for each codel.  The file for the output is created before the
program starts, and the end of the program is logged once its output has been written. -/
def execute {m : Type → Type} [Monad m] (disk : Disk m) (o : RunOptions) (log : Log) (g : Grid) :
    m (Log × Except Error Completion) := do
  let created ← o.keep disk #[]
  if !created then
    return (log, .error .io)
  match Walk.start? (.ofGrid g) (.start o.input.toUTF8.data) o.stepLimit with
  | none => pure (log, .error .emptyImage)
  | some w =>
    let (w, notices, ending) := w.run
    let log := log.notices notices
    match ending with
    | .sinkFull => pure (log, .error .io)
    | .halted halt =>
      let output := w.machine.output.written
      let written ← o.keep disk output
      if written then
        let log := log.info ("halted after " ++ toString w.steps ++ " steps: " ++ halt.name)
        pure (log, .ok ⟨if o.output.isSome then #[] else output, some halt⟩)
      else
        pure (log, .error .io)

/-- Runs an image. -/
def perform {m : Type → Type} [Monad m] (disk : Disk m) (o : RunOptions) :
    m (Log × Except Error Completion) := do
  match ← disk.load o.image o.lenient with
  | .error e => pure (#[], .error e)
  | .ok g =>
    let (log, g) := o.reduced g
    o.execute disk log g

end RunOptions

namespace Command

/-- Carries out a command. -/
def perform {m : Type → Type} [Monad m] (disk : Disk m) :
    Command → m (Log × Except Error Completion)
  | generate o => o.perform disk
  | run o => o.perform disk

end Command

namespace Invocation

/-- What is reported about the end of a command.  The log is shown only if it was asked for. -/
def report (i : Invocation) (log : Log) : Except Error Completion → Report :=
  let lines := if i.debug then log.toList.map LogLine.render else []
  fun
  | .error e => ⟨1, #[], lines ++ ["error: " ++ e.fullMessage]⟩
  | .ok ⟨stdout, some .stepLimit⟩ => ⟨2, stdout, lines ++ ["error: step limit reached"]⟩
  | .ok ⟨stdout, _⟩ => ⟨0, stdout, lines⟩

/-- Carries out a command and reports about it. -/
def perform {m : Type → Type} [Monad m] (disk : Disk m) (i : Invocation) : m Report := do
  let (log, result) ← i.command.perform disk
  pure (i.report log result)

end Invocation

end Piet
