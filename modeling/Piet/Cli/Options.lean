/-!
# The command line

The two commands and their options, and how they are read from the arguments.  An option is
written `--name value` or `--name=value`; after `--` everything is an operand.
-/

namespace Piet

/-- What to generate and how. -/
structure GenerateOptions where
  /-- The name of a file, or else the bytes themselves. -/
  source : String
  /-- The name of the image file to write. -/
  output : String
  bytesPerLane : Nat
  /-- The keys of the rounds, which are used in turn. -/
  keys : List String
  /-- How many more times the image is encoded. -/
  recurse : Nat
  stepLimit : Nat
deriving DecidableEq

/-- What to run and how. -/
structure RunOptions where
  /-- The name of the image file to read. -/
  image : String
  /-- The name of the file for the output, if it is not to be printed. -/
  output : Option String
  input : String
  stepLimit : Nat
  /-- The number of steps in a second; there is no bound unless it is positive. -/
  speed : Int
  /-- The number of pixels in a codel's side; zero if that is to be found out. -/
  codelSize : Nat
  /-- Whether pixel values that stand for no colour are black. -/
  lenient : Bool
deriving DecidableEq

/-- What the program is asked to do. -/
inductive Command where
  | generate (o : GenerateOptions)
  | run (o : RunOptions)
deriving DecidableEq

/-- A command, and whether it is to log what it does. -/
structure Invocation where
  debug : Bool
  command : Command
deriving DecidableEq

namespace Options

/-! ### Numbers -/

/-- The number written by some digits. -/
def ofDigits? (digits : List Char) : Option Nat :=
  if digits ≠ [] ∧ digits.all Char.isDigit then
    some (digits.foldl (fun n c => 10 * n + (c.toNat - 48)) 0)
  else
    none

/-- A numeral without a sign or with a plus, for a number of at most 64 bits. -/
def nat? (s : String) : Option Nat :=
  let digits :=
    match s.toList with
    | '+' :: rest => rest
    | chars => chars
  (ofDigits? digits).filter fun n => n < UInt64.size

/-- A numeral with or without a sign, for a signed number of 64 bits. -/
def int? (s : String) : Option Int :=
  let number : Option Int :=
    match s.toList with
    | '+' :: rest => (ofDigits? rest).map Int.ofNat
    | '-' :: rest => (ofDigits? rest).map fun n => -Int.ofNat n
    | chars => (ofDigits? chars).map Int.ofNat
  number.filter fun n => Int64.minValue.toInt ≤ n ∧ n ≤ Int64.maxValue.toInt

/-! ### Sorting the arguments -/

/-- What an option is followed by: nothing, a value, or a number that may be negative. -/
inductive Arity where
  | flag
  | value
  | number
deriving DecidableEq

/-- The arguments of a command: the options with their values, and the operands. -/
structure Sorted where
  options : List (String × String)
  operands : List String

/-- An argument that begins with a minus, and is not just one. -/
def isDashed (arg : String) : Bool :=
  match arg.toList with
  | '-' :: _ :: _ => true
  | _ => false

/-- An argument that is a minus and digits. -/
def isNegativeNumber (arg : String) : Bool :=
  match arg.toList with
  | '-' :: digits => (ofDigits? digits).isSome
  | _ => false

/-- Whether the argument after an option can be its value. -/
def isValueFor (arity : Arity) (arg : String) : Bool :=
  !isDashed arg || (arity == .number && isNegativeNumber arg)

/-- The name of an option, and the value that is written together with it. -/
def splitOption? (arg : String) : Option (String × Option String) :=
  match arg.toList with
  | '-' :: '-' :: body =>
    let name := body.takeWhile (· ≠ '=')
    match body.dropWhile (· ≠ '=') with
    | [] => some (String.ofList name, none)
    | _ :: value => some (String.ofList name, some (String.ofList value))
  | _ => none

/-- Sorts arguments into options and operands, if every option is known and has the value that
it needs. -/
def sort? (arity? : String → Option Arity) : List String → Option Sorted
  | [] => some ⟨[], []⟩
  | arg :: rest =>
    if arg = "--" then
      some ⟨[], rest⟩
    else if !isDashed arg then
      (sort? arity? rest).map fun s => { s with operands := arg :: s.operands }
    else
      match splitOption? arg with
      | none => none
      | some (name, attached) =>
        match arity? name, attached with
        | none, _ => none
        | some .flag, some _ => none
        | some .flag, none =>
          (sort? arity? rest).map fun s => { s with options := (name, "") :: s.options }
        | some _, some value =>
          (sort? arity? rest).map fun s => { s with options := (name, value) :: s.options }
        | some arity, none =>
          match rest with
          | [] => none
          | value :: rest =>
            if isValueFor arity value then
              (sort? arity? rest).map fun s => { s with options := (name, value) :: s.options }
            else
              none

namespace Sorted

/-- Every value that an option is given. -/
def values (s : Sorted) (name : String) : List String :=
  (s.options.filter fun o => o.1 = name).map Prod.snd

/-- The value of an option that may be given once, as far as it can be read, or a default. -/
def single? {α : Type} (s : Sorted) (name : String) (read? : String → Option α) (otherwise : α) :
    Option α :=
  match s.values name with
  | [] => some otherwise
  | [v] => read? v
  | _ => none

/-- Whether a flag is given, which may be done once. -/
def flag? (s : Sorted) (name : String) : Option Bool :=
  s.single? name (fun _ => some true) false

end Sorted

/-! ### Commands -/

/-- The number of steps a program may take unless told otherwise. -/
def defaultStepLimit : Nat :=
  1000000

/-- The options of the command that generates an image. -/
def generateArity? : String → Option Arity
  | "cols" | "input" | "recurse" | "step-limit" => some .value
  | "debug" => some .flag
  | _ => none

/-- The options of the command that runs an image. -/
def runArity? : String → Option Arity
  | "input" | "step-limit" | "codel-size" => some .value
  | "speed" => some .number
  | "lenient" | "debug" => some .flag
  | _ => none

/-- Reads the arguments of the command that generates an image. -/
def generate? (args : List String) : Option Invocation := do
  let s ← sort? generateArity? args
  let bytesPerLane ← s.single? "cols" nat? 8
  let recurse ← s.single? "recurse" nat? 0
  let stepLimit ← s.single? "step-limit" nat? defaultStepLimit
  let debug ← s.flag? "debug"
  match s.operands with
  | [source, output] =>
    if output = "" then none
    else some ⟨debug, .generate ⟨source, output, bytesPerLane, s.values "input", recurse, stepLimit⟩⟩
  | _ => none

/-- Reads the arguments of the command that runs an image. -/
def run? (args : List String) : Option Invocation := do
  let s ← sort? runArity? args
  let input ← s.single? "input" some ""
  let stepLimit ← s.single? "step-limit" nat? defaultStepLimit
  let speed ← s.single? "speed" int? (-1)
  let codelSize ← s.single? "codel-size" nat? 1
  let lenient ← s.flag? "lenient"
  let debug ← s.flag? "debug"
  let (image, output) ←
    match s.operands with
    | [image] => some (image, none)
    | [image, output] => some (image, some output)
    | _ => none
  if image = "" ∨ output = some "" then
    none
  else
    some ⟨debug, .run ⟨image, output, input, stepLimit, speed, codelSize, lenient⟩⟩

/-- Reads a command and its arguments. -/
def command? : List String → Option Invocation
  | "generate" :: args => generate? args
  | "run" :: args => run? args
  | _ => none

end Options

/-- Reads the arguments of the program, if they are well formed.  The log can be asked for
before or after the name of the command. -/
def Invocation.ofArgs? : List String → Option Invocation
  | "--debug" :: args => (Options.command? args).map fun i => { i with debug := true }
  | args => Options.command? args

end Piet
