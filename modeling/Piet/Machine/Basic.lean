import Piet.Machine.Instruction
import Piet.Plane.Position

/-!
# The machine

The state that a program works on: a stack of signed 64-bit words, the direction pointer and the
codel chooser, the input and the output.  `Machine.execute` carries out one instruction.  An
instruction that cannot be carried out is ignored and leaves the machine as it was; only a full
output is an error, and by then the value to be written has left the stack.
-/

namespace Piet

/-! ### Input and output

The input is a fixed sequence of bytes with a cursor, and the output a sequence of bytes that grows.
An output may be bounded: then it takes bytes until it is full, and a write that does not fit
delivers what still fits before it fails. -/

/-- The bytes a program reads and the place of the next one, which may lie beyond the end. -/
structure Input where
  bytes : Array UInt8
  cursor : Nat
deriving DecidableEq, Inhabited

namespace Input

/-- Bytes of which none has been read yet. -/
def ofBytes (bytes : Array UInt8) : Input :=
  ⟨bytes, 0⟩

/-- The bytes not read yet. -/
def rest (i : Input) : List UInt8 :=
  (i.bytes.extract i.cursor i.bytes.size).toList

/-- The next byte. -/
def next? (i : Input) : Option UInt8 :=
  i.bytes[i.cursor]?

/-- Moves past some bytes. -/
def advance (i : Input) (n : Nat) : Input :=
  { i with cursor := i.cursor + n }

theorem rest_eq_drop (i : Input) : i.rest = i.bytes.toList.drop i.cursor := by
  rw [rest, Array.toList_extract, List.extract_eq_take_drop, ← Array.length_toList,
    ← List.length_drop, List.take_length]

end Input

/-- The bytes written so far and how many there may be in all, if that is bounded. -/
structure Sink where
  written : Array UInt8
  capacity : Option Nat
deriving DecidableEq, Inhabited

namespace Sink

/-- An empty sink without a bound. -/
def unbounded : Sink :=
  ⟨#[], none⟩

/-- Writes as many of the bytes as still fit, and says whether all of them did. -/
def write (s : Sink) (bytes : List UInt8) : Sink × Bool :=
  match s.capacity with
  | none => ({ s with written := s.written.appendList bytes }, true)
  | some c =>
    let room := c - s.written.size
    ({ s with written := s.written.appendList (bytes.take room) }, bytes.length ≤ room)

@[simp]
theorem write_nil (s : Sink) : s.write [] = (s, true) := by
  rw [write]
  split <;> simp

end Sink

/-! ### Decimal numerals

A numeral is an optional sign and digits; when one is read, blanks before it are skipped. -/

namespace Numeral

/-- Blanks are the space, the tabulator, the line feed, the form feed and the carriage
return. -/
def isBlank (b : UInt8) : Bool :=
  b == 32 || b == 9 || b == 10 || b == 12 || b == 13

/-- The digits from zero to nine. -/
def isDigit (b : UInt8) : Bool :=
  48 ≤ b && b ≤ 57

/-- The digit for a number below ten. -/
def digit (n : Nat) : UInt8 :=
  48 + n.toUInt8

/-- The digits of a natural number, without leading zeros. -/
def digits (n : Nat) : List UInt8 :=
  if n < 10 then [digit n] else digits (n / 10) ++ [digit (n % 10)]
termination_by n
decreasing_by omega

/-- The numeral of a word. -/
def render (a : Int64) : List UInt8 :=
  if a < 0 then 45 :: digits a.toInt.natAbs else digits a.toInt.natAbs

/-- The number that some digits stand for. -/
def value (ds : List UInt8) : Nat :=
  ds.foldl (fun n d => 10 * n + (d.toNat - 48)) 0

/-- What stands where a numeral may have a sign: whether it is a minus, how many bytes it
takes, and the bytes after it. -/
def splitSign : List UInt8 → Bool × Nat × List UInt8
  | 43 :: rest => (false, 1, rest)
  | 45 :: rest => (true, 1, rest)
  | rest => (false, 0, rest)

/-- Reads a numeral at the start of some bytes, after any blanks.  The answer is the number and
how many bytes were read.  There is none without a digit, or for a number that is no word. -/
def read? (bytes : List UInt8) : Option (Int64 × Nat) :=
  let blanks := bytes.takeWhile isBlank
  let (negative, signLength, unsigned) := splitSign (bytes.dropWhile isBlank)
  let ds := unsigned.takeWhile isDigit
  let number : Int := if negative then -value ds else value ds
  if ds ≠ [] ∧ Int64.minValue.toInt ≤ number ∧ number ≤ Int64.maxValue.toInt then
    some (Int64.ofInt number, blanks.length + signLength + ds.length)
  else
    none

end Numeral

/-! ### Floor division of words

Quotient and remainder are rounded downward: the remainder has the sign of the divisor.  Both are
had from division toward zero by one correction, which is due when there is a remainder and the
signs of the operands differ.  The one quotient that is no word, the least word divided by minus
one, wraps around to the least word. -/

namespace Word

/-- Division toward zero leaves a remainder on the wrong side of the floor. -/
def RoundsUp (b a : Int64) : Prop :=
  b % a ≠ 0 ∧ (b < 0 ↔ ¬ a < 0)

instance (b a : Int64) : Decidable (RoundsUp b a) :=
  inferInstanceAs (Decidable (_ ∧ _))

/-- The quotient `b / a` rounded downward. -/
def floorDiv (b a : Int64) : Int64 :=
  if RoundsUp b a then b / a - 1 else b / a

/-- The remainder that belongs to `floorDiv b a`. -/
def floorMod (b a : Int64) : Int64 :=
  if RoundsUp b a then b % a + a else b % a

end Word

/-! ### The stack

The stack is kept from the top downward; written out, it reads from the bottom upward
(`Stack.toList`). -/

/-- A stack of words, the top one first. -/
structure Stack where
  fromTop : List Int64
deriving DecidableEq, Inhabited

namespace Stack

/-- The stack without words. -/
def empty : Stack :=
  ⟨[]⟩

/-- The words from the bottom upward. -/
def toList (s : Stack) : List Int64 :=
  s.fromTop.reverse

/-- The stack with the given words, the last one on top. -/
def ofList (l : List Int64) : Stack :=
  ⟨l.reverse⟩

/-- The number of words. -/
def size (s : Stack) : Nat :=
  s.fromTop.length

/-- Lays a word on top. -/
def push (s : Stack) (a : Int64) : Stack :=
  ⟨a :: s.fromTop⟩

/-- Lays words on top one after another. -/
def append (s : Stack) (l : List Int64) : Stack :=
  l.foldl push s

/-- The top word. -/
def peek? (s : Stack) : Option Int64 :=
  s.fromTop.head?

/-- The top word and the stack below it. -/
def pop? (s : Stack) : Option (Int64 × Stack) :=
  match s.fromTop with
  | [] => none
  | a :: below => some (a, ⟨below⟩)

/-- The topmost `n` words, top first, and the stack below them, if there are so many. -/
def popMany? (s : Stack) (n : Nat) : Option (List Int64 × Stack) :=
  if n ≤ s.size then
    some (s.fromTop.take n, ⟨s.fromTop.drop n⟩)
  else
    none

/-- Buries the top word of the topmost `depth` words under the others, `count` times over.  A
negative count digs the lowest of them up instead.  None if there are fewer words. -/
def roll? (s : Stack) (depth : Nat) (count : Int) : Option Stack :=
  let (window, below) := s.fromTop.splitAt depth
  if window.length = depth then
    let turns := (count % depth).toNat
    some ⟨window.drop turns ++ window.take turns ++ below⟩
  else
    none

@[simp]
theorem toList_ofList (l : List Int64) : (ofList l).toList = l :=
  List.reverse_reverse l

@[simp]
theorem ofList_toList (s : Stack) : ofList s.toList = s := by
  cases s
  simp [ofList, toList]

@[simp]
theorem toList_push (s : Stack) (a : Int64) : (s.push a).toList = s.toList ++ [a] :=
  List.reverse_cons

@[simp]
theorem size_push (s : Stack) (a : Int64) : (s.push a).size = s.size + 1 := rfl

@[simp]
theorem toList_append (s : Stack) (l : List Int64) : (s.append l).toList = s.toList ++ l := by
  rw [append]
  induction l generalizing s with
  | nil => simp
  | cons a l ih => rw [List.foldl_cons, ih, toList_push, List.append_assoc, List.singleton_append]

@[simp]
theorem pop?_push (s : Stack) (a : Int64) : (s.push a).pop? = some (a, s) := rfl

end Stack

/-! ### The state and the instructions -/

/-- Why an instruction is ignored. -/
inductive Fault where
  | stackUnderflow
  | divisionByZero
  | rollDepth (depth : Int64)
  | inputExhausted
deriving DecidableEq

/-- The wording of a fault. -/
def Fault.message : Fault → String
  | stackUnderflow => "stack underflow"
  | divisionByZero => "division by zero"
  | rollDepth depth => "roll depth " ++ toString depth.toInt ++ " out of range"
  | inputExhausted => "input exhausted"

/-- An instruction that was ignored, and why. -/
structure Notice where
  instruction : Instruction
  fault : Fault
deriving DecidableEq

/-- The wording of a notice. -/
def Notice.message (n : Notice) : String :=
  n.instruction.name ++ " ignored: " ++ n.fault.message

/-- How an instruction ended. -/
inductive Outcome where
  | done
  | ignored (fault : Fault)
  | sinkFull
deriving DecidableEq

/-- The state that a program works on. -/
structure Machine where
  stack : Stack
  dp : Direction
  cc : Chooser
  input : Input
  output : Sink
deriving DecidableEq

namespace Machine

/-- The machine before a program starts, given what it will read. -/
def start (input : Array UInt8) : Machine :=
  ⟨.empty, .right, .left, .ofBytes input, .unbounded⟩

/-- The word that stands for the size of a block, which is the greatest word if it is larger
than that. -/
def sizeWord (size : Nat) : Int64 :=
  Int64.ofNat (min size Int64.maxValue.toInt.toNat)

/-- The byte that stands for a word. -/
def byteOf (a : Int64) : UInt8 :=
  (a.toInt % 256).toNat.toUInt8

/-- The word for the truth of a statement. -/
def truth (p : Prop) [Decidable p] : Int64 :=
  if p then 1 else 0

/-- Lays a word on the stack. -/
def push (m : Machine) (a : Int64) : Machine :=
  { m with stack := m.stack.push a }

/-- Takes the top word off the stack. -/
def pop (m : Machine) : Except Fault (Int64 × Machine) :=
  match m.stack.pop? with
  | none => .error .stackUnderflow
  | some (a, below) => .ok (a, { m with stack := below })

/-- Replaces the two topmost words by the value of a function, which has the lower one as its
first argument.  They stay if the function has no value. -/
def binary (m : Machine) (f : Int64 → Int64 → Except Fault Int64) : Except Fault Machine :=
  match m.stack.fromTop with
  | a :: b :: below =>
    match f b a with
    | .ok r => .ok { m with stack := ⟨r :: below⟩ }
    | .error fault => .error fault
  | _ => .error .stackUnderflow

/-- Rolls the stack by the two words on top of it: the depth and, above it, the count. -/
def roll (m : Machine) : Except Fault Machine :=
  match m.stack.fromTop with
  | count :: depth :: below =>
    if depth < 0 then
      .error (.rollDepth depth)
    else
      match Stack.roll? ⟨below⟩ depth.toInt.toNat count.toInt with
      | some s => .ok { m with stack := s }
      | none => .error (.rollDepth depth)
  | _ => .error .stackUnderflow

/-- Reads one byte. -/
def readByte (m : Machine) : Except Fault Machine :=
  match m.input.next? with
  | some b => .ok { m.push (Int64.ofNat b.toNat) with input := m.input.advance 1 }
  | none => .error .inputExhausted

/-- Reads a numeral. -/
def readNumeral (m : Machine) : Except Fault Machine :=
  match Numeral.read? m.input.rest with
  | some (a, n) => .ok { m.push a with input := m.input.advance n }
  | none => .error .inputExhausted

/-- Takes the top word off the stack and writes some bytes for it. -/
def writeTop (m : Machine) (bytes : Int64 → List UInt8) : Except Fault (Machine × Outcome) :=
  match m.pop with
  | .error fault => .error fault
  | .ok (a, m) =>
    match m.output.write (bytes a) with
    | (output, true) => .ok ({ m with output := output }, .done)
    | (output, false) => .ok ({ m with output := output }, .sinkFull)

/-- Instructions that write nothing.  The size is that of the block just left. -/
def silent (m : Machine) (size : Nat) : Instruction → Except Fault Machine
  | .push => .ok (m.push (sizeWord size))
  | .pop => m.pop.map Prod.snd
  | .add => m.binary fun b a => .ok (b + a)
  | .subtract => m.binary fun b a => .ok (b - a)
  | .multiply => m.binary fun b a => .ok (b * a)
  | .divide => m.binary fun b a =>
      if a = 0 then .error .divisionByZero else .ok (Word.floorDiv b a)
  | .mod => m.binary fun b a =>
      if a = 0 then .error .divisionByZero else .ok (Word.floorMod b a)
  | .greater => m.binary fun b a => .ok (truth (a < b))
  | .not => m.pop.map fun (a, m) => m.push (truth (a = 0))
  | .duplicate =>
    match m.stack.peek? with
    | some a => .ok (m.push a)
    | none => .error .stackUnderflow
  | .pointer => m.pop.map fun (a, m) => { m with dp := m.dp.rotate a.toInt }
  | .switch => m.pop.map fun (a, m) => { m with cc := m.cc.flip a.toInt }
  | .roll => m.roll
  | .inChar => m.readByte
  | .inNum => m.readNumeral
  | .noop | .outNum | .outChar => .ok m

/-- Carries out an instruction unless a fault keeps it from being carried out.  The size is
that of the block just left. -/
def attempt (m : Machine) (size : Nat) : Instruction → Except Fault (Machine × Outcome)
  | .outNum => m.writeTop Numeral.render
  | .outChar => m.writeTop fun a => [byteOf a]
  | i => (m.silent size i).map fun m => (m, .done)

/-- Carries out an instruction, or ignores it if there is a fault. -/
def execute (m : Machine) (i : Instruction) (size : Nat) : Machine × Outcome :=
  match m.attempt size i with
  | .ok result => result
  | .error fault => (m, .ignored fault)

end Machine

end Piet
