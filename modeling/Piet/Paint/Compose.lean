import Piet.Paint.Pen

/-!
# Composing pictures

`compose` makes a picture whose program prints given bytes.  A byte takes one white cell, strokes
that leave it on the stack, and the instruction that writes it.  With a key, the picture holds the
sum of the byte and a byte of the key instead, and its program subtracts what it reads.

The bytes are laid out in lanes, each painted from one edge of the picture to the other in every
second row.  At its end a lane turns around into the next one, which runs the other way; the last
lane ends in a dead end.
-/

namespace Piet

/-! ### Payloads as strokes -/

/-- Some cells painted in a row with the same ink. -/
structure Stroke where
  ink : Ink
  count : Nat
deriving DecidableEq

namespace Payload

/-- The first `n` bytes of a key that is repeated over and over. -/
def keyStream (key : Array UInt8) (n : Nat) : List UInt8 :=
  (List.range n).map fun i => key[i % key.size]?.getD 0

/-- The bytes that the picture holds. -/
def masked (data : Array UInt8) : Option (Array UInt8) → List UInt8
  | none => data.toList
  | some key => List.zipWith (· + ·) data.toList (keyStream key data.size)

/-- What the program has to be given to print its payload. -/
def feed (data : Array UInt8) : Option (Array UInt8) → Array UInt8
  | none => #[]
  | some key => (keyStream key data.size).toArray

/-- Leaves a byte on the stack.  A push pushes the size of the block just left, which cannot be
zero, so that zero is had as the negation of one. -/
def pushStrokes (b : UInt8) : List Stroke :=
  if b = 0 then
    [⟨.op .noop, 1⟩, ⟨.op .push, 1⟩, ⟨.op .not, 1⟩]
  else
    [⟨.op .noop, b.toNat⟩, ⟨.op .push, 1⟩]

/-- Subtracts a byte from the input.  The difference may be negative; its remainder by sixteen
times sixteen is the byte that is meant. -/
def unmaskStrokes : List Stroke :=
  [⟨.op .inChar, 1⟩, ⟨.op .subtract, 16⟩, ⟨.op .push, 1⟩, ⟨.op .duplicate, 1⟩,
    ⟨.op .multiply, 1⟩, ⟨.op .mod, 1⟩]

/-- Prints a byte that the picture holds. -/
def byteStrokes (keyed : Bool) (b : UInt8) : List Stroke :=
  ⟨.white, 1⟩ :: pushStrokes b ++ (if keyed then unmaskStrokes else []) ++ [⟨.op .outChar, 1⟩]

end Payload

namespace Stroke

/-- The number of cells that some strokes take. -/
def totalCount (strokes : List Stroke) : Nat :=
  strokes.foldl (fun n s => n + s.count) 0

end Stroke

namespace Pen

/-- Paints some strokes one after another. -/
def strokes (pen : Pen) : List Stroke → Pen × Option Error
  | [] => (pen, none)
  | s :: rest =>
    match pen.stroke s.ink s.count with
    | (pen, none) => strokes pen rest
    | (pen, some e) => (pen, some e)

end Pen

/-! ### Lanes -/

/-- Splits a list into pieces of `size` elements, the last of which may be shorter.  At most
`fuel` pieces are made. -/
def piecesFor {α : Type} (size : Nat) : (fuel : Nat) → List α → List (List α)
  | 0, _ => []
  | _, [] => []
  | fuel + 1, l => l.take size :: piecesFor size fuel (l.drop size)

/-- Splits a list into pieces of `size` elements, the last of which may be shorter. -/
def pieces {α : Type} (size : Nat) (l : List α) : List (List α) :=
  piecesFor size l.length l

namespace Compose

/-- The greatest side of a composed picture. -/
def maxSide : Nat :=
  16384

/-- The cells that a turn takes in the row of its lane, apart from padding: one white cell, a
block of as many cells as there are quarter turns, and three instructions. -/
def turnLength (turns : Nat) : Nat :=
  1 + turns + 3

/-- The strokes of every lane.  There is one lane at least. -/
def lanes (data : Array UInt8) (key : Option (Array UInt8)) (bytesPerLane : Nat) :
    List (List Stroke) :=
  let bytes := (Payload.masked data key).map (Payload.byteStrokes key.isSome)
  match (pieces (max bytesPerLane 1) bytes).map List.flatten with
  | [] => [[]]
  | lanes => lanes

/-- The width that leaves room for the longest lane and for the turn at either end. -/
def widthFor (lanes : List (List Stroke)) : Nat :=
  1 + (lanes.map Stroke.totalCount).foldl max 0 + turnLength 3 + 1

/-- Two rows for every lane. -/
def heightFor (lanes : List (List Stroke)) : Nat :=
  2 * lanes.length

/-- The white cells that carry a turn from the tip of the pen out to the edge of the picture,
none if the turn does not fit. -/
def padding? (width x turns : Nat) (rightward : Bool) : Option Nat :=
  if rightward then
    if x + turnLength turns ≤ width - 1 then some (width - 1 - (x + turnLength turns)) else none
  else
    if turnLength turns ≤ x then some (x - turnLength turns) else none

/-- Turns around at the end of a lane.  The number of quarter turns is pushed twice and used
once in the row of the lane and once below it: one clockwise turn each at the right edge, and
three at the left. -/
def turnAround (pen : Pen) (width : Nat) (rightward : Bool) : Pen × Option Error :=
  let turns := if rightward then 1 else 3
  match padding? width pen.tip.x turns rightward with
  | none => (pen, some .offCanvas)
  | some padding =>
    pen.strokes
      [⟨.white, 1 + padding⟩, ⟨.op .noop, turns⟩, ⟨.op .push, 1⟩, ⟨.op .duplicate, 1⟩,
        ⟨.op .pointer, 1⟩, ⟨.op .noop, 1⟩, ⟨.op .pointer, 1⟩]

/-- Paints the lanes, alternately rightward and leftward. -/
def paintLanes (width : Nat) (pen : Pen) (rightward : Bool) :
    List (List Stroke) → Pen × Option Error
  | [] => (pen, none)
  | lane :: rest =>
    match pen.strokes lane with
    | (pen, some e) => (pen, some e)
    | (pen, none) =>
      if rest.isEmpty then
        pen.close (if rightward then .right else .left)
      else
        match turnAround pen width rightward with
        | (pen, some e) => (pen, some e)
        | (pen, none) => paintLanes width pen (!rightward) rest

end Compose

/-- A composed picture, and how it was laid out. -/
structure Composition where
  grid : Grid
  laneCount : Nat
  width : Nat
  notices : Array Notice

/-- Makes a picture whose program prints the given bytes, so many of them in each lane.  With a
key, the program prints them only if it is given the key as often as it takes. -/
def compose (data : Array UInt8) (key : Option (Array UInt8)) (bytesPerLane : Nat) :
    Except Error Composition :=
  if key = some #[] then
    .error .emptyKey
  else
    let lanes := Compose.lanes data key bytesPerLane
    let width := Compose.widthFor lanes
    let height := Compose.heightFor lanes
    if bytesPerLane = 0 ∨ Compose.maxSide < width ∨ Compose.maxSide < height then
      .error (.capacity width height Compose.maxSide)
    else
      match Compose.paintLanes width (.start (Payload.feed data key)) true lanes with
      | (_, some e) => .error e
      | (pen, none) =>
        if pen.shadow.output.written = data then
          .ok ⟨pen.canvas.toGrid, lanes.length, width, pen.notices⟩
        else
          .error .unfaithful

end Piet
