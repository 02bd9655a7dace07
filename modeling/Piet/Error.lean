import Piet.Color.Basic
import Piet.Plane.Position

/-!
# Errors

What can go wrong when pictures are read, written or composed, and how it is worded.
-/

namespace Piet

/-- Why a picture could not be read, written, composed or run. -/
inductive Error where
  /-- A file or stream could not be read or written. -/
  | io
  /-- An image file could not be decoded or encoded. -/
  | image
  /-- A pixel has a value that stands for no colour. -/
  | invalidColor (pos : Pos) (color : Rgb)
  /-- There is no pixel to start from. -/
  | emptyImage
  /-- The picture would be too large. -/
  | capacity (width height limit : Nat)
  /-- A key without bytes. -/
  | emptyKey
  /-- The cell has been painted before. -/
  | overlap (pos : Pos)
  /-- The cell would join two blocks. -/
  | merge (pos : Pos)
  /-- The cell has no address. -/
  | offCanvas
  /-- The cell lies too far away for any canvas. -/
  | outOfRange (pos : Pos)
  /-- The program does not print what it was composed for. -/
  | unfaithful
deriving DecidableEq

namespace Error

/-- The wording of an error, without its cause. -/
def message : Error → String
  | io => "I/O failed"
  | image => "image codec failed"
  | invalidColor pos _ => "pixel " ++ pos.text ++ " has an invalid color"
  | emptyImage => "image has no pixels"
  | capacity width height limit =>
    "payload needs a " ++ toString width ++ "x" ++ toString height ++
      " image but sides are limited to " ++ toString limit
  | emptyKey => "key must not be empty"
  | overlap pos => "cell " ++ pos.text ++ " is already painted"
  | merge pos => "painting " ++ pos.text ++ " would merge two codels"
  | offCanvas => "pen left the canvas"
  | outOfRange pos => "cell " ++ pos.text ++ " is out of range"
  | unfaithful => "generated program does not reproduce its payload"

/-- The wording of what caused an error, where that is known. -/
def cause? : Error → Option String
  | invalidColor _ color => some color.invalidText
  | _ => none

/-- The wording of an error and its cause. -/
def fullMessage (e : Error) : String :=
  match e.cause? with
  | some cause => e.message ++ ": " ++ cause
  | none => e.message

end Error

end Piet
