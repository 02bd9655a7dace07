import Piet.Grid.Basic

/-!
# The smallest side of a block

When a picture is drawn with enlarged pixels, the length of the shortest run of equal pixels
along any row or column tells how large they are.
-/

namespace Piet

/-- What a scan of a sequence for its shortest run knows: the run that is still open, as an
element and its length so far, and the shortest one among those that have ended. -/
structure RunScan (α : Type) where
  openRun : Option (α × Nat)
  shortest : Nat

namespace RunScan

variable {α : Type}

/-- The largest number a side can have, which stands for "no run at all". -/
def noRun : Nat :=
  UInt64.size - 1

/-- Before the first element. -/
def start : RunScan α :=
  ⟨none, noRun⟩

/-- Counts the open run among those that have ended. -/
def close (s : RunScan α) : Nat :=
  match s.openRun with
  | none => s.shortest
  | some (_, n) => min s.shortest n

/-- Reads one more element: it extends the open run or closes it and opens its own. -/
def next [DecidableEq α] (s : RunScan α) (a : α) : RunScan α :=
  match s.openRun with
  | none => ⟨some (a, 1), s.shortest⟩
  | some (b, n) => if b = a then ⟨some (b, n + 1), s.shortest⟩ else ⟨some (a, 1), s.close⟩

end RunScan

/-- The length of the shortest run of equal elements in a sequence; `RunScan.noRun` if the
sequence is empty. -/
def shortestRun {α : Type} [DecidableEq α] (l : List α) : Nat :=
  (l.foldl RunScan.next RunScan.start).close

namespace Grid

/-- The pixels of one row, from the left. -/
def row (g : Grid) (y : Nat) : List Color :=
  (List.range g.width).filterMap fun x => g.get? ⟨y, x⟩

/-- The pixels of one column, from the top. -/
def column (g : Grid) (x : Nat) : List Color :=
  (List.range g.height).filterMap fun y => g.get? ⟨y, x⟩

/-- The length of the shortest run of equal pixels along any row or column; one for a picture
that has neither. -/
def smallestSide (g : Grid) : Nat :=
  let rows := (List.range g.height).map fun y => shortestRun (g.row y)
  let columns := (List.range g.width).map fun x => shortestRun (g.column x)
  max ((rows ++ columns).min?.getD 1) 1

end Grid

end Piet
