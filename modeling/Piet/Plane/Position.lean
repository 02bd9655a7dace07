/-!
# Positions, directions and exits

Pixels are addressed by row and column, and a program runs in one of the four directions
along them.  Coordinates are 64-bit words: a step beyond either end of their range does not
exist.

* `Pos.step` is the neighbour in a direction; `Pos.step_eq_some_iff` says where it lies and
  when there is one.
* `Direction.rotate` turns clockwise by any number of quarter turns and `Chooser.flip`
  toggles any number of times; turns add up (`Direction.rotate_add`).

Among the pixels of a block the pointer leaves from the one that lies furthest in its own
direction and, among those, furthest towards the side that the codel chooser prefers.
Distances are compared as signed 64-bit words.  The least of these words has no opposite, so a
coordinate that is read as this word has no distance to the left or upward.

* `Heading.further` compares two pixels and `Heading.furthestFrom` any number of them.
* `Heading.furthestFrom_mem` says that the result is one of the pixels compared.
-/

namespace Piet

/-- A pixel address: the row `y` counted from the top, the column `x` from the left. -/
structure Pos where
  y : Nat
  x : Nat
deriving DecidableEq, Inhabited

/-- The directions in which the pointer runs, in clockwise order. -/
inductive Direction where
  | right
  | down
  | left
  | up
deriving DecidableEq, Inhabited

/-- Which side the pointer prefers where it could leave a block at several pixels. -/
inductive Chooser where
  | left
  | right
deriving DecidableEq, Inhabited

/-! ### Directions -/

namespace Direction

/-- The four directions in clockwise order. -/
def all : List Direction :=
  [right, down, left, up]

/-- The number of quarter turns from `right`. -/
def index : Direction → Nat
  | right => 0
  | down => 1
  | left => 2
  | up => 3

/-- The next direction clockwise. -/
def clockwise : Direction → Direction
  | right => down
  | down => left
  | left => up
  | up => right

/-- Turns clockwise by a number of quarter turns, and the other way round if that is
negative. -/
def rotate (d : Direction) (turns : Int) : Direction :=
  match (turns % 4).toNat with
  | 0 => d
  | 1 => d.clockwise
  | 2 => d.clockwise.clockwise
  | _ => d.clockwise.clockwise.clockwise

/-- The row and column distance to the neighbour in a direction. -/
def offset : Direction → Int × Int
  | right => (0, 1)
  | down => (1, 0)
  | left => (0, -1)
  | up => (-1, 0)

/-- The written name of a direction. -/
def name : Direction → String
  | right => "right"
  | down => "down"
  | left => "left"
  | up => "up"

theorem mem_all (d : Direction) : d ∈ all := by
  cases d <;> decide

@[simp]
theorem clockwise_clockwise_clockwise_clockwise (d : Direction) :
    d.clockwise.clockwise.clockwise.clockwise = d := by
  cases d <;> rfl

@[simp]
theorem rotate_zero (d : Direction) : d.rotate 0 = d := rfl

/-- Only the residue of the number of turns modulo four matters. -/
theorem rotate_emod (d : Direction) (n : Int) : d.rotate (n % 4) = d.rotate n := by
  simp [rotate]

theorem rotate_add (d : Direction) (m n : Int) : d.rotate (m + n) = (d.rotate m).rotate n := by
  have hm : m % 4 = 0 ∨ m % 4 = 1 ∨ m % 4 = 2 ∨ m % 4 = 3 := by omega
  have hn : n % 4 = 0 ∨ n % 4 = 1 ∨ n % 4 = 2 ∨ n % 4 = 3 := by omega
  rw [← rotate_emod d (m + n), Int.add_emod, ← rotate_emod d m, ← rotate_emod _ n]
  rcases hm with hm | hm | hm | hm <;> rcases hn with hn | hn | hn | hn <;>
    rw [hm, hn] <;> cases d <;> rfl

end Direction

/-! ### The codel chooser -/

namespace Chooser

/-- The other side. -/
def opposite : Chooser → Chooser
  | left => right
  | right => left

/-- Toggles a number of times, so that only its parity matters. -/
def flip (c : Chooser) (times : Int) : Chooser :=
  if times % 2 = 0 then c else c.opposite

/-- Quarter turns from the direction of the pointer to the preferred side. -/
def turns : Chooser → Int
  | left => -1
  | right => 1

/-- The written name of a chooser. -/
def name : Chooser → String
  | left => "left"
  | right => "right"

@[simp]
theorem opposite_opposite (c : Chooser) : c.opposite.opposite = c := by
  cases c <;> rfl

@[simp]
theorem flip_zero (c : Chooser) : c.flip 0 = c := rfl

@[simp]
theorem flip_one (c : Chooser) : c.flip 1 = c.opposite := rfl

theorem flip_add (c : Chooser) (m n : Int) : c.flip (m + n) = (c.flip m).flip n := by
  have hm : m % 2 = 0 ∨ m % 2 = 1 := by omega
  have hn : n % 2 = 0 ∨ n % 2 = 1 := by omega
  rcases hm with hm | hm <;> rcases hn with hn | hn <;> simp [flip, Int.add_emod, hm, hn]

end Chooser

/-! ### Positions -/

namespace Pos

/-- The top left pixel. -/
def origin : Pos :=
  ⟨0, 0⟩

/-- The number of different coordinates. -/
def limit : Nat :=
  UInt64.size

/-- The neighbour in a direction, unless its coordinates would leave their range. -/
def step (p : Pos) : Direction → Option Pos
  | .right => if p.x + 1 < limit then some ⟨p.y, p.x + 1⟩ else none
  | .down => if p.y + 1 < limit then some ⟨p.y + 1, p.x⟩ else none
  | .left => if 0 < p.x then some ⟨p.y, p.x - 1⟩ else none
  | .up => if 0 < p.y then some ⟨p.y - 1, p.x⟩ else none

/-- The written form of a position. -/
def text (p : Pos) : String :=
  "(" ++ toString p.y ++ ", " ++ toString p.x ++ ")"

/-- A step moves by the offset of its direction.  From a position in range it exists exactly
when the place it leads to is in range. -/
theorem step_eq_some_iff {p q : Pos} {d : Direction} (hy : p.y < limit) (hx : p.x < limit) :
    p.step d = some q ↔
      (q.y : Int) = p.y + d.offset.1 ∧ (q.x : Int) = p.x + d.offset.2 ∧
        q.y < limit ∧ q.x < limit := by
  obtain ⟨py, px⟩ := p
  obtain ⟨qy, qx⟩ := q
  cases d <;>
    simp only [step, Direction.offset, Option.ite_none_right_eq_some, Option.some.injEq,
      Pos.mk.injEq] at * <;> omega

end Pos

/-! ### Exits -/

/-- How far a position lies towards a direction; larger is further. -/
def Direction.extent (d : Direction) (p : Pos) : Int64 :=
  match d with
  | .right => Int64.ofNat p.x
  | .down => Int64.ofNat p.y
  | .left => -Int64.ofNat p.x
  | .up => -Int64.ofNat p.y

/-- A position has a distance in every direction. -/
def Pos.Measurable (p : Pos) : Prop :=
  Int64.ofNat p.y ≠ Int64.minValue ∧ Int64.ofNat p.x ≠ Int64.minValue

instance (p : Pos) : Decidable p.Measurable :=
  inferInstanceAs (Decidable (_ ∧ _))

/-- The direction of the pointer together with the side it prefers. -/
structure Heading where
  ahead : Direction
  side : Direction
deriving DecidableEq

namespace Heading

/-- The side that a chooser prefers lies a quarter turn from the direction of the pointer. -/
def of (dp : Direction) (cc : Chooser) : Heading :=
  ⟨dp, dp.rotate cc.turns⟩

/-- All headings: every direction first with the left side and then with the right one. -/
def all : List Heading :=
  Direction.all.flatMap fun d => [of d .left, of d .right]

/-- The further one of two positions: first towards what lies ahead and, at the same distance,
towards the side.  If neither is further, it is the second one. -/
def further (h : Heading) (p q : Pos) : Pos :=
  let a := h.ahead.extent p
  let b := h.ahead.extent q
  if b < a then p
  else if a < b then q
  else if h.side.extent q < h.side.extent p then p
  else q

/-- The furthest one of a position and some others. -/
def furthestFrom (h : Heading) (first : Pos) (others : Array Pos) : Pos :=
  others.foldl h.further first

/-- The furthest one of some positions, if there are any. -/
def furthest? (h : Heading) (pixels : Array Pos) : Option Pos :=
  pixels[0]?.map fun first => h.furthestFrom first pixels

/-- Where the pointer leaves some pixels, for all headings in turn.  None if the distances of a
pixel cannot all be measured. -/
def exits? (pixels : Array Pos) : Option (List (Option Pos)) :=
  if pixels.all fun p => p.Measurable then some (all.map fun h => h.furthest? pixels) else none

theorem further_eq_or (h : Heading) (p q : Pos) : h.further p q = p ∨ h.further p q = q := by
  rw [further]
  split
  · exact .inl rfl
  · split
    · exact .inr rfl
    · split
      · exact .inl rfl
      · exact .inr rfl

@[simp]
theorem further_self (h : Heading) (p : Pos) : h.further p p = p :=
  (h.further_eq_or p p).elim id id

@[simp]
theorem furthest?_empty (h : Heading) : h.furthest? #[] = none := rfl

/-- One more position has to be compared only with the furthest one so far. -/
@[simp]
theorem furthestFrom_push (h : Heading) (first : Pos) (others : Array Pos) (p : Pos) :
    h.furthestFrom first (others.push p) = h.further (h.furthestFrom first others) p :=
  Array.foldl_push

/-- The furthest position is one of those that were compared. -/
theorem furthestFrom_mem (h : Heading) (first : Pos) (pixels : Array Pos) :
    h.furthestFrom first pixels = first ∨ h.furthestFrom first pixels ∈ pixels := by
  obtain ⟨l⟩ := pixels
  simp only [furthestFrom, List.foldl_toArray', List.mem_toArray]
  induction l generalizing first with
  | nil => exact .inl rfl
  | cons q l ih =>
    rcases ih (h.further first q) with hl | hl
    · rw [List.foldl_cons, hl, List.mem_cons]
      exact (h.further_eq_or first q).imp_right .inl
    · exact .inr (List.mem_cons_of_mem _ hl)

end Heading

end Piet
