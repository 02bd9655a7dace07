import Piet.Color.Basic
import Piet.Grid.Basic
import Piet.Plane.Position

/-!
# Blocks and the atlas of a picture

A block is a set of pixels of one colour that the pointer treats as a unit: a connected region
of a picture, or the stretch of white that it slides across in one step.  A block is never
empty, so there is always a pixel to leave from (`Block.exit_mem`).

An atlas splits a picture into its blocks, the maximal connected regions of one colour.  A
block is found when one of its pixels is asked for first, by a breadth-first flood fill; after
that every pixel of the region yields the same block.
-/

namespace Piet

/-! ### Blocks -/

/-- Pixels of one colour, in the order in which they were found. -/
structure Block where
  color : Color
  pixels : Array Pos
  nonempty : 0 < pixels.size
deriving DecidableEq

namespace Block

/-- A block of one pixel. -/
def single (color : Color) (p : Pos) : Block :=
  ⟨color, #[p], Nat.zero_lt_one⟩

/-- The block with one more pixel. -/
def push (b : Block) (p : Pos) : Block :=
  ⟨b.color, b.pixels.push p, by simp⟩

/-- The number of pixels. -/
def size (b : Block) : Nat :=
  b.pixels.size

/-- The pixel that was found first. -/
def first (b : Block) : Pos :=
  have := b.nonempty
  b.pixels[0]

/-- The pixel that was found last. -/
def final (b : Block) : Pos :=
  b.pixels.back b.nonempty

/-- A pixel belongs to a block. -/
def Has (b : Block) (p : Pos) : Prop :=
  p ∈ b.pixels

/-- The pixel found last is looked at first, since a block mostly grows next to it. -/
instance (b : Block) (p : Pos) : Decidable (b.Has p) :=
  decidable_of_iff (b.final = p ∨ p ∈ b.pixels)
    ⟨fun h => h.elim (fun h => h ▸ Array.back_mem b.nonempty) id, .inr⟩

/-- The pixel from which the pointer leaves. -/
def exit (b : Block) (dp : Direction) (cc : Chooser) : Pos :=
  (Heading.of dp cc).furthestFrom b.first b.pixels

@[simp]
theorem color_single (color : Color) (p : Pos) : (single color p).color = color := rfl

@[simp]
theorem color_push (b : Block) (p : Pos) : (b.push p).color = b.color := rfl

@[simp]
theorem final_single (color : Color) (p : Pos) : (single color p).final = p := rfl

@[simp]
theorem final_push (b : Block) (p : Pos) : (b.push p).final = p := by
  simp [final, push, Array.back]

theorem mem_pixels_push {b : Block} {p q : Pos} :
    q ∈ (b.push p).pixels ↔ q ∈ b.pixels ∨ q = p :=
  Array.mem_push

@[simp]
theorem exit_single (color : Color) (p : Pos) (dp : Direction) (cc : Chooser) :
    (single color p).exit dp cc = p :=
  Heading.further_self _ p

@[simp]
theorem first_push (b : Block) (p : Pos) : (b.push p).first = b.first :=
  Array.getElem_push_lt b.nonempty

@[simp]
theorem exit_push (b : Block) (p : Pos) (dp : Direction) (cc : Chooser) :
    (b.push p).exit dp cc = (Heading.of dp cc).further (b.exit dp cc) p := by
  rw [exit, first_push]
  exact Heading.furthestFrom_push _ _ _ _

theorem first_mem (b : Block) : b.first ∈ b.pixels :=
  Array.getElem_mem b.nonempty

theorem final_mem (b : Block) : b.final ∈ b.pixels :=
  Array.back_mem b.nonempty

/-- The pointer leaves a block from one of its own pixels. -/
theorem exit_mem (b : Block) (dp : Direction) (cc : Chooser) : b.exit dp cc ∈ b.pixels := by
  rcases (Heading.of dp cc).furthestFrom_mem b.first b.pixels with h | h
  · rw [exit, h]
    exact b.first_mem
  · exact h

end Block

/-! ### The atlas -/

/-- A picture together with the blocks found so far.  The owner of a pixel is the number of
its block. -/
structure Atlas where
  grid : Grid
  owner : Array (Option Nat)
  blocks : Array Block

/-- A flood fill under way: the owners so far and the block as far as it has been found.  The
block is its own queue, since pixels are visited in the order in which they are found. -/
structure Flood where
  owner : Array (Option Nat)
  block : Block

namespace Flood

/-- Takes a pixel into block number `k` if it has the right colour and no owner yet. -/
def claim (g : Grid) (k : Nat) (f : Flood) (p : Pos) : Flood :=
  if g.get? p = some f.block.color ∧ f.owner[g.index p]? = some none then
    ⟨f.owner.setIfInBounds (g.index p) (some k), f.block.push p⟩
  else
    f

/-- Tries the four neighbours of a pixel. -/
def visit (g : Grid) (k : Nat) (f : Flood) (p : Pos) : Flood :=
  Direction.all.foldl
    (fun f d => match p.step d with
      | some q => f.claim g k q
      | none => f)
    f

/-- Visits the pixels of the block from number `head` on, including those found on the way, as
long as there are such pixels and at most `fuel` of them. -/
def spread (g : Grid) (k : Nat) : (fuel : Nat) → Flood → (head : Nat) → Flood
  | 0, f, _ => f
  | fuel + 1, f, head =>
    match f.block.pixels[head]? with
    | none => f
    | some p => spread g k fuel (f.visit g k p) (head + 1)

end Flood

namespace Atlas

/-- The atlas of a picture in which no block has been found yet. -/
def ofGrid (g : Grid) : Atlas :=
  ⟨g, Array.replicate g.cells.size none, #[]⟩

/-- The number of the block of a pixel, if that has been found. -/
def owner? (a : Atlas) (p : Pos) : Option Nat :=
  a.owner[a.grid.index p]?.join

/-- Finds the block of a pixel that has no owner yet.  The fill visits no pixel twice, so as
many visits as there are pixels are enough. -/
def fill (a : Atlas) (color : Color) (p : Pos) : Atlas × Block :=
  let k := a.blocks.size
  let start : Flood := ⟨a.owner.setIfInBounds (a.grid.index p) (some k), .single color p⟩
  let f := start.spread a.grid k a.grid.cells.size 0
  (⟨a.grid, f.owner, a.blocks.push f.block⟩, f.block)

/-- The block of a pixel, which is found now unless it is known already.  There is none
outside the picture. -/
def blockAt (a : Atlas) (p : Pos) : Atlas × Option Block :=
  match a.grid.get? p with
  | none => (a, none)
  | some color =>
    match a.owner? p with
    | some k => (a, a.blocks[k]?)
    | none =>
      let (a, b) := a.fill color p
      (a, some b)

@[simp]
theorem grid_blockAt (a : Atlas) (p : Pos) : (a.blockAt p).1.grid = a.grid := by
  unfold blockAt
  split
  · rfl
  · split <;> rfl

end Atlas

end Piet
