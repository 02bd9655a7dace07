import Piet.Image.Basic
import Piet.Image.Deflate.Block
import Piet.Image.Png.Chunk

/-!
# PNG files

Of the many files that hold a raster a simple one is written, with three samples of eight bits in
each pixel, as one pass of rows that are not filtered.  All kinds of images are read, of any size;
of one with an animation, the first frame.

* `Png.encode?` is the file of a raster, and `Png.decode?` the raster in a file.
-/

namespace Piet

namespace Png

/-! ### Row filters

The bytes of a row are kept as differences from what is predicted for them out of the bytes to the
left and in the row above.  A filter is a way to predict them, and `Filter.restore` gets the bytes
themselves back. -/

/-- How the bytes of a row are predicted. -/
inductive Filter where
  /-- All bytes are predicted to be zero. -/
  | plain
  | left
  | up
  | average
  | paeth
deriving DecidableEq

namespace Filter

/-- The filter with a number, which leads its row. -/
def ofByte? : UInt8 → Option Filter
  | 0 => some plain
  | 1 => some left
  | 2 => some up
  | 3 => some average
  | 4 => some paeth
  | _ => none

/-- The one of three bytes that is nearest to the sum of the first two less the third; of those
equally near, the first. -/
def nearest (a b c : UInt8) : UInt8 :=
  let distance (x : UInt8) : Nat := ((a.toNat : Int) + b.toNat - c.toNat - x.toNat).natAbs
  if distance a ≤ distance b ∧ distance a ≤ distance c then a
  else if distance b ≤ distance c then b
  else c

/-- The byte that is predicted from the one to the left, the one above, and the one above to
the left. -/
def predict (f : Filter) (a b c : UInt8) : UInt8 :=
  match f with
  | plain => 0
  | left => a
  | up => b
  | average => ((a.toNat + b.toNat) / 2).toUInt8
  | paeth => nearest a b c

/-- The bytes of a row, given their differences and the row above.  What lies `size` bytes
before belongs to the pixel to the left; bytes outside the image are zero. -/
def restore (f : Filter) (size : Nat) (above differences : Array UInt8) : Array UInt8 :=
  if f = plain then
    differences
  else
    differences.foldl
      (fun row d =>
        let i := row.size
        let before (bytes : Array UInt8) : UInt8 :=
          if size ≤ i then bytes[i - size]?.getD 0 else 0
        row.push (d + f.predict (before row) (above[i]?.getD 0) (before above)))
      #[]

/-- Without a filter the differences are the bytes themselves. -/
@[simp]
theorem restore_plain (size : Nat) (above differences : Array UInt8) :
    plain.restore size above differences = differences :=
  if_pos rfl

end Filter

/-! ### Passes over an image

The rows of an image are kept in one pass over all pixels, or interlaced in seven passes, each of
which covers a finer raster of them.  A pass over no pixels has no rows at all. -/


/-- A pass over the pixels in every `dx`-th column from `x` on, and in every `dy`-th row from
`y` on. -/
structure Pass where
  x : Nat
  y : Nat
  dx : Nat
  dy : Nat

namespace Pass

/-- The pass over all pixels. -/
def plain : List Pass :=
  [⟨0, 0, 1, 1⟩]

/-- The seven passes of an interlaced image. -/
def interlaced : List Pass :=
  [⟨0, 0, 8, 8⟩, ⟨4, 0, 8, 8⟩, ⟨0, 4, 4, 8⟩, ⟨2, 0, 4, 4⟩, ⟨0, 2, 2, 4⟩, ⟨1, 0, 2, 2⟩,
    ⟨0, 1, 1, 2⟩]

/-- How many of the places from `start` on, `step` apart, lie within a length. -/
def count (start step length : Nat) : Nat :=
  (length - start + step - 1) / step

/-- The number of pixels in each row of a pass. -/
def columns (p : Pass) (h : Header) : Nat :=
  count p.x p.dx h.width

/-- The number of rows of a pass. -/
def rows (p : Pass) (h : Header) : Nat :=
  if p.columns h = 0 then 0 else count p.y p.dy h.height

/-- The number of bytes that a row of a pass takes, without the one that names its filter. -/
def rowSize (p : Pass) (h : Header) : Nat :=
  Sample.rowSize h.pixelBits (p.columns h)

/-- Reads `count` rows of `size` bytes from number `start` on, if there are enough bytes. -/
def readRows? (pixelSize size : Nat) (bytes : Array UInt8) :
    (count start : Nat) → (above : Array UInt8) → Array (Array UInt8) →
      Option (Array (Array UInt8))
  | 0, _, _, rows => some rows
  | count + 1, start, above, rows => do
    let filter ← Filter.ofByte? (← bytes[start]?)
    let stop := start + 1 + size
    if bytes.size < stop then
      none
    let row := filter.restore pixelSize above (bytes.extract (start + 1) stop)
    readRows? pixelSize size bytes count stop row (rows.push row)

/-- Reads the rows of some passes, the first of which begins at byte number `start`. -/
def readAll? (h : Header) (bytes : Array UInt8) : List Pass → (start : Nat) →
    Option (List (Pass × Array (Array UInt8)))
  | [], _ => some []
  | p :: passes, start => do
    let size := p.rowSize h
    let rows ← readRows? h.pixelSize size bytes (p.rows h) start #[] #[]
    let rest ← readAll? h bytes passes (start + p.rows h * (1 + size))
    return (p, rows) :: rest

/-- The row that holds a pixel, and the place of the pixel in it, if the pass covers it. -/
def find? (p : Pass) (rows : Array (Array UInt8)) (y x : Nat) : Option (Array UInt8 × Nat) :=
  if p.y ≤ y ∧ (y - p.y) % p.dy = 0 ∧ p.x ≤ x ∧ (x - p.x) % p.dx = 0 then
    rows[(y - p.y) / p.dy]?.map fun row => (row, (x - p.x) / p.dx)
  else
    none

end Pass

/-- The pixels of an image, if there are enough bytes for them. -/
def pixels? (h : Header) (palette : Palette) (bytes : Array UInt8) : Option (Array Rgb) := do
  let passes ← Pass.readAll? h bytes (if h.interlaced then Pass.interlaced else Pass.plain) 0
  return Array.ofFn fun i : Fin (h.width * h.height) =>
    match passes.findSome? fun (p, rows) => p.find? rows (i / h.width) (i % h.width) with
    | some (row, x) => pixelAt h palette row x
    | none => ⟨0, 0, 0⟩

/-! ### Writing -/

/-- The bytes of the rows of a raster, each led by the number of its filter. -/
def rowBytes (r : Raster) : Array UInt8 :=
  (List.range r.height).foldl
    (fun bytes y =>
      (r.pixels.extract (y * r.width) (y * r.width + r.width)).foldl
        (fun bytes c => ((bytes.push c.red).push c.green).push c.blue)
        (bytes.push 0))
    #[]

/-- Compressed data in its frame: two bytes that announce it, and a checksum. -/
def compress (bytes : Array UInt8) : List UInt8 :=
  [0x78, 0x01] ++ Deflate.compress bytes 3 ++ Bytes.encodeBE 4 (Checksum.adler32 bytes.toList)

/-- The greatest length of a piece of image data. -/
def maxPiece : Nat :=
  UInt32.size / 2 - 1

/-- The chunks of image data with some content, at most `fuel` of them: pieces of the greatest
length, and what is left. -/
def dataChunks : (fuel : Nat) → List UInt8 → List UInt8
  | 0, _ | _, [] => []
  | fuel + 1, content =>
    Chunk.encode Tag.data (content.take maxPiece) ++ dataChunks fuel (content.drop maxPiece)

/-- The file of a raster.  There is none for a raster without pixels. -/
def encode? (r : Raster) : Option (Array UInt8) :=
  if r.width = 0 ∨ r.height = 0 then
    none
  else
    let data := compress (rowBytes r)
    some (signature ++ Chunk.encode Tag.header (Header.encode r.width r.height) ++
      dataChunks data.length data ++ Chunk.encode Tag.close []).toArray

/-! ### Reading -/

/-- Takes the number off the content of a chunk of frame data, which has to be the given one. -/
def numbered? (number : Nat) (content : List UInt8) : Option (List UInt8) := do
  let (front, rest) ← Bytes.take? 4 content
  if Bytes.numberBE front = number then some rest else none

/-- Collects the content of the chunks of image data.  They follow each other and have the same
tag; the next chunk has to begin at least.  Chunks of frame data are numbered.  At most `fuel`
chunks are read. -/
def readData? (tag : Tag) : (fuel : Nat) → (number : Nat) → List UInt8 → Option (List UInt8)
  | 0, _, _ => none
  | fuel + 1, number, bytes => do
    if (← Chunk.nextTag? bytes) ≠ tag then
      return []
    let (c, rest) ← Chunk.take? bytes
    if tag.IsCritical ∧ ¬ c.Intact then
      none
    let content ← if tag = Tag.frameData then numbered? number c.content else some c.content
    return content ++ (← readData? tag fuel (number + 1) rest)

/-- Expands compressed data in its frame.  The checksum is not looked at. -/
def expand? : List UInt8 → Option (Array UInt8)
  | method :: flags :: rest =>
    if method.toNat % 16 = 8 ∧ method.toNat / 16 ≤ 7 ∧
        (method.toNat * 256 + flags.toNat) % 31 = 0 ∧ flags.toNat / 32 % 2 = 0 then
      Deflate.inflate? rest
    else
      none
  | _ => none

/-- Reads a file. -/
def decode? (bytes : Array UInt8) : Option Raster := do
  let (front, rest) ← Bytes.take? 8 bytes.toList
  if front ≠ signature then
    none
  let (c, rest) ← Chunk.take? rest
  if c.tag ≠ Tag.header ∨ ¬ c.Intact then
    none
  let h ← Header.ofBytes? c.content
  -- Everything up to the first chunk of image data.
  let (p, rest) ← Preamble.read? rest.length (.ofHeader h) rest
  if h.colorType = .indexed ∧ p.palette? = none then
    none
  -- The image data stands in ordinary chunks or in those of the first frame.
  let data ← readData? (← Chunk.nextTag? rest) rest.length p.nextNumber rest
  let pixels ← pixels? h (p.palette?.getD #[]) (← expand? data)
  Raster.ofPixels? h.width h.height pixels

end Png

end Piet
