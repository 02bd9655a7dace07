import Piet.Color.Basic
import Piet.Image.Basic
import Piet.Image.Bytes

/-!
# BMP files

A BMP file begins with a header that tells where its pixels are, and a second one, of several
versions, that tells how they are kept: packed into two to four bytes each, as numbers of
colours in a palette, or as runs of such numbers.  Pictures are written without compression and with
24 bits in each pixel, the bottom row first.  Files of all versions are read.

* `Bmp.encode?` is the file of a raster, and `Bmp.decode?` the raster in a file.
-/

namespace Piet

namespace Bmp

/-! ### Fields -/

/-- The number that stands in `width` bytes from number `start` on. -/
def field (bytes : Array UInt8) (start width : Nat) : Nat :=
  Bytes.numberLE (bytes.extract start (start + width)).toList

/-- The sizes of the second header.  The oldest version is shorter and has other fields; newer
ones extend the one after it. -/
inductive Version where
  | core
  | info
  /-- With masks for red, green and blue. -/
  | masked
  /-- With a mask for transparency as well. -/
  | masked4 (size : Nat)
deriving DecidableEq

namespace Version

/-- The version with a given size. -/
def ofSize? : Nat → Option Version
  | 12 => some core
  | 40 => some info
  | 52 => some masked
  | 56 => some (masked4 56)
  | 108 => some (masked4 108)
  | 124 => some (masked4 124)
  | _ => none

/-- The number of bytes of a colour in the palette. -/
def entrySize : Version → Nat
  | core => 3
  | _ => 4

/-- The number of masks. -/
def maskCount : Version → Nat
  | masked4 _ => 4
  | _ => 3

end Version

/-! ### Packed pixels -/

/-- A channel of a packed pixel: so many bits, the lowest of which is number `shift`. -/
structure Channel where
  shift : Nat
  bits : Nat
deriving DecidableEq

namespace Channel

/-- The channel whose bits are those of a mask.  They have to follow each other within the bits
of a pixel, and only the eight highest of them count.  The mask zero has no bits. -/
def ofMask? (mask pixelBits : Nat) : Option Channel :=
  let shift := ((List.range 32).find? fun i => mask.testBit i).getD 0
  let bits := (mask / Nat.pow 2 shift + 1).log2
  if mask = (Nat.pow 2 bits - 1) * Nat.pow 2 shift ∧ shift + bits ≤ pixelBits then
    some (if 8 < bits then ⟨shift + bits - 8, 8⟩ else ⟨shift, bits⟩)
  else
    none

/-- The amount of light in a channel. -/
def light (c : Channel) (pixel : Nat) : UInt8 :=
  Sample.toByte c.bits (pixel / Nat.pow 2 c.shift % Nat.pow 2 c.bits)

end Channel

/-- The channels of a packed pixel. -/
structure Channels where
  red : Channel
  green : Channel
  blue : Channel

namespace Channels

/-- Eight bits for each channel, blue lowest. -/
def full : Channels :=
  ⟨⟨16, 8⟩, ⟨8, 8⟩, ⟨0, 8⟩⟩

/-- Five bits for each channel, blue lowest. -/
def short : Channels :=
  ⟨⟨10, 5⟩, ⟨5, 5⟩, ⟨0, 5⟩⟩

/-- The channels with given masks.  No colour can be without bits; what follows the first three
has only to be well formed. -/
def ofMasks? (masks : List Nat) (pixelBits : Nat) : Option Channels := do
  match ← masks.mapM fun m => Channel.ofMask? m pixelBits with
  | red :: green :: blue :: _ =>
    if red.bits = 0 ∨ green.bits = 0 ∨ blue.bits = 0 then none else some ⟨red, green, blue⟩
  | _ => none

/-- The colour of a packed pixel. -/
def color (c : Channels) (pixel : Nat) : Rgb :=
  ⟨c.red.light pixel, c.green.light pixel, c.blue.light pixel⟩

end Channels

/-! ### Headers -/

/-- How pixels are kept. -/
inductive Layout where
  /-- So many bytes for each pixel. -/
  | packed (size : Nat) (channels : Channels)
  /-- Numbers of colours with so many bits. -/
  | indexed (bits : Nat)
  /-- Runs of numbers of colours with so many bits. -/
  | runs (bits : Nat)

/-- What the headers tell. -/
structure Header where
  /-- Where the pixels begin. -/
  start : Nat
  width : Nat
  height : Nat
  /-- Whether the first row is the top one. -/
  topDown : Bool
  layout : Layout
  palette : Array Rgb

namespace Header

/-- The size of the first header. -/
def fileSize : Nat :=
  14

/-- The greatest side, but for the height of a picture whose first row is the top one. -/
def maxSide : Nat :=
  65535

/-- The greatest number of bytes that the pixels of a picture may take when they are read. -/
def maxMemory : Nat :=
  512 * 1024 * 1024

/-- The layout that the oldest version gives for pixels of so many bits. -/
def coreLayout? : (bits : Nat) → Option Layout
  | 1 => some (.indexed 1)
  | 4 => some (.indexed 4)
  | 8 => some (.indexed 8)
  | 24 => some (.packed 3 .full)
  | _ => none

/-- The layout of pixels of so many bits, by the method of compression.  Masks stand where they
follow the fields that all versions have. -/
def layout? (version : Version) (bytes : Array UInt8) : (method bits : Nat) → Option Layout
  | 0, 2 => some (.indexed 2)
  | 0, 16 => some (.packed 2 .short)
  | 0, 32 => some (.packed 4 .full)
  | 0, bits => coreLayout? bits
  | 1, 8 => some (.runs 8)
  | 2, 4 => some (.runs 4)
  | 3, bits =>
    if (bits = 16 ∨ bits = 32) ∧ 54 + 4 * version.maskCount ≤ bytes.size then
      let masks := (List.range version.maskCount).map fun i => field bytes (54 + 4 * i) 4
      (Channels.ofMasks? masks bits).map (Layout.packed (bits / 8))
    else
      none
  | _, _ => none

/-- Reads a palette for numbers of so many bits, if it is complete.  The number of its colours is
zero if it has as many as possible. -/
def palette? (version : Version) (bytes : Array UInt8) (start bits count : Nat) :
    Option (Array Rgb) :=
  let count := if count = 0 then Nat.pow 2 bits else count
  let size := version.entrySize
  if count ≤ Nat.pow 2 bits ∧ start + size * count ≤ bytes.size then
    some (Array.ofFn fun i : Fin count => Channels.full.color (field bytes (start + size * i) 3))
  else
    none

/-- Reads both headers and the palette, if there is one.  There is one plane, and no side is
empty. -/
def ofBytes? (bytes : Array UInt8) : Option Header := do
  let field := field bytes
  let size := field 14 4
  let version ← Version.ofSize? size
  let core := version = .core
  if field 0 2 ≠ 0x4D42 ∨ bytes.size < fileSize + min size 40 then
    none
  -- A negative width is too large as an unsigned number, and a negative height means that the
  -- first row is the top one.
  let width := if core then field 18 2 else field 18 4
  let signed := if core then field 20 2 else field 22 4
  let topDown := UInt32.size / 2 ≤ signed
  let height := if topDown then UInt32.size - signed else signed
  let planes := if core then field 22 2 else field 26 2
  let bits := if core then field 24 2 else field 28 2
  let method := if core then 0 else field 30 4
  let layout ← if core then coreLayout? bits else layout? version bytes method bits
  if width = 0 ∨ height = 0 ∨ maxSide < width ∨ ¬ topDown ∧ maxSide < height ∨
      height = UInt32.size / 2 ∨ planes ≠ 1 ∨ maxMemory < 3 * width * height then
    none
  let palette ←
    match layout with
    | .packed .. => pure #[]
    | .indexed bits | .runs bits =>
      palette? version bytes (fileSize + size) bits (if core then 0 else field 46 4)
  -- Runs always begin with the bottom row.
  match layout with
  | .runs _ => if topDown then none
  | _ => pure ()
  return ⟨field 10 4, width, height, topDown, layout, palette⟩

/-- The number of the stored row that holds a row of the picture. -/
def storedRow (h : Header) (y : Nat) : Nat :=
  if h.topDown then y else h.height - 1 - y

/-- The number of bytes that a row takes, filled up to a multiple of four. -/
def rowSize (h : Header) (pixelBits : Nat) : Nat :=
  (pixelBits * h.width + 31) / 32 * 4

/-- The colour with a number.  What the palette does not have is black. -/
def colorAt (h : Header) (number : Nat) : Rgb :=
  h.palette[number]?.getD ⟨0, 0, 0⟩

end Header

/-! ### Runs of pixels

Runs are a sequence of commands, which fill the rows one after another from the left.  A command
adds a run of pixels of one or two colours or some pixels of any colours, skips some pixels, or ends
a row or the picture.  What is not filled stays black. -/


/-- What a command does. -/
inductive Command where
  | endRow
  | endPicture
  /-- Goes so far to the right and so many rows further. -/
  | skip (dx dy : Nat)
  /-- Adds pixels, given the numbers of their colours. -/
  | add (numbers : List Nat)

namespace Command

/-- Takes a command off the bytes of a file.  It is led by the number of pixels in a run, which
repeats the numbers in one byte.  Zero leads the other commands, and pixels of any colours take
an even number of bytes. -/
def take? (bits : Nat) : List UInt8 → Option (Command × List UInt8)
  | 0 :: 0 :: rest => some (endRow, rest)
  | 0 :: 1 :: rest => some (endPicture, rest)
  | 0 :: 2 :: dx :: dy :: rest => some (skip dx.toNat dy.toNat, rest)
  | 0 :: 2 :: _ => none
  | 0 :: n :: rest => do
    let count := n.toNat
    let (content, rest) ← Bytes.take? ((bits * count + 15) / 16 * 2) rest
    return (add ((List.range count).map fun k => Sample.get content.toArray bits k), rest)
  | n :: value :: rest =>
    let number (k : Nat) : Nat := Sample.get #[value] bits (k % (8 / bits))
    some (add ((List.range n.toNat).map number), rest)
  | _ => none

end Command

/-- A picture that is being filled: the finished rows, and the one that is under way. -/
structure Filling where
  rows : Array (Array Rgb)
  row : Array Rgb

namespace Filling

/-- So many black pixels. -/
def black (count : Nat) : Array Rgb :=
  Array.replicate count ⟨0, 0, 0⟩

/-- Finishes the row. -/
def endRow (f : Filling) (width : Nat) : Filling :=
  ⟨f.rows.push (f.row ++ black (width - f.row.size)), #[]⟩

/-- Carries out a command that does not end the picture.  No pixel can lie outside of it. -/
def perform? (h : Header) (f : Filling) : Command → Option Filling
  | .endRow => some (f.endRow h.width)
  | .endPicture => none
  | .skip dx dy =>
    if f.row.size + dx ≤ h.width ∧ f.rows.size + dy < h.height then
      if dy = 0 then
        -- The row goes on.
        some ⟨f.rows, f.row ++ black dx⟩
      else
        let rows := (f.endRow h.width).rows ++ Array.replicate (dy - 1) (black h.width)
        some ⟨rows, black (f.row.size + dx)⟩
    else
      none
  | .add numbers =>
    let row := f.row.appendList (numbers.map h.colorAt)
    if row.size ≤ h.width then some ⟨f.rows, row⟩ else none

/-- Carries out the commands in some bytes, at most `fuel` of them, until all rows are finished
or the picture is ended. -/
def run? (h : Header) (bits : Nat) :
    (fuel : Nat) → List UInt8 → Filling → Option (Array (Array Rgb))
  | 0, _, _ => none
  | fuel + 1, bytes, f =>
    if h.height ≤ f.rows.size then
      some f.rows
    else do
      let (command, bytes) ← Command.take? bits bytes
      match command with
      | .endPicture => return (f.endRow h.width).rows
      | command => run? h bits fuel bytes (← f.perform? h command)

end Filling

/-! ### Writing -/

/-- The number of bytes before the first pixel. -/
def headerSize : Nat :=
  54

/-- The number of bytes that a row takes, filled up to a multiple of four. -/
def rowSize (width : Nat) : Nat :=
  (3 * width + 3) / 4 * 4

/-- Both headers of a file. -/
def header (width height : Nat) : List UInt8 :=
  let dataSize := rowSize width * height
  [0x42, 0x4D] ++ Bytes.encodeLE 4 (headerSize + dataSize) ++ Bytes.encodeLE 4 0 ++
    Bytes.encodeLE 4 headerSize ++
    Bytes.encodeLE 4 40 ++ Bytes.encodeLE 4 width ++ Bytes.encodeLE 4 height ++
    Bytes.encodeLE 2 1 ++ Bytes.encodeLE 2 24 ++ Bytes.encodeLE 4 0 ++
    Bytes.encodeLE 4 dataSize ++ Bytes.encodeLE 4 0 ++ Bytes.encodeLE 4 0 ++
    Bytes.encodeLE 4 0 ++ Bytes.encodeLE 4 0

/-- The bytes of one row. -/
def rowBytes (r : Raster) (y : Nat) : List UInt8 :=
  (r.pixels.extract (y * r.width) (y * r.width + r.width)).toList.flatMap
      (fun c => [c.blue, c.green, c.red]) ++
    List.replicate (rowSize r.width - 3 * r.width) 0

/-- The file of a raster.  There is none if the sizes do not fit into the headers. -/
def encode? (r : Raster) : Option (Array UInt8) :=
  if rowSize r.width < UInt32.size ∧ headerSize + rowSize r.width * r.height < UInt32.size then
    some (header r.width r.height ++ (List.range r.height).reverse.flatMap (rowBytes r)).toArray
  else
    none

/-! ### Reading -/

/-- The pixels of a file whose headers are known, if there are enough bytes for them. -/
def pixels? (h : Header) (bytes : Array UInt8) : Option (Array Rgb) :=
  let image (pixel : (row x : Nat) → Rgb) : Array Rgb :=
    Array.ofFn fun i : Fin (h.width * h.height) => pixel (h.storedRow (i / h.width)) (i % h.width)
  match h.layout with
  | .packed size channels =>
    let stride := h.rowSize (8 * size)
    if h.start + stride * h.height ≤ bytes.size then
      some (image fun row x => channels.color (field bytes (h.start + stride * row + size * x) size))
    else
      none
  | .indexed bits =>
    let stride := h.rowSize bits
    if h.start + stride * h.height ≤ bytes.size then
      let rows := Array.ofFn fun row : Fin h.height =>
        bytes.extract (h.start + stride * row) (h.start + stride * (row + 1))
      some (image fun row x => h.colorAt (Sample.get (rows[row]?.getD #[]) bits x))
    else
      none
  | .runs bits =>
    let content := bytes.toList.drop h.start
    (Filling.run? h bits (content.length + h.height + 1) content ⟨#[], #[]⟩).map fun rows =>
      image fun row x => (rows[row]?.bind fun r => r[x]?).getD ⟨0, 0, 0⟩

/-- Reads a file. -/
def decode? (bytes : Array UInt8) : Option Raster := do
  let h ← Header.ofBytes? bytes
  Raster.ofPixels? h.width h.height (← pixels? h bytes)

end Bmp

end Piet
