import Piet.Color.Basic
import Piet.Image.Bytes

/-!
# Chunks of a PNG file

After its signature a PNG file is a sequence of chunks, each with a tag that tells what it
holds.  Chunks whose tags begin with a capital letter are critical: a reader has to understand
them.

The first chunk is the header, which tells the sides of an image, what its pixels consist of, and in
which order they stand.  It is followed by chunks about the image as a whole.  Most of them make
no difference to the pixels and are passed over, whatever they hold.  Of those that are looked
at, the palette has to be well formed, and so do the chunks that control an animation, since
the image may be its first frame.
-/

namespace Piet

namespace Png

/-! ### Chunks -/

/-- The first eight bytes of every file. -/
def signature : List UInt8 :=
  [0x89, 0x50, 0x4E, 0x47, 0x0D, 0x0A, 0x1A, 0x0A]

/-- The four letters that name a kind of chunk. -/
abbrev Tag :=
  List UInt8

namespace Tag

/-- The header, `IHDR`. -/
def header : Tag :=
  [0x49, 0x48, 0x44, 0x52]

/-- The palette, `PLTE`. -/
def palette : Tag :=
  [0x50, 0x4C, 0x54, 0x45]

/-- A piece of the image data, `IDAT`. -/
def data : Tag :=
  [0x49, 0x44, 0x41, 0x54]

/-- The end of the file, `IEND`. -/
def close : Tag :=
  [0x49, 0x45, 0x4E, 0x44]

/-- The control of an animation frame, `fcTL`. -/
def frame : Tag :=
  [0x66, 0x63, 0x54, 0x4C]

/-- A piece of the data of an animation frame, `fdAT`. -/
def frameData : Tag :=
  [0x66, 0x64, 0x41, 0x54]

/-- The code points of a colour space, `cICP`. -/
def codePoints : Tag :=
  [0x63, 0x49, 0x43, 0x50]

/-- The display on which the picture was mastered, `mDCV`. -/
def mastering : Tag :=
  [0x6D, 0x44, 0x43, 0x56]

/-- The light level of the picture, `cLLI`. -/
def lightLevel : Tag :=
  [0x63, 0x4C, 0x4C, 0x49]

/-- A chunk that cannot be left out. -/
def IsCritical (tag : Tag) : Prop :=
  (tag.headD 0).toNat / 32 % 2 = 0

instance (tag : Tag) : Decidable (IsCritical tag) :=
  inferInstanceAs (Decidable (_ = _))

end Tag

/-- A chunk as it stands in a file. -/
structure Chunk where
  tag : Tag
  content : List UInt8
  /-- The checksum of the tag and the content. -/
  checksum : Nat

namespace Chunk

/-- The checksum that a chunk ought to have. -/
def expected (tag : Tag) (content : List UInt8) : Nat :=
  (Checksum.crc32 (tag ++ content)).toNat

/-- The bytes of a chunk: its length, its tag, its content and a checksum. -/
def encode (tag : Tag) (content : List UInt8) : List UInt8 :=
  Bytes.encodeBE 4 content.length ++ tag ++ content ++ Bytes.encodeBE 4 (expected tag content)

/-- Takes a chunk off the bytes of a file, if it is complete. -/
def take? (bytes : List UInt8) : Option (Chunk × List UInt8) := do
  let (length, bytes) ← Bytes.take? 4 bytes
  let (tag, bytes) ← Bytes.take? 4 bytes
  let (content, bytes) ← Bytes.take? (Bytes.numberBE length) bytes
  let (checksum, bytes) ← Bytes.take? 4 bytes
  return (⟨tag, content, Bytes.numberBE checksum⟩, bytes)

/-- The tag of the chunk that comes next, if its length and its tag are there. -/
def nextTag? (bytes : List UInt8) : Option Tag := do
  let (_, bytes) ← Bytes.take? 4 bytes
  let (tag, _) ← Bytes.take? 4 bytes
  return tag

/-- The checksum of a chunk is right. -/
def Intact (c : Chunk) : Prop :=
  c.checksum = expected c.tag c.content

instance (c : Chunk) : Decidable c.Intact :=
  inferInstanceAs (Decidable (_ = _))

end Chunk

/-! ### The header -/


/-- What the samples of a pixel are. -/
inductive ColorType where
  | gray
  | rgb
  /-- The number of a colour in the palette. -/
  | indexed
  | grayAlpha
  | rgbAlpha
deriving DecidableEq

namespace ColorType

/-- The type with a number in the header. -/
def ofNat? : Nat → Option ColorType
  | 0 => some gray
  | 2 => some rgb
  | 3 => some indexed
  | 4 => some grayAlpha
  | 6 => some rgbAlpha
  | _ => none

/-- The number of samples in a pixel. -/
def channels : ColorType → Nat
  | gray => 1
  | rgb => 3
  | indexed => 1
  | grayAlpha => 2
  | rgbAlpha => 4

/-- The numbers of bits that a sample can have. -/
def depths : ColorType → List Nat
  | gray => [1, 2, 4, 8, 16]
  | indexed => [1, 2, 4, 8]
  | _ => [8, 16]

end ColorType

/-- The header of an image. -/
structure Header where
  width : Nat
  height : Nat
  /-- The number of bits in a sample. -/
  depth : Nat
  colorType : ColorType
  interlaced : Bool

namespace Header

/-- The number of bits in a pixel. -/
def pixelBits (h : Header) : Nat :=
  h.depth * h.colorType.channels

/-- The number of bytes that a pixel takes, at least one. -/
def pixelSize (h : Header) : Nat :=
  (h.pixelBits + 7) / 8

/-- Reads a header.  There is one method of compression and one of filtering; the order of the
pixels is either plain or interlaced.  No side is empty. -/
def ofBytes? (content : List UInt8) : Option Header := do
  let (width, rest) ← Bytes.take? 4 content
  let (height, rest) ← Bytes.take? 4 rest
  match rest with
  | depth :: color :: compression :: filter :: order :: _ =>
    let width := Bytes.numberBE width
    let height := Bytes.numberBE height
    let colorType ← ColorType.ofNat? color.toNat
    if 0 < width ∧ 0 < height ∧ depth.toNat ∈ colorType.depths ∧ compression = 0 ∧ filter = 0 ∧
        order.toNat ≤ 1 then
      return ⟨width, height, depth.toNat, colorType, order = 1⟩
    else
      none
  | _ => none

/-- The header of an image with three samples of eight bits in each pixel. -/
def encode (width height : Nat) : List UInt8 :=
  Bytes.encodeBE 4 width ++ Bytes.encodeBE 4 height ++ [8, 2, 0, 0, 0]

end Header

/-- The colours of an image whose pixels hold numbers. -/
abbrev Palette :=
  Array Rgb

namespace Palette

/-- The greatest number of colours. -/
def maxSize : Nat :=
  256

/-- Reads a palette.  It is not empty. -/
def ofBytes? (content : List UInt8) : Option Palette :=
  if content.length % 3 = 0 ∧ 0 < content.length ∧ content.length ≤ 3 * maxSize then
    some (Rgb.ofBytes content).toArray
  else
    none

end Palette

/-- The colour of pixel number `x` in a row of samples.  What the palette does not have is
black, and the last sample of a pixel with transparency is ignored. -/
def pixelAt (h : Header) (palette : Palette) (row : Array UInt8) (x : Nat) : Rgb :=
  let sample (k : Nat) : Nat := Sample.get row h.depth (x * h.colorType.channels + k)
  let light (k : Nat) : UInt8 := Sample.toByte h.depth (sample k)
  match h.colorType with
  | .gray | .grayAlpha => ⟨light 0, light 0, light 0⟩
  | .rgb | .rgbAlpha => ⟨light 0, light 1, light 2⟩
  | .indexed => palette[sample 0]?.getD ⟨0, 0, 0⟩

/-! ### What precedes the image data -/


/-- What is known before the image data begins. -/
structure Preamble where
  header : Header
  palette? : Option Palette
  /-- The number of the last chunk of an animation. -/
  sequence? : Option Nat
  /-- The chunks about the colour space that have been accepted, each of which counts once. -/
  accepted : List Tag

namespace Preamble

/-- Nothing is known but the header. -/
def ofHeader (h : Header) : Preamble :=
  ⟨h, none, none, []⟩

/-- The number that the next chunk of an animation has to have. -/
def nextNumber (p : Preamble) : Nat :=
  match p.sequence? with
  | some n => n + 1
  | none => 0

/-- Reads the control of the first frame.  The frame covers the whole image.  There are three
ways to dispose of it and two ways to blend it. -/
def frame? (p : Preamble) (content : List UInt8) : Option Preamble := do
  let (number, rest) ← Bytes.take? 4 content
  let (area, rest) ← Bytes.take? 16 rest
  let (_, rest) ← Bytes.take? 4 rest
  match rest with
  | dispose :: blend :: _ =>
    let number := Bytes.numberBE number
    let whole := Bytes.encodeBE 4 p.header.width ++ Bytes.encodeBE 4 p.header.height ++
      Bytes.encodeBE 4 0 ++ Bytes.encodeBE 4 0
    if number = p.nextNumber ∧ area = whole ∧ dispose.toNat ≤ 2 ∧ blend.toNat ≤ 1 then
      return { p with sequence? := some number }
    else
      none
  | _ => none

/-- Reads a chunk about the colour space, which has `size` bytes.  One that is too short is
passed over. -/
def accept? (p : Preamble) (tag : Tag) (content : List UInt8) (size : Nat)
    (valid : List UInt8 → Bool) : Option Preamble :=
  if tag ∈ p.accepted ∨ content.length < size then
    some p
  else if content.length = size ∧ valid content then
    some { p with accepted := tag :: p.accepted }
  else
    none

/-- The code points of a colour space are those of red, green and blue values, in the full
range or not. -/
def validCodePoints : List UInt8 → Bool
  | [_, _, coefficients, range] => coefficients = 0 ∧ range.toNat ≤ 1
  | _ => false

/-- Takes account of a chunk. -/
def take? (p : Preamble) (tag : Tag) (content : List UInt8) : Option Preamble :=
  if tag = Tag.palette then
    match p.palette?, Palette.ofBytes? content with
    | none, some palette => some { p with palette? := some palette }
    | _, _ => none
  else if tag = Tag.frame then
    p.frame? content
  else if tag = Tag.codePoints ∧ p.palette? = none then
    p.accept? tag content 4 validCodePoints
  else if tag = Tag.mastering ∧ p.palette? = none then
    p.accept? tag content 24 fun _ => true
  else if tag = Tag.lightLevel then
    p.accept? tag content 8 fun _ => true
  else if tag.IsCritical then
    none
  else
    some p

/-- Reads chunks up to the image data, at most `fuel` of them, and answers with the bytes from
there on.  A chunk with a wrong checksum is passed over if it can be left out. -/
def read? : (fuel : Nat) → Preamble → List UInt8 → Option (Preamble × List UInt8)
  | 0, _, _ => none
  | fuel + 1, p, bytes => do
    let tag ← Chunk.nextTag? bytes
    if tag = Tag.data ∨ tag = Tag.frameData ∧ p.sequence?.isSome then
      return (p, bytes)
    -- No frame data without the control of its frame.
    if tag = Tag.frameData then
      none
    let (c, rest) ← Chunk.take? bytes
    if c.Intact then
      read? fuel (← p.take? c.tag c.content) rest
    else if c.tag.IsCritical then
      none
    else
      read? fuel p rest

end Preamble

end Png

end Piet
