import Piet.Error
import Piet.Grid.Basic

/-!
# Images

A picture is kept as a raster of pixel values, a raster as the bytes of a file, and a file on a
disk.  What the bytes look like is up to the format of the file, and the disk knows which format
a name asks for.  Formats and disks are left open here: nothing is said about them but what they
are for, and everything that pictures need of them goes through `Format` and `Disk`.

* `Raster.toGrid` reads a raster as a picture and `Raster.ofGrid` writes a picture as a raster;
  `Format.read` and `Format.write` do the same with the bytes of a file, and `Disk.load` and
  `Disk.save` with a file.
-/

namespace Piet

/-! ### Rasters -/

/-- Pixel values row by row from the top, and each row from the left.  The sides have at most 32
bits. -/
structure Raster where
  width : Nat
  height : Nat
  pixels : Array Rgb
  size_pixels : pixels.size = width * height
  width_lt : width < UInt32.size
  height_lt : height < UInt32.size
deriving DecidableEq

namespace Raster

/-- The given pixels as a raster, if they are as many as its sides ask for. -/
def ofPixels? (width height : Nat) (pixels : Array Rgb) : Option Raster :=
  if h : pixels.size = width * height ∧ width < UInt32.size ∧ height < UInt32.size then
    some ⟨width, height, pixels, h.1, h.2.1, h.2.2⟩
  else
    none

/-- The pixel values of a picture.  Sides of more than 32 bits are cut down to them. -/
def ofGrid (g : Grid) : Raster :=
  let width := g.width % UInt32.size
  ⟨width, g.height % UInt32.size,
    Array.ofFn fun i : Fin (width * (g.height % UInt32.size)) =>
      ((g.get? ⟨i / width, i % width⟩).getD .black).rgb,
    Array.size_ofFn, Nat.mod_lt _ (by decide), Nat.mod_lt _ (by decide)⟩

/-- The colours of a raster as a picture.  A raster without pixels is refused.  Values that
stand for no colour become black if that is allowed; otherwise the first of them is an error. -/
def toGrid (r : Raster) (lenient : Bool) : Except Error Grid :=
  if r.width = 0 ∨ r.height = 0 then
    .error .emptyImage
  else
    let colors := r.pixels.map Color.ofRgb?
    match if lenient then none else colors.findIdx? Option.isNone with
    | some i => .error (.invalidColor ⟨i / r.width, i % r.width⟩ (r.pixels[i]?.getD default))
    | none =>
      .ok ⟨r.width, r.height, colors.map fun c => c.getD .black, by
          rw [Array.size_map, Array.size_map, r.size_pixels],
        Nat.lt_trans r.width_lt (by decide), Nat.lt_trans r.height_lt (by decide)⟩

end Raster

/-! ### Formats -/

/-- A format of image files: how a raster becomes the bytes of a file, and which raster some bytes
hold.  Either can fail. -/
structure Format where
  encode? : Raster → Option (Array UInt8)
  decode? : Array UInt8 → Option Raster

namespace Format

/-- The file of a picture. -/
def write (f : Format) (g : Grid) : Except Error (Array UInt8) :=
  match f.encode? (.ofGrid g) with
  | some bytes => .ok bytes
  | none => .error .image

/-- The picture in a file. -/
def read (f : Format) (bytes : Array UInt8) (lenient : Bool) : Except Error Grid :=
  match f.decode? bytes with
  | some r => r.toGrid lenient
  | none => .error .image

end Format

/-- What the name of a file says about its format. -/
inductive NameFormat where
  | of (f : Format)
  /-- A format that is known by the name, but neither written nor read. -/
  | unsupported
  | unknown

/-- The formats that there are. -/
structure Formats where
  /-- The format in which images are encoded once more. -/
  png : Format
  /-- The format that a path asks for. -/
  ofPath : String → NameFormat

/-! ### Disks -/

/-- Files under their names, with effects in `m`, and the formats of those that hold images.  What
can go wrong with an image file itself counts as a failure of its format. -/
structure Disk (m : Type → Type) where
  formats : Formats
  /-- Whether there is anything under a path. -/
  contains : String → m Bool
  /-- The bytes of a file, if it can be read. -/
  read? : String → m (Option (Array UInt8))
  /-- Creates a file or replaces its bytes, and says whether that worked. -/
  write : String → Array UInt8 → m Bool

namespace Disk

variable {m : Type → Type} [Monad m]

/-- The picture in an image file. -/
def load (disk : Disk m) (path : String) (lenient : Bool) : m (Except Error Grid) := do
  match disk.formats.ofPath path with
  | .of f =>
    match ← disk.read? path with
    | some bytes => pure (f.read bytes lenient)
    | none => pure (.error .image)
  | _ => pure (.error .image)

/-- Keeps a picture in an image file.  A file that is to have a known format is created before
its content is. -/
def save (disk : Disk m) (g : Grid) (path : String) : m (Except Error Unit) := do
  match disk.formats.ofPath path with
  | .of f =>
    match f.write g with
    | .ok bytes =>
      let written ← disk.write path bytes
      pure (if written then .ok () else .error .image)
    | .error e =>
      let _ ← disk.write path #[]
      pure (.error e)
  | .unsupported =>
    let _ ← disk.write path #[]
    pure (.error .image)
  | .unknown => pure (.error .image)

end Disk

end Piet
