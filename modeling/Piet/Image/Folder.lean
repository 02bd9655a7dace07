import Piet.Image.Basic
import Piet.Image.Bmp
import Piet.Image.Png.Basic

/-!
# A folder of PNG and BMP files

Formats and a disk to work with.  The format of a file is PNG or BMP and goes by the ending of its
name.  The disk is kept in memory and needs no effects but its own state: it consists of one folder
of files.  Paths may name a file of the folder or the folder itself.  Outside of it there are the
folders that contain it, those that every system has at its root, and two devices: the null device,
which is always empty whatever is written to it, and the full device, which has no room.
-/

namespace Piet

/-! ### PNG and BMP -/

namespace Format

/-- The format PNG. -/
def png : Format :=
  ⟨Png.encode?, Png.decode?⟩

/-- The format BMP. -/
def bmp : Format :=
  ⟨Bmp.encode?, Bmp.decode?⟩

end Format

namespace NameFormat

/-- The endings of formats that are known by them only. -/
def unsupportedEndings : List String :=
  ["avif", "jpg", "jpeg", "jfif", "gif", "webp", "tif", "tiff", "tga", "dds", "ico", "hdr", "exr",
    "pbm", "pam", "ppm", "pgm", "pnm", "ff", "qoi"]

/-- The last component of a path. -/
def fileName (path : String) : String :=
  let components := (path.splitOn "/").filter fun c => c ≠ "" ∧ c ≠ "."
  components.getLast?.getD ""

/-- What follows the last dot of a name, unless the name begins with it. -/
def ending? (name : String) : Option String :=
  match (name.splitOn ".").reverse with
  | [] | [_] => none
  | [_, ""] => none
  | last :: _ => some last

/-- The format that a path asks for.  Capital letters make no difference. -/
def ofPath (path : String) : NameFormat :=
  match (ending? (fileName path)).map String.toLower with
  | some "png" | some "apng" => .of .png
  | some "bmp" => .of .bmp
  | some e => if e ∈ unsupportedEndings then .unsupported else .unknown
  | none => .unknown

end NameFormat

/-- PNG and BMP, by the endings of names. -/
def Formats.standard : Formats :=
  ⟨.png, NameFormat.ofPath⟩

/-! ### Folders -/

/-- The files of a folder by their names. -/
structure Folder where
  files : List (String × Array UInt8)

/-- What a path leads to. -/
inductive Place where
  /-- A folder, be it this one or not. -/
  | folder
  | file (name : String)
  /-- What is written there is lost. -/
  | nullDevice
  /-- Nothing can be written there. -/
  | fullDevice
  | elsewhere
deriving DecidableEq

namespace Folder

/-- The folder without files. -/
def empty : Folder :=
  ⟨[]⟩

/-- The greatest length of a name in bytes. -/
def maxName : Nat :=
  255

/-- The greatest length of a path in bytes. -/
def maxPath : Nat :=
  4095

/-- The folders at the root of every system. -/
def rootFolders : List String :=
  ["bin", "boot", "dev", "etc", "home", "lib", "media", "mnt", "opt", "proc", "root", "run", "sbin",
    "srv", "sys", "tmp", "usr", "var"]

/-- Where the components of a path lead.  Empty ones and single dots stay in place, but only a
folder can have any after its name. -/
def placeOf (absolute : Bool) (parts : List String) : Place :=
  let named := parts.filter fun c => c ≠ "" ∧ c ≠ "."
  -- Every folder that contains this one, and the root among them, is there.
  if named.all (· = "..") ∨ absolute ∧ rootFolders.any fun c => named = [c] then
    .folder
  else if named.getLast? ≠ parts.getLast? then
    .elsewhere
  else
    match absolute, named with
    | false, [name] => if name.utf8ByteSize ≤ maxName then .file name else .elsewhere
    | true, ["dev", "null"] => .nullDevice
    | true, ["dev", "full"] => .fullDevice
    | _, _ => .elsewhere

/-- Where a path leads.  No path is empty, contains a null character or is too long. -/
def place (path : String) : Place :=
  if path = "" ∨ path.contains '\x00' ∨ maxPath < path.utf8ByteSize then
    .elsewhere
  else
    placeOf (path.startsWith "/") (path.splitOn "/")

/-- The bytes of a file. -/
def get? (f : Folder) (name : String) : Option (Array UInt8) :=
  f.files.lookup name

/-- Puts a file into the folder in place of any other of its name. -/
def insert (f : Folder) (name : String) (bytes : Array UInt8) : Folder :=
  ⟨(name, bytes) :: f.files.filter fun entry => entry.1 ≠ name⟩

/-- The folder as a disk. -/
def disk : Disk (StateM Folder) where
  formats := .standard
  contains path f :=
    match place path with
    | .folder => (true, f)
    | .file name => ((f.get? name).isSome, f)
    | .nullDevice | .fullDevice => (true, f)
    | .elsewhere => (false, f)
  read? path f :=
    match place path with
    | .file name => (f.get? name, f)
    | .nullDevice => (some #[], f)
    | _ => (none, f)
  write path bytes f :=
    match place path with
    | .file name => (true, f.insert name bytes)
    | .nullDevice => (true, f)
    | .fullDevice => (bytes.isEmpty, f)
    | _ => (false, f)

theorem get?_insert (f : Folder) (name : String) (bytes : Array UInt8) :
    (f.insert name bytes).get? name = some bytes := by
  simp [insert, get?]

end Folder

end Piet
