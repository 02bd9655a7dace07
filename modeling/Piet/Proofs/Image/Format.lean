import Mathlib.Data.Nat.Notation
import Mathlib.Tactic.Common
import Piet.Image.Folder
import Piet.Proofs.Image.Bmp
import Piet.Proofs.Image.Png
import Piet.Proofs.Image.Raster

/-!
# Pictures and image files

A picture determines its raster and the other way round.  Whatever format a file has, this carries
over to its bytes if the format loses nothing, and to the file itself if the disk gives back what
was written to it.

* `Format.Lossless`: the file of a raster holds that raster.  `Disk.Keeps`: what has been written
  under a path is read from there.
* `coding_bijective`: pictures against rasters, against the bytes of files in any lossless format,
  and against the files of any disk that keeps them.
* `Format.png_lossless` and `Format.bmp_lossless` say of which rasters PNG and BMP lose nothing.
-/

namespace Piet

/-! ### Formats without loss -/

namespace Format

variable {f : Format} {r : Raster} {g : Grid} {bytes : Array UInt8} {lenient : Bool}

/-- The file of a raster, if there is one, holds that raster. -/
def Lossless (f : Format) (r : Raster) : Prop :=
  ∀ bytes, f.encode? r = some bytes → f.decode? bytes = some r

/-- The file of a picture is that of its raster. -/
theorem write_eq_ok_iff : f.write g = .ok bytes ↔ f.encode? (.ofGrid g) = some bytes := by
  rw [write]
  cases f.encode? (.ofGrid g) with
  | none => exact ⟨nofun, nofun⟩
  | some bytes' => exact ⟨fun h => congrArg some (Except.ok.inj h),
      fun h => congrArg Except.ok (Option.some.inj h)⟩

theorem read_eq_toGrid (h : f.decode? bytes = some r) : f.read bytes lenient = r.toGrid lenient := by
  rw [read, h]

/-- What has been read from a file without lenience is what its raster shows. -/
theorem decode?_of_read (h : f.read bytes false = .ok g) :
    f.decode? bytes = some (.ofGrid g) := by
  rw [read] at h
  split at h
  · next r hr => rw [hr, Raster.ofGrid_of_toGrid h]
  · cases h

/-- A picture reads back from its file. -/
theorem read_of_write (h : g.FitsRaster) (hf : f.Lossless (.ofGrid g))
    (hwrite : f.write g = .ok bytes) (lenient : Bool) : f.read bytes lenient = .ok g :=
  (read_eq_toGrid (hf bytes (write_eq_ok_iff.mp hwrite))).trans (Raster.toGrid_ofGrid h lenient)

/-- The file of a raster is that of the picture read from it. -/
theorem write_of_read (hf : f.Lossless r) (hbytes : f.encode? r = some bytes)
    (h : f.read bytes false = .ok g) : f.write g = .ok bytes := by
  have hraster : Raster.ofGrid g = r :=
    Option.some.inj ((decode?_of_read h).symm.trans (hf bytes hbytes))
  exact write_eq_ok_iff.mpr (hraster ▸ hbytes)

end Format

/-! ### Disks that keep what is written -/

namespace Disk

variable {σ : Type} (disk : Disk (StateM σ)) {f : Format} {g : Grid} {bytes : Array UInt8}
  {path : String} {s s' : σ}

/-- What has been written under a path is read from there. -/
def Keeps (path : String) : Prop :=
  ∀ bytes s s', disk.write path bytes s = (true, s') → (disk.read? path s').1 = some bytes

/-- Saving a picture writes its file. -/
theorem save_eq (hformat : disk.formats.ofPath path = .of f) (hfile : f.write g = .ok bytes)
    (hwrite : disk.write path bytes s = (true, s')) : disk.save g path s = (.ok (), s') := by
  simp only [save, hformat, hfile, bind, StateT.bind, hwrite]
  rfl

/-- Loading reads the picture in a file. -/
theorem load_eq (hformat : disk.formats.ofPath path = .of f)
    (hbytes : (disk.read? path s).1 = some bytes) (lenient : Bool) :
    (disk.load path lenient s).1 = f.read bytes lenient := by
  rcases hread : disk.read? path s with ⟨content?, s₁⟩
  rw [hread] at hbytes
  obtain rfl : content? = some bytes := hbytes
  simp only [load, hformat, bind, StateT.bind, hread]
  rfl

end Disk

/-! ### PNG and BMP -/

namespace Format

variable {r : Raster} {g : Grid}

/-- A picture that fits into a raster has a PNG file. -/
theorem exists_write_png (h : g.FitsRaster) : ∃ bytes, png.write g = .ok bytes := by
  obtain ⟨hwidth, hheight⟩ := Raster.sides_ofGrid h.width_lt h.height_lt
  obtain ⟨bytes, hencode, -⟩ := Png.decode?_encode? (hwidth ▸ Nat.ne_of_gt h.width_pos)
    (hheight ▸ Nat.ne_of_gt h.height_pos)
  exact ⟨bytes, write_eq_ok_iff.mpr hencode⟩

/-- PNG files lose nothing. -/
theorem png_lossless (r : Raster) : png.Lossless r := by
  intro bytes hbytes
  by_cases hpixels : r.width = 0 ∨ r.height = 0
  · have hnone : png.encode? r = none := if_pos hpixels
    cases hnone.symm.trans hbytes
  · obtain ⟨hwidth, hheight⟩ := not_or.mp hpixels
    obtain ⟨bytes', hencode, hdecode⟩ := Png.decode?_encode? hwidth hheight
    obtain rfl := Option.some.inj (hbytes.symm.trans hencode)
    exact hdecode

/-- BMP files lose nothing of a raster that their readers accept. -/
theorem bmp_lossless (h : Bmp.Accepted r) : bmp.Lossless r := by
  intro bytes hbytes
  obtain ⟨bytes', hencode, hdecode⟩ := Bmp.decode?_encode? h
  obtain rfl := Option.some.inj (hbytes.symm.trans hencode)
  exact hdecode

end Format

/-! ### Files in a folder -/

namespace Folder

variable {path name : String}

/-- A file is written under its name. -/
theorem write_eq (hplace : place path = .file name) (bytes : Array UInt8) (s : Folder) :
    disk.write path bytes s = (true, s.insert name bytes) := by
  simp only [disk, hplace]

/-- A folder keeps its files. -/
theorem keeps (hplace : place path = .file name) : disk.Keeps path := by
  intro bytes s s' hwrite
  obtain rfl : s.insert name bytes = s' :=
    congrArg Prod.snd ((write_eq hplace bytes s).symm.trans hwrite)
  simp only [disk, hplace, get?_insert]

end Folder

/-- A name with this ending asks for PNG. -/
theorem ofPath_of_splitOn {path stem : String} (hpath : path ≠ "" ∧ path ≠ ".") (hstem : stem ≠ "")
    (hslash : path.splitOn "/" = [path]) (hdots : path.splitOn "." = [stem, "png"]) :
    NameFormat.ofPath path = .of .png := by
  have hlower : "png".toLower = "png" := by decide +kernel
  simp [NameFormat.ofPath, NameFormat.fileName, NameFormat.ending?, hpath, hstem, hslash, hdots,
    hlower]

theorem splitOn_slash : "a.png".splitOn "/" = ["a.png"] := by
  simp +decide [String.splitOn, String.splitOnAux]

theorem ofPath_png : NameFormat.ofPath "a.png" = .of .png := by
  have hdots : "a.png".splitOn "." = ["a", "png"] := by
    simp +decide [String.splitOn, String.splitOnAux]
  exact ofPath_of_splitOn (by decide) (by decide) splitOn_slash hdots

theorem place_png : Folder.place "a.png" = .file "a.png" := by
  have hnull : "a.png".contains '\x00' = false := by simp
  have habsolute : "a.png".startsWith "/" = false := by simp
  rw [Folder.place, splitOn_slash, hnull, habsolute]
  decide +kernel

/-! ### Both directions -/

/-- **Pictures and rasters determine each other**, as long as the sides of a picture are those of a
raster and neither is empty: a picture reads back from its raster, leniently or not, and a raster
that can be read without lenience is that of the picture read.

The same holds of the bytes of files, for every format and every raster whose file holds it: the
file of a picture reads back as this picture, and a file that can be read without lenience is that
of the picture read.  And it holds of the files on a disk, for every disk that keeps under a path
what can be written there: a picture that has been saved is loaded again, and saving one that has
been loaded puts the same bytes into its file. -/
theorem coding_bijective :
    (∀ g : Grid, g.FitsRaster → ∀ lenient, (Raster.ofGrid g).toGrid lenient = .ok g) ∧
      (∀ (r : Raster) (g : Grid), r.toGrid false = .ok g → Raster.ofGrid g = r) ∧
      (∀ (f : Format) (g : Grid) (bytes : Array UInt8), g.FitsRaster → f.Lossless (.ofGrid g) →
        f.encode? (.ofGrid g) = some bytes →
          f.write g = .ok bytes ∧ ∀ lenient, f.read bytes lenient = .ok g) ∧
      (∀ (f : Format) (r : Raster) (bytes : Array UInt8) (g : Grid), f.Lossless r →
        f.encode? r = some bytes → f.read bytes false = .ok g → f.write g = .ok bytes) ∧
      (∀ (σ : Type) (disk : Disk (StateM σ)) (path : String) (f : Format) (g : Grid)
          (bytes : Array UInt8) (s s' : σ), disk.formats.ofPath path = .of f → disk.Keeps path →
        g.FitsRaster → f.Lossless (.ofGrid g) → f.encode? (.ofGrid g) = some bytes →
        disk.write path bytes s = (true, s') →
          disk.save g path s = (.ok (), s') ∧ ∀ lenient, (disk.load path lenient s').1 = .ok g) ∧
      ∀ (σ : Type) (disk : Disk (StateM σ)) (path : String) (f : Format) (r : Raster)
          (bytes : Array UInt8) (g : Grid) (s t t' : σ), disk.formats.ofPath path = .of f →
        disk.Keeps path → f.Lossless r → f.encode? r = some bytes →
        (disk.read? path s).1 = some bytes → (disk.load path false s).1 = .ok g →
        disk.write path bytes t = (true, t') →
          disk.save g path t = (.ok (), t') ∧ (disk.read? path t').1 = some bytes := by
  refine ⟨fun g h lenient => Raster.toGrid_ofGrid h lenient, fun r g h => Raster.ofGrid_of_toGrid h,
    ?file, fun f r bytes g => Format.write_of_read, ?saved, ?loaded⟩
  case file =>
    intro f g bytes h hf hbytes
    have hwrite := Format.write_eq_ok_iff.mpr hbytes
    exact ⟨hwrite, Format.read_of_write h hf hwrite⟩
  case saved =>
    intro σ disk path f g bytes s s' hformat hkeeps h hf hbytes hdisk
    have hwrite := Format.write_eq_ok_iff.mpr hbytes
    refine ⟨disk.save_eq hformat hwrite hdisk, fun lenient => ?_⟩
    rw [disk.load_eq hformat (hkeeps bytes s s' hdisk)]
    exact Format.read_of_write h hf hwrite lenient
  case loaded =>
    intro σ disk path f r bytes g s t t' hformat hkeeps hf hbytes hfile hload hdisk
    rw [disk.load_eq hformat hfile] at hload
    exact ⟨disk.save_eq hformat (Format.write_of_read hf hbytes hload) hdisk,
      hkeeps bytes t t' hdisk⟩

/-- A picture of two rows, with a shade in the lower one. -/
def flag : Grid :=
  (Grid.ofCells? 3 2 #[.white, .black, .white, .white, .white, .shade (.ofInts 0 2)]).get
    (by decide)

/-- Its pixel values. -/
def flagRaster : Raster :=
  (Raster.ofPixels? 3 2 #[⟨255, 255, 255⟩, ⟨0, 0, 0⟩, ⟨255, 255, 255⟩, ⟨255, 255, 255⟩,
    ⟨255, 255, 255⟩, ⟨192, 255, 192⟩]).get (by decide)

/-- The picture has sides of a raster, its raster can be read, its PNG and BMP files hold it, and the
file `a.png` of a folder can take it up and give it back. -/
theorem coding_bijective_flag :
    flag.FitsRaster ∧ (∀ lenient, (Raster.ofGrid flag).toGrid lenient = .ok flag) ∧
      flagRaster.toGrid false = .ok flag ∧ Raster.ofGrid flag = flagRaster ∧
      (Format.bmp.Lossless (.ofGrid flag) ∧ ∃ bytes, Format.bmp.write flag = .ok bytes ∧
        ∀ lenient, Format.bmp.read bytes lenient = .ok flag) ∧
      ∃ bytes s, Format.png.Lossless (.ofGrid flag) ∧
        Format.png.encode? (.ofGrid flag) = some bytes ∧
        Format.png.read bytes false = .ok flag ∧ Format.png.write flag = .ok bytes ∧
        Folder.disk.formats.ofPath "a.png" = .of .png ∧ Folder.disk.Keeps "a.png" ∧
        Folder.disk.write "a.png" bytes .empty = (true, s) ∧
        Folder.disk.save flag "a.png" .empty = (.ok (), s) ∧
        (∀ lenient, (Folder.disk.load "a.png" lenient s).1 = .ok flag) ∧
        ∃ t, Folder.disk.write "a.png" bytes s = (true, t) ∧
          Folder.disk.save flag "a.png" s = (.ok (), t) ∧
          (Folder.disk.read? "a.png" t).1 = some bytes := by
  obtain ⟨hgrid, hraster, hfile, hback, hsave, hload⟩ := coding_bijective
  have hfits : flag.FitsRaster := ⟨by decide, by decide, by decide, by decide⟩
  have hshows : flagRaster.toGrid false = .ok flag := by
    have hvalues : flagRaster = .ofGrid flag := by decide +kernel
    rw [hvalues, hgrid flag hfits]
  have haccepted : Bmp.Accepted (.ofGrid flag) :=
    ⟨by decide, by decide, by decide, by decide, by decide⟩
  have hbmp := Format.bmp_lossless haccepted
  obtain ⟨bmpBytes, hbmpBytes, -⟩ := Bmp.decode?_encode? haccepted
  have hpng := Format.png_lossless (.ofGrid flag)
  obtain ⟨bytes, hwrite⟩ := Format.exists_write_png hfits
  have hbytes := Format.write_eq_ok_iff.mp hwrite
  obtain ⟨-, hread⟩ := hfile .png flag bytes hfits hpng hbytes
  -- The file is written into the empty folder, and then once more over itself.
  have hkeeps := Folder.keeps place_png
  set s := Folder.empty.insert "a.png" bytes
  have hdisk : Folder.disk.write "a.png" bytes .empty = (true, s) :=
    Folder.write_eq place_png bytes .empty
  have hagain := Folder.write_eq place_png bytes s
  obtain ⟨hsaved, hloaded⟩ := hsave _ Folder.disk "a.png" .png flag bytes .empty s ofPath_png hkeeps
    hfits hpng hbytes hdisk
  have hresaved := hload _ Folder.disk "a.png" .png _ bytes flag s s _ ofPath_png hkeeps hpng hbytes
    (hkeeps bytes _ s hdisk) (hloaded false) hagain
  exact ⟨hfits, hgrid flag hfits, hshows, hraster _ _ hshows,
    ⟨hbmp, bmpBytes, hfile .bmp flag bmpBytes hfits hbmp hbmpBytes⟩, bytes, s, hpng, hbytes,
    hread false, hback .png _ bytes flag hpng hbytes (hread false), ofPath_png, hkeeps, hdisk,
    hsaved, hloaded, _, hagain, hresaved⟩

end Piet
