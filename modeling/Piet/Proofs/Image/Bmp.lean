import Mathlib.Data.Nat.Notation
import Mathlib.Tactic.Common
import Piet.Image.Bmp
import Piet.Proofs.Image.Raster

/-!
# BMP files lose nothing

The fields of the headers stand at fixed places, and so do the pixels in the rows.  A reader that
accepts the sides of a raster finds in its file what was written there.

* `Bmp.ofBytes?_header`: the headers are read as they were written.
* `Bmp.decode?_encode?`: a raster that a reader accepts has a file, and the file holds the raster.
-/

namespace Piet

namespace Bmp

/-! ### Fields -/

section Fields

variable {bytes : List UInt8} {start width n : ℕ}

theorem field_toArray : field bytes.toArray start width =
    Bytes.numberLE ((bytes.drop start).take width) := by
  rw [field, Array.toList_extract, List.extract_eq_take_drop, Nat.add_sub_cancel_left]

/-- What stands before a field makes no difference to it. -/
theorem field_append {front : List UInt8} (h : front.length ≤ start) :
    field (front ++ bytes).toArray start width =
      field bytes.toArray (start - front.length) width := by
  rw [field_toArray, field_toArray, List.drop_append, List.drop_eq_nil_of_le h,
    List.nil_append]

/-- A number is read as it was written, up to the width. -/
theorem field_encodeLE :
    field (Bytes.encodeLE width n ++ bytes).toArray 0 width = n % Nat.pow 256 width := by
  rw [field_toArray, List.drop_zero, List.take_left' (Bytes.length_encodeLE ..),
    Bytes.numberLE_encodeLE]

end Fields

/-! ### Headers -/

section Headers

variable {r : Raster} {rest : List UInt8}

/-- The sides of a raster that a reader accepts. -/
structure Accepted (r : Raster) : Prop where
  width_ne_zero : r.width ≠ 0
  height_ne_zero : r.height ≠ 0
  width_le : r.width ≤ Header.maxSide
  height_le : r.height ≤ Header.maxSide
  memory_le : 3 * r.width * r.height ≤ Header.maxMemory

/-- What the headers of the file of a raster tell. -/
def headerOf (r : Raster) : Header :=
  ⟨headerSize, r.width, r.height, false, .packed 3 .full, #[]⟩

/-- What stands in the fields of the headers. -/
theorem fields_header (width height : ℕ) (pixels : List UInt8) :
    let field := field (header width height ++ pixels).toArray
    field 0 2 = 0x4D42 ∧ field 10 4 = headerSize ∧ field 14 4 = 40 ∧
      field 18 4 = width % Nat.pow 256 4 ∧ field 22 4 = height % Nat.pow 256 4 ∧
      field 26 2 = 1 ∧ field 28 2 = 24 ∧ field 30 4 = 0 := by
  have hmark : [0x42, 0x4D] = Bytes.encodeLE 2 0x4D42 := rfl
  simp only [header, hmark, List.append_assoc, field_append, field_encodeLE,
    Bytes.length_encodeLE, Nat.reduceLeDiff, Nat.reduceSub]
  decide

theorem length_header (width height : ℕ) : (header width height).length = headerSize := by
  simp only [header, List.length_append, List.length_cons, List.length_nil,
    Bytes.length_encodeLE, headerSize]

/-- The headers are read as they were written. -/
theorem ofBytes?_header (h : Accepted r) :
    Header.ofBytes? (header r.width r.height ++ rest).toArray = some (headerOf r) := by
  have hside : Header.maxSide < Nat.pow 256 4 := by decide
  obtain ⟨hmark, hstart, hversion, hwidth, hheight, hplanes, hbits, hmethod⟩ :=
    fields_header r.width r.height rest
  rw [Nat.mod_eq_of_lt (Nat.lt_of_le_of_lt h.width_le hside)] at hwidth
  rw [Nat.mod_eq_of_lt (Nat.lt_of_le_of_lt h.height_le hside)] at hheight
  set bytes := (header r.width r.height ++ rest).toArray with hbytes
  have hsize : ¬ bytes.size < Header.fileSize + min 40 40 := by
    have hlength := length_header r.width r.height
    rw [hbytes, List.size_toArray, List.length_append, hlength]
    exact Nat.not_lt.mpr (Nat.le_add_right _ _)
  have hinfo : Version.ofSize? 40 = some .info := rfl
  have hcore : ¬ Version.info = .core := by decide
  have hlayout : Header.layout? .info bytes 0 24 = some (.packed 3 .full) := rfl
  have hbottom : ¬ UInt32.size / 2 ≤ r.height ∧ r.height ≠ UInt32.size / 2 := by
    have hhalf : Header.maxSide < UInt32.size / 2 := by decide
    have hle := h.height_le
    omega
  simp only [Header.ofBytes?, hmark, hstart, hversion, hwidth, hheight, hplanes, hbits, hmethod,
    hinfo, hcore, hsize, hlayout, hbottom, h.width_ne_zero, h.height_ne_zero,
    Nat.not_lt.mpr h.width_le, Nat.not_lt.mpr h.height_le, Nat.not_lt.mpr h.memory_le, bind,
    Option.bind, ne_eq, not_true_eq_false, or_self, and_false, if_false, decide_false]
  rfl

end Headers

/-! ### Pixels -/

section Pixels

variable {r : Raster}

/-- What is written for a pixel. -/
def pixelBytes (c : Rgb) : List UInt8 :=
  [c.blue, c.green, c.red]

/-- A pixel is read as it was written. -/
theorem color_pixelBytes (c : Rgb) :
    Channels.full.color (Bytes.numberLE (pixelBytes c)) = c := by
  obtain ⟨red, green, blue⟩ := c
  have hred := red.toNat_lt
  have hgreen := green.toNat_lt
  have hblue := blue.toNat_lt
  have hnumber : Bytes.numberLE (pixelBytes ⟨red, green, blue⟩) =
      blue.toNat + 256 * (green.toNat + 256 * (red.toNat + 256 * 0)) := rfl
  have hbyte (b : UInt8) (n : ℕ) (hn : n = b.toNat) : Sample.toByte 8 n = b := by
    rw [hn, Sample.toByte_eight]
  rw [hnumber]
  refine (Rgb.mk.injEq ..).mpr ⟨hbyte _ _ ?_, hbyte _ _ ?_, hbyte _ _ ?_⟩
  all_goals
    simp only [Channels.full, Nat.pow_eq, Nat.reducePow]
    omega

theorem length_rowBytes {y : ℕ} (hy : y < r.height) : (rowBytes r y).length = rowSize r.width := by
  have hpixels : ((r.row y).flatMap pixelBytes).length = 3 * (r.row y).length :=
    length_flatMap_const fun _ _ => rfl
  have hle : 3 * r.width ≤ rowSize r.width := by
    rw [rowSize]
    omega
  rw [rowBytes, List.length_append, List.length_replicate]
  change ((r.row y).flatMap pixelBytes).length + _ = _
  rw [hpixels, Raster.length_row hy, Nat.add_sub_cancel' hle]

/-- The rows of the file of a raster, the bottom one first. -/
def rows (r : Raster) : List UInt8 :=
  (List.range r.height).reverse.flatMap (rowBytes r)

theorem length_of_mem_range {y : ℕ} (hy : y ∈ (List.range r.height).reverse) :
    (rowBytes r y).length = rowSize r.width :=
  length_rowBytes (List.mem_range.mp (List.mem_reverse.mp hy))

theorem length_rows (r : Raster) : (rows r).length = rowSize r.width * r.height := by
  rw [rows, length_flatMap_const fun y => length_of_mem_range, List.length_reverse,
    List.length_range]

/-- A byte of a row is a channel of a pixel in it. -/
theorem getElem?_rows {x y k : ℕ} {c : Rgb} (hy : y < r.height) (hc : (r.row y)[x]? = some c)
    (hk : k < 3) :
    (rows r)[rowSize r.width * (r.height - 1 - y) + (3 * x + k)]? = (pixelBytes c)[k]? := by
  have hx : x < r.width := by
    rw [← Raster.length_row hy]
    exact (List.getElem?_eq_some_iff.mp hc).1
  have hthree : ∀ c ∈ r.row y, (pixelBytes c).length = 3 := fun _ _ => rfl
  have hpixels : ((r.row y).flatMap pixelBytes).length = 3 * r.width := by
    rw [length_flatMap_const hthree, Raster.length_row hy]
  have hle : 3 * r.width ≤ rowSize r.width := by
    rw [rowSize]
    omega
  -- Rows are counted from the bottom.
  have hrow : (List.range r.height).reverse[r.height - 1 - y]? = some y := by
    rw [List.getElem?_reverse (by rw [List.length_range]; omega), List.length_range,
      List.getElem?_range (by omega)]
    exact congrArg some (by omega)
  rw [rows, getElem?_flatMap_const (fun y => length_of_mem_range) hrow (by omega), rowBytes,
    List.getElem?_append_left]
  · exact getElem?_flatMap_const hthree hc hk
  · change _ < ((r.row y).flatMap pixelBytes).length
    omega

/-- The place of a pixel in the file holds what was written for it. -/
theorem field_rows {x y : ℕ} {c : Rgb} (hy : y < r.height) (hc : (r.row y)[x]? = some c) :
    field (header r.width r.height ++ rows r).toArray
      (headerSize + rowSize r.width * (r.height - 1 - y) + 3 * x) 3 =
        Bytes.numberLE (pixelBytes c) := by
  have hlength := length_header r.width r.height
  rw [field_append (by omega), hlength, field_toArray]
  refine congrArg Bytes.numberLE (List.ext_getElem? fun k => ?_)
  by_cases hk : k < 3
  case pos =>
    rw [List.getElem?_take_of_lt hk, List.getElem?_drop, ← getElem?_rows hy hc hk]
    congr 1
    omega
  case neg =>
    rw [List.getElem?_eq_none (by rw [List.length_take]; omega),
      List.getElem?_eq_none (Nat.not_lt.mp hk)]

/-- The pixels in the file of a raster are those of the raster. -/
theorem pixels?_rows (r : Raster) :
    pixels? (headerOf r) (header r.width r.height ++ rows r).toArray = some r.pixels := by
  have hstride : (headerOf r).rowSize (8 * 3) = rowSize r.width := by
    simp only [Header.rowSize, headerOf, rowSize]
    omega
  have hsize : (headerOf r).start + (headerOf r).rowSize (8 * 3) * (headerOf r).height ≤
      (header r.width r.height ++ rows r).toArray.size := by
    rw [hstride, List.size_toArray, List.length_append, length_header, length_rows]
    exact Nat.le_refl _
  have hpixels : pixels? (headerOf r) (header r.width r.height ++ rows r).toArray =
      some (Array.ofFn fun i : Fin (r.width * r.height) => Channels.full.color
        (field (header r.width r.height ++ rows r).toArray
          (headerSize + (headerOf r).rowSize (8 * 3) * (r.height - 1 - i / r.width) +
            3 * (i % r.width)) 3)) :=
    if_pos hsize
  rw [hpixels, hstride]
  refine congrArg some (Raster.pixels_eq_ofFn (fun y x => Channels.full.color
    (field (header r.width r.height ++ rows r).toArray
      (headerSize + rowSize r.width * (r.height - 1 - y) + 3 * x) 3)) fun y x hy hx => ?_)
  have hlt : x < (r.row y).length := by rwa [Raster.length_row hy]
  have hc := List.getElem?_eq_getElem hlt
  rw [field_rows hy hc, color_pixelBytes, hc]

end Pixels

/-! ### Files -/

/-- **BMP files lose nothing.**  A raster that a reader accepts has a file, and the file holds the
raster. -/
theorem decode?_encode? {r : Raster} (h : Accepted r) :
    ∃ bytes, encode? r = some bytes ∧ decode? bytes = some r := by
  have hfits : rowSize r.width < UInt32.size ∧
      headerSize + rowSize r.width * r.height < UInt32.size := by
    have hmemory := h.memory_le
    have hheight := h.height_le
    have hwidth := h.width_le
    have hle : rowSize r.width ≤ 3 * r.width + 3 := by
      rw [rowSize]
      omega
    have hrows : rowSize r.width * r.height ≤ 3 * r.width * r.height + 3 * r.height := by
      rw [← Nat.add_mul]
      exact Nat.mul_le_mul_right _ hle
    simp only [Header.maxMemory, Header.maxSide, headerSize, UInt32.size] at *
    omega
  refine ⟨_, if_pos hfits, ?_⟩
  rw [decode?, ofBytes?_header h]
  exact (congrArg (Option.bind · _) (pixels?_rows r)).trans r.ofPixels?_pixels

end Bmp

end Piet
