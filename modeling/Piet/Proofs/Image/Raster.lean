import Piet.Image.Basic
import Piet.Proofs.Grid.Rows

/-!
# Pictures and rasters

A raster consists of rows of one length (`Raster.pixels_eq_ofFn`), so a place among its pixels tells
the row and the place in it.  A picture is written as a raster pixel by pixel, and a raster is read as
a picture the same way.  As long as its sides fit into 32 bits, a picture and its raster determine
each other.

* `Raster.toGrid_ofGrid`: a picture with pixels reads back from its raster, leniently or not.
* `Raster.ofGrid_of_toGrid`: a raster that can be read without lenience is that of the picture read.
-/

namespace Piet

/-! ### Rows -/

namespace Raster

variable {r : Raster} {x y : ℕ}

/-- The pixels of a row. -/
def row (r : Raster) (y : ℕ) : List Rgb :=
  (r.pixels.extract (y * r.width) (y * r.width + r.width)).toList

/-- Rows below the last one have a place among the pixels. -/
theorem row_le_size (hy : y < r.height) : y * r.width + r.width ≤ r.pixels.size := by
  rw [r.size_pixels, ← Nat.succ_mul, Nat.mul_comm]
  exact Nat.mul_le_mul_left _ hy

theorem length_row (hy : y < r.height) : (r.row y).length = r.width := by
  have hle := row_le_size hy
  rw [row, Array.length_toList, Array.size_extract]
  omega

theorem getElem?_row (hy : y < r.height) (hx : x < r.width) :
    (r.row y)[x]? = r.pixels[y * r.width + x]? := by
  have hle := row_le_size hy
  rw [row, Array.getElem?_toList, Array.getElem?_extract, if_pos (by omega)]

/-- A raster consists of its rows: pixels that are where their rows have them are its pixels. -/
theorem pixels_eq_ofFn (pixel : ℕ → ℕ → Rgb)
    (h : ∀ y x, y < r.height → x < r.width → (r.row y)[x]? = some (pixel y x)) :
    (Array.ofFn fun i : Fin (r.width * r.height) => pixel (i / r.width) (i % r.width)) =
      r.pixels := by
  refine Array.ext (by rw [Array.size_ofFn, r.size_pixels]) fun i hi hi' => ?_
  have hsize : i < r.width * r.height := r.size_pixels ▸ hi'
  have hy : i / r.width < r.height := Nat.div_lt_of_lt_mul hsize
  have hx : i % r.width < r.width := Nat.mod_lt _ (Nat.pos_of_lt_mul_right hsize)
  have hpixel := h _ _ hy hx
  rw [getElem?_row hy hx, Nat.mul_comm, Nat.div_add_mod, Array.getElem?_eq_getElem hi'] at hpixel
  rw [Array.getElem_ofFn]
  exact (Option.some.inj hpixel).symm

/-- Its sides and pixels make a raster what it is. -/
theorem ofPixels?_pixels (r : Raster) : ofPixels? r.width r.height r.pixels = some r :=
  dif_pos ⟨r.size_pixels, r.width_lt, r.height_lt⟩

end Raster

/-- A picture has pixels, and its sides fit into a raster. -/
structure Grid.FitsRaster (g : Grid) : Prop where
  width_pos : 0 < g.width
  width_lt : g.width < UInt32.size
  height_pos : 0 < g.height
  height_lt : g.height < UInt32.size

namespace Raster

variable {r r' : Raster} {g : Grid} {lenient : Bool}

theorem ext_pixels (hw : r.width = r'.width) (hh : r.height = r'.height)
    (hp : r.pixels = r'.pixels) : r = r' := by
  cases r
  cases r'
  cases hw
  cases hh
  cases hp
  rfl

/-! ### From a picture to its raster and back -/

theorem sides_ofGrid (hw : g.width < UInt32.size) (hh : g.height < UInt32.size) :
    (ofGrid g).width = g.width ∧ (ofGrid g).height = g.height :=
  ⟨Nat.mod_eq_of_lt hw, Nat.mod_eq_of_lt hh⟩

/-- The pixels of a raster are the values of the cells of its picture. -/
theorem pixels_ofGrid (hw : g.width < UInt32.size) (hh : g.height < UInt32.size) :
    (ofGrid g).pixels = g.cells.map Color.rgb := by
  have hwidth : g.width % UInt32.size = g.width := Nat.mod_eq_of_lt hw
  have hheight : g.height % UInt32.size = g.height := Nat.mod_eq_of_lt hh
  refine Array.ext ?_ fun i hi hi' => ?_
  · rw [(ofGrid g).size_pixels, (sides_ofGrid hw hh).1, (sides_ofGrid hw hh).2, Array.size_map,
      g.size_cells]
  · have hcell : i < g.cells.size := by rwa [Array.size_map] at hi'
    simp only [ofGrid, Array.getElem_ofFn, Array.getElem_map, hwidth, Grid.get?_place hcell,
      Option.getD_some]

/-- A raster whose pixels are the values of some cells is read as these cells. -/
theorem toGrid_of_pixels (hwidth : r.width ≠ 0) (hheight : r.height ≠ 0) (hw : g.width = r.width)
    (hh : g.height = r.height) (hp : r.pixels = g.cells.map Color.rgb) (lenient : Bool) :
    r.toGrid lenient = .ok g := by
  obtain ⟨w, h, pixels, hsize, hwlt, hhlt⟩ := r
  obtain ⟨w', h', cells, hsize', hwlt', hhlt'⟩ := g
  obtain rfl : w' = w := hw
  obtain rfl : h' = h := hh
  obtain rfl : pixels = cells.map Color.rgb := hp
  have hcolors : (cells.map Color.rgb).map Color.ofRgb? = cells.map some := by
    rw [Array.map_map]
    exact Array.map_congr_left fun c _ => Color.ofRgb?_rgb c
  have hvalid : (cells.map some).findIdx? Option.isNone = none := by
    simp [Array.findIdx?_eq_none_iff]
  have hcells : (cells.map some).map (fun c => c.getD .black) = cells := by
    rw [Array.map_map]
    exact Array.map_id cells
  simp only [toGrid, if_neg (not_or.mpr ⟨hwidth, hheight⟩), hcolors, hvalid, ite_self, hcells]

/-- What a raster is read as without lenience. -/
theorem pixels_of_toGrid (h : r.toGrid false = .ok g) :
    r.width ≠ 0 ∧ r.height ≠ 0 ∧ g.width = r.width ∧ g.height = r.height ∧
      r.pixels = g.cells.map Color.rgb := by
  rw [toGrid] at h
  split at h
  · cases h
  next hsides =>
  obtain ⟨hwidth, hheight⟩ := not_or.mp hsides
  dsimp only at h
  split at h
  · cases h
  next hvalid =>
  obtain rfl := Except.ok.inj h
  refine ⟨hwidth, hheight, rfl, rfl, ?_⟩
  rw [Array.map_map, Array.map_map]
  refine (Array.map_id r.pixels).symm.trans (Array.map_congr_left fun p hp => ?_)
  have hsome : (Color.ofRgb? p).isSome := by
    simpa using Array.findIdx?_eq_none_iff.mp hvalid _ (Array.mem_map_of_mem hp)
  obtain ⟨c, hc⟩ := Option.isSome_iff_exists.mp hsome
  simp only [Function.comp_apply, hc, Option.getD_some]
  exact (Color.ofRgb?_eq_some_iff.mp hc).symm

/-- **A picture reads back from its raster.** -/
theorem toGrid_ofGrid (h : g.FitsRaster) (lenient : Bool) : (ofGrid g).toGrid lenient = .ok g := by
  obtain ⟨hwidth, hheight⟩ := sides_ofGrid h.width_lt h.height_lt
  exact toGrid_of_pixels (hwidth ▸ Nat.pos_iff_ne_zero.mp h.width_pos)
    (hheight ▸ Nat.pos_iff_ne_zero.mp h.height_pos) hwidth.symm hheight.symm
    (pixels_ofGrid h.width_lt h.height_lt) lenient

/-- What has been read has pixels, and fits into a raster again. -/
theorem fitsRaster_of_toGrid (h : r.toGrid false = .ok g) : g.FitsRaster := by
  obtain ⟨hwidth, hheight, hw, hh, -⟩ := pixels_of_toGrid h
  exact ⟨hw ▸ Nat.pos_of_ne_zero hwidth, hw ▸ r.width_lt, hh ▸ Nat.pos_of_ne_zero hheight,
    hh ▸ r.height_lt⟩

/-- **A raster that can be read is that of the picture read.** -/
theorem ofGrid_of_toGrid (h : r.toGrid false = .ok g) : ofGrid g = r := by
  obtain ⟨-, -, hw, hh, hp⟩ := pixels_of_toGrid h
  have hfits := fitsRaster_of_toGrid h
  obtain ⟨hwidth, hheight⟩ := sides_ofGrid hfits.width_lt hfits.height_lt
  exact ext_pixels (hwidth.trans hw) (hheight.trans hh)
    ((pixels_ofGrid hfits.width_lt hfits.height_lt).trans hp.symm)

end Raster

end Piet
