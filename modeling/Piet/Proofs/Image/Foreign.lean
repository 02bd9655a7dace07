import Piet.Proofs.Image.Raster

/-!
# Pixels that stand for no colour

A value that is neither white nor black nor one of the eighteen shades is foreign to pictures.  A
raster with such pixels is refused at the first of them, or they are read as black:

* `Raster.FirstForeign`: the first foreign pixel, row by row, of which there is at most one
  (`Raster.FirstForeign.unique`).  It is where the scan for a pixel without colour stops
  (`Raster.firstForeign_of_findIdx?`).
* `Raster.blackened`: the raster with black in place of the foreign pixels.
* `Raster.toGrid_modes`: what a raster is read as, with lenience and without.
-/

namespace Piet

/-- A value that is neither that of white nor that of black nor that of a shade. -/
def Rgb.Foreign (v : Rgb) : Prop :=
  v ≠ Color.white.rgb ∧ v ≠ Color.black.rgb ∧ ∀ s : Shade, v ≠ s.rgb

theorem Rgb.foreign_iff {v : Rgb} : v.Foreign ↔ Color.ofRgb? v = none := by
  constructor
  · rintro ⟨hwhite, hblack, hshade⟩
    rw [Option.eq_none_iff_forall_ne_some]
    intro k hk
    obtain rfl := Color.ofRgb?_eq_some_iff.mp hk
    cases k with
    | white => exact hwhite rfl
    | black => exact hblack rfl
    | shade s => exact hshade s rfl
  · intro h
    have hne : ∀ k : Color, v ≠ k.rgb := by
      rintro k rfl
      rw [Color.ofRgb?_rgb] at h
      cases h
    exact ⟨hne .white, hne .black, fun s => hne (.shade s)⟩

instance (v : Rgb) : Decidable v.Foreign :=
  decidable_of_iff _ Rgb.foreign_iff.symm

/-- Reading row by row, a position does not come after another one. -/
def Pos.NotAfter (p q : Pos) : Prop :=
  p.y < q.y ∨ p.y = q.y ∧ p.x ≤ q.x

theorem Pos.NotAfter.antisymm {p q : Pos} (h : p.NotAfter q) (h' : q.NotAfter p) : p = q := by
  obtain ⟨py, px⟩ := p
  obtain ⟨qy, qx⟩ := q
  simp only [NotAfter] at h h'
  rw [mk.injEq]
  omega

namespace Raster

variable {r : Raster} {p q : Pos} {v w : Rgb} {i j : ℕ}

/-! ### Pixels and places -/

/-- The value of a pixel, if the position is inside. -/
def get? (r : Raster) (p : Pos) : Option Rgb :=
  if p.y < r.height ∧ p.x < r.width then r.pixels[p.y * r.width + p.x]? else none

/-- The position of the pixel at a place. -/
def position (r : Raster) (i : ℕ) : Pos :=
  ⟨i / r.width, i % r.width⟩

theorem get?_position (hi : i < r.pixels.size) : r.get? (r.position i) = some r.pixels[i] := by
  have hsize : i < r.width * r.height := r.size_pixels ▸ hi
  have hin : i / r.width < r.height ∧ i % r.width < r.width :=
    ⟨Nat.div_lt_of_lt_mul hsize, Nat.mod_lt _ (Nat.pos_of_lt_mul_right hsize)⟩
  rw [get?, position, if_pos hin, Nat.mul_comm, Nat.div_add_mod, Array.getElem?_eq_getElem hi]

/-- Every pixel has a place. -/
theorem exists_position (h : r.get? p = some v) :
    ∃ i, ∃ hi : i < r.pixels.size, r.position i = p ∧ r.pixels[i] = v := by
  rw [get?] at h
  split at h
  · next hin =>
    obtain ⟨hi, hv⟩ := Array.getElem?_eq_some_iff.mp h
    obtain ⟨hrow, hcolumn⟩ := (Nat.div_mod_unique (Nat.zero_lt_of_lt hin.2)).mpr
      ⟨show p.x + r.width * p.y = p.y * r.width + p.x by rw [Nat.mul_comm, Nat.add_comm], hin.2⟩
    exact ⟨p.y * r.width + p.x, hi, by rw [position, hrow, hcolumn], hv⟩
  · cases h

/-- The places follow the rows. -/
theorem notAfter_position (r : Raster) (hij : i ≤ j) : (r.position i).NotAfter (r.position j) := by
  have hrow : i / r.width ≤ j / r.width := Nat.div_le_div_right hij
  rcases Nat.lt_or_eq_of_le hrow with hlt | heq
  · exact .inl hlt
  · -- In the same row the columns differ as the places do.
    have hi := Nat.div_add_mod i r.width
    have hj := Nat.div_add_mod j r.width
    rw [heq] at hi
    exact .inr ⟨heq, show i % r.width ≤ j % r.width by omega⟩

/-! ### The first foreign pixel -/

/-- A foreign pixel that comes after no other one. -/
structure FirstForeign (r : Raster) (p : Pos) (v : Rgb) : Prop where
  pixel : r.get? p = some v
  foreign : v.Foreign
  first : ∀ q w, r.get? q = some w → w.Foreign → p.NotAfter q

theorem FirstForeign.unique (h : r.FirstForeign p v) (h' : r.FirstForeign q w) :
    p = q ∧ v = w := by
  obtain rfl := (h.first q w h'.pixel h'.foreign).antisymm (h'.first p v h.pixel h.foreign)
  exact ⟨rfl, Option.some.inj (h.pixel.symm.trans h'.pixel)⟩

/-- The scan stops at the first foreign pixel. -/
theorem firstForeign_of_findIdx?
    (h : (r.pixels.map Color.ofRgb?).findIdx? Option.isNone = some i) :
    ∃ hi : i < r.pixels.size, r.FirstForeign (r.position i) r.pixels[i] := by
  obtain ⟨hi, hnone, hbefore⟩ := Array.findIdx?_eq_some_iff_getElem.mp h
  rw [Array.size_map] at hi
  simp only [Array.getElem_map, Option.isNone_iff_eq_none, ← Rgb.foreign_iff] at hnone hbefore
  refine ⟨hi, get?_position hi, hnone, ?_⟩
  intro q w hw hforeign
  obtain ⟨j, hj, rfl, rfl⟩ := exists_position hw
  refine r.notAfter_position (Nat.le_of_not_lt fun hlt => ?_)
  exact hbefore j hlt hforeign

/-- If the scan does not stop, there is no foreign pixel. -/
theorem not_foreign_of_findIdx?
    (h : (r.pixels.map Color.ofRgb?).findIdx? Option.isNone = none) (hp : r.get? p = some v) :
    ¬ v.Foreign := by
  obtain ⟨i, hi, -, rfl⟩ := exists_position hp
  have hsome := Array.findIdx?_eq_none_iff.mp h _ (Array.mem_map_of_mem (Array.getElem_mem hi))
  rw [Rgb.foreign_iff]
  intro hnone
  rw [hnone] at hsome
  cases hsome

/-! ### Reading with lenience and without -/

theorem toGrid_of_no_pixels (h : r.width = 0 ∨ r.height = 0) (lenient : Bool) :
    r.toGrid lenient = .error .emptyImage :=
  if_pos h

/-- Without lenience a raster is refused at its first foreign pixel, or has none and is read. -/
theorem toGrid_strict (hwidth : r.width ≠ 0) (hheight : r.height ≠ 0) :
    (∃ p v, r.FirstForeign p v ∧ r.toGrid false = .error (.invalidColor p v)) ∨
      (∀ p v, r.get? p = some v → ¬ v.Foreign) ∧ ∃ g, r.toGrid false = .ok g := by
  simp only [toGrid, if_neg (not_or.mpr ⟨hwidth, hheight⟩), Bool.false_eq_true, if_false]
  split
  · next i hfound =>
    obtain ⟨hi, hfirst⟩ := firstForeign_of_findIdx? hfound
    refine .inl ⟨_, _, hfirst, ?_⟩
    rw [Array.getElem?_eq_getElem hi, Option.getD_some, position]
  · next hnone => exact .inr ⟨fun p v hp => not_foreign_of_findIdx? hnone hp, _, rfl⟩

/-- The raster with black in place of every foreign pixel. -/
def blackened (r : Raster) : Raster where
  width := r.width
  height := r.height
  pixels := r.pixels.map fun v => if v.Foreign then Color.black.rgb else v
  size_pixels := Array.size_map.trans r.size_pixels
  width_lt := r.width_lt
  height_lt := r.height_lt

theorem get?_blackened (r : Raster) (p : Pos) :
    r.blackened.get? p = (r.get? p).map fun v => if v.Foreign then Color.black.rgb else v := by
  by_cases hin : p.y < r.height ∧ p.x < r.width
  · have hin' : p.y < r.blackened.height ∧ p.x < r.blackened.width := hin
    rw [get?, get?, if_pos hin, if_pos hin']
    exact Array.getElem?_map
  · have hout : ¬ (p.y < r.blackened.height ∧ p.x < r.blackened.width) := hin
    rw [get?, get?, if_neg hin, if_neg hout, Option.map_none]

/-- With lenience every raster with pixels is read. -/
theorem exists_toGrid_lenient (hwidth : r.width ≠ 0) (hheight : r.height ≠ 0) :
    ∃ g, r.toGrid true = .ok g ∧ g.width = r.width ∧ g.height = r.height ∧
      g.cells = r.pixels.map fun v => (Color.ofRgb? v).getD .black := by
  simp only [toGrid, if_neg (not_or.mpr ⟨hwidth, hheight⟩), if_true]
  exact ⟨_, rfl, rfl, rfl, Array.map_map⟩

/-- The blackened pixels are the values of the colours that are read with lenience. -/
theorem pixels_blackened (r : Raster) :
    r.blackened.pixels =
      (r.pixels.map fun v => (Color.ofRgb? v).getD .black).map Color.rgb := by
  rw [blackened, Array.map_map]
  refine Array.map_congr_left fun v _ => ?_
  simp only [Function.comp_apply, Rgb.foreign_iff]
  split
  · next hnone => rw [hnone, Option.getD_none]
  · next hsome =>
    obtain ⟨k, hk⟩ := Option.ne_none_iff_exists'.mp hsome
    rw [hk, Option.getD_some, Color.ofRgb?_eq_some_iff.mp hk]

/-- What is read with lenience is what the blackened raster is read as without. -/
theorem exists_toGrid_blackened (hwidth : r.width ≠ 0) (hheight : r.height ≠ 0) :
    ∃ g, r.toGrid true = .ok g ∧ r.blackened.toGrid false = .ok g := by
  obtain ⟨g, hread, hw, hh, hcells⟩ := exists_toGrid_lenient hwidth hheight
  have hpixels : r.blackened.pixels = g.cells.map Color.rgb := by rw [hcells, pixels_blackened]
  exact ⟨g, hread, toGrid_of_pixels (r := r.blackened) hwidth hheight hw hh hpixels false⟩

/-- **Reading with lenience and without.**  A raster without pixels is refused either way.  Let a raster
have pixels.

* Without lenience it is refused if and only if one of them is foreign, and the error then names the
  position and the value of the first one.
* With lenience it is always read, as the raster with black in place of every foreign pixel is read
  without.
* What is read without lenience is read with it as the same picture. -/
theorem toGrid_modes (r : Raster) :
    (r.width = 0 ∨ r.height = 0 → ∀ lenient, r.toGrid lenient = .error .emptyImage) ∧
    (r.width ≠ 0 → r.height ≠ 0 →
      ((∃ e, r.toGrid false = .error e) ↔ ∃ p v, r.get? p = some v ∧ v.Foreign) ∧
      (∀ e, r.toGrid false = .error e ↔ ∃ p v, r.FirstForeign p v ∧ e = .invalidColor p v) ∧
      (∃ g, r.toGrid true = .ok g ∧ r.blackened.toGrid false = .ok g) ∧
      ∀ g, r.toGrid false = .ok g → r.toGrid true = .ok g) := by
  refine ⟨fun h lenient => toGrid_of_no_pixels h lenient, fun hwidth hheight => ?_⟩
  refine ⟨?_, ?_, exists_toGrid_blackened hwidth hheight, ?_⟩
  · rcases toGrid_strict hwidth hheight with ⟨p, v, hfirst, herror⟩ | ⟨hnone, g, hg⟩
    · exact iff_of_true ⟨_, herror⟩ ⟨p, v, hfirst.pixel, hfirst.foreign⟩
    · rw [hg]
      refine iff_of_false (fun h => nomatch h) ?_
      rintro ⟨p, v, hp, hforeign⟩
      exact hnone p v hp hforeign
  · intro e
    rcases toGrid_strict hwidth hheight with ⟨p, v, hfirst, herror⟩ | ⟨hnone, g, hg⟩
    · rw [herror]
      constructor
      · rintro ⟨rfl⟩
        exact ⟨p, v, hfirst, rfl⟩
      · rintro ⟨q, w, hfirst', rfl⟩
        obtain ⟨rfl, rfl⟩ := hfirst.unique hfirst'
        rfl
    · rw [hg]
      refine iff_of_false (fun h => nomatch h) ?_
      rintro ⟨p, v, hfirst, -⟩
      exact hnone p v hfirst.pixel hfirst.foreign
  · intro g hg
    obtain ⟨-, -, hw, hh, hpixels⟩ := pixels_of_toGrid hg
    exact toGrid_of_pixels hwidth hheight hw hh hpixels true

/-- A raster of two rows with a foreign pixel in each, the one in the upper row further right. -/
def twoForeign : Raster :=
  (ofPixels? 2 2 #[⟨255, 255, 255⟩, ⟨1, 2, 3⟩, ⟨254, 0, 0⟩, ⟨192, 0, 192⟩]).get (by decide)

/-- It is refused at the pixel in the upper row. -/
theorem toGrid_modes_twoForeign :
    twoForeign.width ≠ 0 ∧ twoForeign.height ≠ 0 ∧
    twoForeign.FirstForeign ⟨0, 1⟩ ⟨1, 2, 3⟩ ∧
    twoForeign.toGrid false = .error (.invalidColor ⟨0, 1⟩ ⟨1, 2, 3⟩) ∧
    twoForeign.toGrid true =
      (Grid.ofCells? 2 2 #[.white, .black, .black, .shade (.ofInts 2 5)]).elim
        (.error .emptyImage) .ok ∧
    twoForeign.blackened.toGrid false = twoForeign.toGrid true := by
  obtain ⟨-, hpixels⟩ := toGrid_modes twoForeign
  obtain ⟨-, hstrict, ⟨g, hg, hblack⟩, -⟩ := hpixels (by decide) (by decide)
  have herror : twoForeign.toGrid false = .error (.invalidColor ⟨0, 1⟩ ⟨1, 2, 3⟩) := by
    decide +kernel
  obtain ⟨p, v, hfirst, heq⟩ := (hstrict _).mp herror
  obtain ⟨rfl, rfl⟩ := Error.invalidColor.inj heq
  exact ⟨by decide, by decide, hfirst, herror, by decide +kernel, hblack.trans hg.symm⟩

end Raster

end Piet
