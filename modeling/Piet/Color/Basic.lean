/-!
# Colours

A pixel value has three channels of eight bits, and a pixel of a picture is white, black or one of
eighteen shades.  The shades form a cyclic lattice of three lightnesses and six hues.  A program is
read off the *changes* between neighbouring shades, and a change is again a pair of residues, so
both live in `Fin 3 × Fin 6` and all arithmetic wraps.

* `Shade.changeTo` takes the difference of two shades and `Shade.shift` adds it back:
  `Shade.shift_changeTo` and `Shade.changeTo_shift` say that each undoes the other.
* `Color.ofRgb?` reads a pixel value and `Color.rgb` writes one; `Color.ofRgb?_eq_some_iff` says
  that each pixel value stands for at most one colour, and that the two functions invert each other.
-/

namespace Piet

/-! ### Pixel values -/

/-- A pixel value with eight bits in each channel. -/
structure Rgb where
  red : UInt8
  green : UInt8
  blue : UInt8
deriving DecidableEq, Inhabited

namespace Rgb

/-- Groups bytes by three into pixels; what is left over is dropped. -/
def ofBytes : List UInt8 → List Rgb
  | r :: g :: b :: rest => ⟨r, g, b⟩ :: ofBytes rest
  | _ => []

/-- One digit of a hexadecimal numeral, in lower case. -/
def hexDigit (n : Nat) : Char :=
  if n < 10 then Char.ofNat (48 + n) else Char.ofNat (87 + n)

/-- The two hexadecimal digits of a channel. -/
def hexPair (b : UInt8) : String :=
  String.ofList [hexDigit (b.toNat / 16), hexDigit (b.toNat % 16)]

/-- The usual written form of a colour, such as `#c0ffc0`. -/
def hexText (c : Rgb) : String :=
  "#" ++ hexPair c.red ++ hexPair c.green ++ hexPair c.blue

/-- What is said about a pixel value that stands for no colour. -/
def invalidText (c : Rgb) : String :=
  c.hexText ++ " is not a Piet color"

end Rgb

/-! ### The lattice of shades -/

/-- A program colour.  Lightness runs light, normal, dark and hue runs red, yellow, green,
cyan, blue, magenta; both are cyclic. -/
structure Shade where
  lightness : Fin 3
  hue : Fin 6
deriving DecidableEq, Inhabited

/-- The way from one shade to another: so many steps darker, so many hues onward. -/
structure Change where
  lightness : Fin 3
  hue : Fin 6
deriving DecidableEq, Inhabited

theorem residue_lt {n : Nat} (hn : 0 < n) (k : Int) : (k % n).toNat < n := by
  have hlt : k % n < n := Int.emod_lt_of_pos k (Int.natCast_pos.mpr hn)
  omega

/-- The residue of an integer modulo a positive number, which is never negative. -/
def residue (n : Nat) (hn : 0 < n) (k : Int) : Fin n :=
  ⟨(k % n).toNat, residue_lt hn k⟩

namespace Change

/-- The change with the given coordinates, wrapped into the lattice. -/
def ofInts (lightness hue : Int) : Change :=
  ⟨residue 3 (by decide) lightness, residue 6 (by decide) hue⟩

end Change

namespace Shade

/-- The shade with the given coordinates, wrapped into the lattice. -/
def ofInts (lightness hue : Int) : Shade :=
  ⟨residue 3 (by decide) lightness, residue 6 (by decide) hue⟩

/-- Every shade, the light ones first and each lightness from red to magenta. -/
def all : List Shade :=
  (List.finRange 3).flatMap fun l => (List.finRange 6).map fun h => ⟨l, h⟩

/-- The place of a shade in `all`. -/
def index (s : Shade) : Nat :=
  s.lightness.val * 6 + s.hue.val

/-- Shades are ordered by lightness first and by hue among equals. -/
instance : Ord Shade where
  compare s t := (compare s.lightness t.lightness).then (compare s.hue t.hue)

/-- The shade that lies a change away. -/
def shift (s : Shade) (c : Change) : Shade :=
  ⟨s.lightness + c.lightness, s.hue + c.hue⟩

/-- The change that leads from one shade to another. -/
def changeTo (s t : Shade) : Change :=
  ⟨t.lightness - s.lightness, t.hue - s.hue⟩

/-! ### Shades and pixel values -/

/-- The value of the channels that a hue contains. -/
def bright : Fin 3 → UInt8
  | 0 => 255
  | 1 => 255
  | 2 => 192

/-- The value of the channels that a hue leaves out. -/
def dim : Fin 3 → UInt8
  | 0 => 192
  | 1 => 0
  | 2 => 0

/-- The pixel value of a shade.  Going round the hues, each of the three primaries is
contained in three neighbouring ones: red around 0, green around 2 and blue around 4. -/
def rgb (s : Shade) : Rgb :=
  let channel (primary : Fin 6) : UInt8 :=
    if s.hue = primary - 1 ∨ s.hue = primary ∨ s.hue = primary + 1 then
      bright s.lightness
    else
      dim s.lightness
  ⟨channel 0, channel 2, channel 4⟩

/-- Every shade with its pixel value. -/
def palette : List (Rgb × Shade) :=
  all.map fun s => (s.rgb, s)

/-- The shade with a given pixel value, if it is one of the eighteen. -/
def ofRgb? (c : Rgb) : Option Shade :=
  (palette.find? fun entry => entry.1 = c).map Prod.snd

/-! ### Laws of shades -/

@[simp] theorem shift_changeTo (s t : Shade) : s.shift (s.changeTo t) = t := by
  have hl : ∀ a b : Fin 3, a + (b - a) = b := by decide
  have hh : ∀ a b : Fin 6, a + (b - a) = b := by decide
  cases t
  simp [shift, changeTo, hl, hh]

@[simp] theorem changeTo_shift (s : Shade) (c : Change) : s.changeTo (s.shift c) = c := by
  have hl : ∀ a b : Fin 3, a + b - a = b := by decide
  have hh : ∀ a b : Fin 6, a + b - a = b := by decide
  cases c
  simp [shift, changeTo, hl, hh]

theorem mem_all (s : Shade) : s ∈ all := by
  simp only [all, List.mem_flatMap, List.mem_map]
  exact ⟨s.lightness, List.mem_finRange _, s.hue, List.mem_finRange _, rfl⟩

theorem rgb_injective {s t : Shade} (h : s.rgb = t.rgb) : s = t := by
  have key : ∀ a ∈ all, ∀ b ∈ all, a.rgb = b.rgb → a = b := by decide
  exact key s (mem_all s) t (mem_all t) h

theorem mem_palette {c : Rgb} {s : Shade} : (c, s) ∈ palette ↔ s.rgb = c := by
  rw [palette, List.mem_map]
  constructor
  · rintro ⟨t, -, h⟩
    cases h
    rfl
  · rintro rfl
    exact ⟨s, mem_all s, rfl⟩

theorem ofRgb?_eq_some_iff {c : Rgb} {s : Shade} : ofRgb? c = some s ↔ s.rgb = c := by
  constructor
  · intro h
    obtain ⟨⟨c', s'⟩, hfind, rfl⟩ := Option.map_eq_some_iff.mp h
    have hc : c' = c := by simpa using List.find?_some hfind
    exact hc ▸ mem_palette.mp (List.mem_of_find?_eq_some hfind)
  · intro h
    have hsome : (palette.find? fun entry => entry.1 = c).isSome :=
      List.find?_isSome.mpr ⟨(c, s), mem_palette.mpr h, by simp⟩
    obtain ⟨⟨c', s'⟩, hfind⟩ := Option.isSome_iff_exists.mp hsome
    have hc : c' = c := by simpa using List.find?_some hfind
    have hs : s'.rgb = c' := mem_palette.mp (List.mem_of_find?_eq_some hfind)
    rw [ofRgb?, hfind, Option.map_some, rgb_injective (hs.trans (hc.trans h.symm))]

end Shade

/-! ### Colours of a picture -/

/-- The colour of a pixel.  White lets the pointer slide, black stops it, and the shades
carry the program. -/
inductive Color where
  | white
  | black
  | shade (s : Shade)
deriving DecidableEq, Inhabited

namespace Color

/-- The pixel value of a colour. -/
def rgb : Color → Rgb
  | white => ⟨255, 255, 255⟩
  | black => ⟨0, 0, 0⟩
  | shade s => s.rgb

/-- The colour with a given pixel value, if there is one. -/
def ofRgb? (c : Rgb) : Option Color :=
  if c = white.rgb then some white
  else if c = black.rgb then some black
  else (Shade.ofRgb? c).map shade

/-- The shade of a colour that has one. -/
def shade? : Color → Option Shade
  | shade s => some s
  | _ => none

theorem white_ne_black : white ≠ black :=
  Color.noConfusion

theorem shade_ne_white (s : Shade) : shade s ≠ white :=
  Color.noConfusion

theorem shade_ne_black (s : Shade) : shade s ≠ black :=
  Color.noConfusion

theorem shade_rgb_ne (s : Shade) : s.rgb ≠ white.rgb ∧ s.rgb ≠ black.rgb := by
  have key : ∀ a ∈ Shade.all, a.rgb ≠ white.rgb ∧ a.rgb ≠ black.rgb := by decide
  exact key s (Shade.mem_all s)

@[simp] theorem ofRgb?_rgb (c : Color) : ofRgb? c.rgb = some c := by
  cases c with
  | white => rfl
  | black => rfl
  | shade s =>
    obtain ⟨hw, hb⟩ := shade_rgb_ne s
    have hs : (shade s).rgb = s.rgb := rfl
    rw [ofRgb?, hs, if_neg hw, if_neg hb, Shade.ofRgb?_eq_some_iff.mpr rfl, Option.map_some]

theorem ofRgb?_eq_some_iff {c : Rgb} {k : Color} : ofRgb? c = some k ↔ k.rgb = c := by
  constructor
  · intro h
    unfold ofRgb? at h
    split at h
    · next hw => cases h; exact hw.symm
    · split at h
      · next hb => cases h; exact hb.symm
      · obtain ⟨s, hs, rfl⟩ := Option.map_eq_some_iff.mp h
        exact Shade.ofRgb?_eq_some_iff.mp hs
  · rintro rfl
    exact ofRgb?_rgb k

end Color

end Piet
