import Mathlib.Data.List.Perm.Basic
import Mathlib.Logic.Relation
import Piet.Proofs.Plane.Furthest

/-!
# Regions of one colour

A picture or a canvas is looked at through the function that tells the colour of each position.
`Joins look` relates neighbours of the same colour, and the region of a pixel is what its
reflexive transitive closure reaches.

`Block.Fills` says of a block that its pixels are a whole region: they have its colour, hang
together, and no neighbour of that colour is missing.  Two blocks that fill their regions and
share a pixel have the same pixels (`Block.Fills.mem_iff_mem`), hence the same size and exits.
What happens to such a block when one more cell is painted is said by `Block.Fills.paint` (it
stays whole), `Block.Fills.push` (it grows) and `Block.fills_single` (it begins).
-/

namespace Piet

open Relation

/-- Neighbours of the same colour. -/
def Joins (look : Pos → Option Color) (p q : Pos) : Prop :=
  (∃ d, p.step d = some q) ∧ look q = look p

/-- Colours are seen only at positions in range. -/
def Bounded (look : Pos → Option Color) : Prop :=
  ∀ p c, look p = some c → p.y < Pos.limit ∧ p.x < Pos.limit

/-- The pixels of a block are a whole region of its colour, each listed once. -/
structure Block.Fills (b : Block) (look : Pos → Option Color) : Prop where
  nodup : b.pixels.toList.Nodup
  color : ∀ p ∈ b.pixels, look p = some b.color
  linked : ∀ p ∈ b.pixels, ReflTransGen (Joins look) b.first p
  closed : ∀ p ∈ b.pixels, ∀ d q, p.step d = some q → look q = some b.color → q ∈ b.pixels

section Region

variable {look look' : Pos → Option Color} {b b' : Block} {p q : Pos} {c : Color}

theorem look_eq_of_joined (h : ReflTransGen (Joins look) p q) : look q = look p := by
  induction h with
  | refl => rfl
  | tail _ hstep ih => exact hstep.2.trans ih

/-- What can be reached from a coloured pixel can be reached back. -/
theorem joined_symm (hb : Bounded look) (hp : look p = some c)
    (h : ReflTransGen (Joins look) p q) : ReflTransGen (Joins look) q p := by
  induction h with
  | refl => exact .refl
  | tail hpr hstep ih =>
    obtain ⟨⟨d, hd⟩, hlook⟩ := hstep
    have hrange := hb _ _ ((look_eq_of_joined hpr).trans hp)
    exact .head ⟨⟨d.back, Pos.step_back hrange hd⟩, hlook.symm⟩ ih

namespace Block.Fills

/-- The pixels of a block that fills its region are exactly those joined to any one of them. -/
theorem mem_iff (hbound : Bounded look) (h : b.Fills look) (hp : p ∈ b.pixels) :
    q ∈ b.pixels ↔ ReflTransGen (Joins look) p q := by
  constructor
  · intro hq
    exact (joined_symm hbound (h.color _ b.first_mem) (h.linked p hp)).trans (h.linked q hq)
  · intro hpq
    induction hpq with
    | refl => exact hp
    | tail hpr hstep ih =>
      obtain ⟨⟨d, hd⟩, hlook⟩ := hstep
      exact h.closed _ ih d _ hd (hlook.trans (h.color _ ih))

/-- Regions that share a pixel are equal. -/
theorem mem_iff_mem (hbound : Bounded look) (h : b.Fills look) (h' : b'.Fills look)
    (hp : p ∈ b.pixels) (hp' : p ∈ b'.pixels) (q : Pos) : q ∈ b.pixels ↔ q ∈ b'.pixels := by
  rw [h.mem_iff hbound hp, h'.mem_iff hbound hp']

theorem size_eq (h : b.Fills look) (h' : b'.Fills look)
    (hmem : ∀ q, q ∈ b.pixels ↔ q ∈ b'.pixels) : b.size = b'.size := by
  have hperm : b.pixels.toList.Perm b'.pixels.toList :=
    (List.perm_ext_iff_of_nodup h.nodup h'.nodup).mpr fun q => by simpa using hmem q
  simpa [Block.size] using hperm.length_eq

theorem color_eq (h : b.Fills look) (h' : b'.Fills look) (hp : p ∈ b.pixels)
    (hp' : p ∈ b'.pixels) : b.color = b'.color :=
  Option.some.inj ((h.color p hp).symm.trans (h'.color p hp'))

/-- Only the places of the colour of a block matter to whether it is a whole region. -/
theorem congr (h : b.Fills look) (hlook : ∀ q, look' q = some b.color ↔ look q = some b.color) :
    b.Fills look' where
  nodup := h.nodup
  color q hq := (hlook q).mpr (h.color q hq)
  linked q hq := by
    have hfirst := h.color _ b.first_mem
    have hlinked := h.linked q hq
    clear hq
    induction hlinked with
    | refl => exact .refl
    | tail hpr hstep ih =>
      have hr := (look_eq_of_joined hpr).trans hfirst
      exact .tail ih ⟨hstep.1, ((hlook _).mpr (hstep.2.trans hr)).trans ((hlook _).mpr hr).symm⟩
  closed q hq d r hstep hr := h.closed q hq d r hstep ((hlook r).mp hr)

end Block.Fills

/-! ### Painting one more cell -/

/-- One cell that had no colour has got one, and nothing else has changed. -/
structure Painted (look look' : Pos → Option Color) (p : Pos) (c : Color) : Prop where
  before : look p = none
  after : look' p = some c
  frame : ∀ q, q ≠ p → look' q = look q

namespace Painted

/-- What had a colour keeps it. -/
theorem keep (h : Painted look look' p c) {k : Color} (hq : look q = some k) :
    look' q = some k := by
  have hne : q ≠ p := by
    rintro rfl
    rw [h.before] at hq
    cases hq
  rw [h.frame q hne, hq]

/-- What could be reached from a coloured pixel still can. -/
theorem joins (h : Painted look look' p c) {k : Color} {q r : Pos} (hq : look q = some k)
    (hjoin : ReflTransGen (Joins look) q r) : ReflTransGen (Joins look') q r := by
  induction hjoin with
  | refl => exact .refl
  | tail hqr hstep ih =>
    have hr := (look_eq_of_joined hqr).trans hq
    exact ih.tail ⟨hstep.1, (h.keep (hstep.2.trans hr)).trans (h.keep hr).symm⟩

end Painted

namespace Block

/-- A block stays a whole region if the new cell has another colour or touches none of its
pixels. -/
theorem Fills.paint (h : b.Fills look) (hpaint : Painted look look' p c)
    (hfar : c = b.color → ∀ q ∈ b.pixels, ∀ d, q.step d ≠ some p) : b.Fills look' where
  nodup := h.nodup
  color q hq := hpaint.keep (h.color q hq)
  linked q hq := hpaint.joins (h.color _ b.first_mem) (h.linked q hq)
  closed q hq d r hstep hr := by
    have hne : r ≠ p := by
      rintro rfl
      exact hfar (Option.some.inj (hpaint.after.symm.trans hr)) q hq d hstep
    rw [hpaint.frame r hne] at hr
    exact h.closed q hq d r hstep hr

/-- A block grows by a new cell of its colour that touches it, if no other neighbour of the cell
has that colour. -/
theorem Fills.push (h : b.Fills look)
    (hpaint : Painted look look' p b.color) {d : Direction} (hq : q ∈ b.pixels)
    (hstep : q.step d = some p)
    (honly : ∀ e r, p.step e = some r → look r = some b.color → r ∈ b.pixels) :
    (b.push p).Fills look' where
  nodup := by
    have hnot : p ∉ b.pixels := fun hp => by
      have := hpaint.before.symm.trans (h.color p hp)
      cases this
    rw [Block.push, Array.toList_push, List.nodup_append]
    refine ⟨h.nodup, by simp, fun r hr s hs hrs => ?_⟩
    rw [List.mem_singleton] at hs
    exact hnot (hs ▸ hrs ▸ Array.mem_toList_iff.mp hr)
  color r hr := by
    rcases mem_pixels_push.mp hr with hr | rfl
    · exact hpaint.keep (h.color r hr)
    · exact hpaint.after
  linked r hr := by
    rw [first_push]
    rcases mem_pixels_push.mp hr with hr | rfl
    · exact hpaint.joins (h.color _ b.first_mem) (h.linked r hr)
    · refine (hpaint.joins (h.color _ b.first_mem) (h.linked q hq)).tail ⟨⟨d, hstep⟩, ?_⟩
      rw [hpaint.after, hpaint.keep (h.color q hq)]
  closed r hr e s hrs hs := by
    rw [mem_pixels_push]
    by_cases hsp : s = p
    · exact .inr hsp
    rw [color_push, hpaint.frame s hsp] at hs
    rcases mem_pixels_push.mp hr with hr | rfl
    · exact .inl (h.closed r hr e s hrs hs)
    · exact .inl (honly e s hrs hs)

/-- A new cell begins a block of its own if no neighbour has its colour. -/
theorem fills_single (hpaint : Painted look look' p c)
    (hnone : ∀ e r, p.step e = some r → look r ≠ some c) : (single c p).Fills look' where
  nodup := by simp [single]
  color q hq := by
    obtain rfl : q = p := by simpa [single] using hq
    exact hpaint.after
  linked q hq := by
    obtain rfl : q = p := by simpa [single] using hq
    exact .refl
  closed q hq e r hstep hr := by
    obtain rfl : q = p := by simpa [single] using hq
    have hne : r ≠ q := Pos.step_ne_self hstep
    rw [color_single, hpaint.frame r hne] at hr
    exact absurd hr (hnone e r hstep)

end Block

end Region

end Piet
