import Mathlib.Algebra.Group.Fin.Basic
import Mathlib.Data.Option.Basic
import Piet.Proofs.Walk.Limit
import Piet.Proofs.Walk.Mirror

/-!
# Pictures with the same program

Two changes to a picture that its program does not notice.

A program is read off the changes between neighbouring shades, so it stays the same program if all
shades of its picture are shifted by one change.  White and black are left as they are.
`Grid.shift` is the picture with all shades shifted, which mirrors the picture (`Grid.shift_mirrors`),
and `Walk.shift_alike` says that the program does not notice.

The pointer stops at black as it stops at the edge of the picture, so black columns on the right and
black rows at the bottom make no difference, although every pixel is then kept at another place.
`Grid.pad` is the picture with a margin.  It mirrors the picture in all colours but black
(`Grid.pad_mirrors`), and `Walk.pad_alike` says that a program which does not start on black does not
notice the margin.
-/

namespace Piet

/-! ### Shifted shades -/

/-- The change that leads back. -/
def Change.back (c : Change) : Change :=
  ⟨-c.lightness, -c.hue⟩

namespace Shade

@[simp]
theorem shift_back (s : Shade) (c : Change) : (s.shift c).shift c.back = s := by
  simp only [shift, Change.back, add_neg_cancel_right]

@[simp]
theorem shift_of_back (s : Shade) (c : Change) : (s.shift c.back).shift c = s := by
  simp only [shift, Change.back, neg_add_cancel_right]

/-- Shifting both shades leaves the change between them as it is. -/
@[simp]
theorem changeTo_shift_both (s t : Shade) (c : Change) :
    (s.shift c).changeTo (t.shift c) = s.changeTo t := by
  simp only [shift, changeTo, add_sub_add_right_eq_sub]

end Shade

/-- The colour a change away.  White and black have no place in the lattice and stay. -/
def Color.shift : Color → Change → Color
  | white, _ => white
  | black, _ => black
  | shade s, c => shade (s.shift c)

/-- Shifting all shades by the same change, as a renaming of the colours. -/
def Renaming.shift (c : Change) : Renaming where
  toFun k := k.shift c
  invFun k := k.shift c.back
  left_inv := by
    rintro (_ | _ | s)
    · rfl
    · rfl
    · exact congrArg Color.shade (s.shift_back c)
  right_inv := by
    rintro (_ | _ | s)
    · rfl
    · rfl
    · exact congrArg Color.shade (s.shift_of_back c)
  white := rfl
  black := rfl
  instructionTo := by
    rintro (_ | _ | s) (_ | _ | t)
    any_goals rfl
    exact congrArg Instruction.ofChange (Shade.changeTo_shift_both s t c)

/-! ### Shifted pictures -/

namespace Grid

/-- The picture with all shades shifted. -/
def shift (g : Grid) (c : Change) : Grid :=
  { g with
    cells := g.cells.map fun k => k.shift c
    size_cells := Array.size_map.trans g.size_cells }

@[simp]
theorem get?_shift (g : Grid) (c : Change) (p : Pos) :
    (g.shift c).get? p = (g.get? p).map fun k => k.shift c := by
  by_cases hp : g.Inside p
  · have hp' : (g.shift c).Inside p := hp
    rw [get?_eq_getElem? hp, get?_eq_getElem? hp']
    exact Array.getElem?_map
  · have hp' : ¬ (g.shift c).Inside p := hp
    rw [get?_eq_none_iff.mpr hp, get?_eq_none_iff.mpr hp', Option.map_none]

theorem shift_mirrors (g : Grid) (c : Change) : g.Mirrors (.shift c) Set.univ (g.shift c) where
  mem _ _ := Set.mem_univ _
  get?_iff p k _ := by
    have hinj : Function.Injective fun k : Color => k.shift c :=
      (Renaming.shift c).toEquiv.injective
    rw [get?_shift]
    exact Option.mem_map_of_injective hinj

end Grid

/-- **Programs do not notice a translation of the palette.**  Let all shades of a picture be shifted
by the same change.  Then, whatever the input and the limit, the program leaves the same behind.
Walks from the start are alike call for call, even if one does not end where a run would: they
report the same instructions, the same detours and the same notices at the same positions, and have
the same machine, with its stack, its heading, its input and its output, and the same counters.  Only
the colours of their blocks are shifted. -/
theorem Walk.shift_alike (g : Grid) (c : Change) :
    (∀ input limit, (g.shift c).interpret input limit = g.interpret input limit) ∧
      ∀ m limit,
        (start? (.ofGrid g) m limit = none ∧ start? (.ofGrid (g.shift c)) m limit = none) ∨
          ∃ w w', start? (.ofGrid g) m limit = some w ∧
            start? (.ofGrid (g.shift c)) m limit = some w' ∧
              ∀ n, w'.after n = (w.after n).rename (.shift c) (w'.after n).atlas ∧
                (w'.after n).step.2 = (w.after n).step.2.rename (.shift c) := by
  have hmirrors := g.shift_mirrors c
  rcases horigin : g.get? .origin with _ | k
  · have horigin' : (g.shift c).get? .origin = none := by
      rw [Grid.get?_shift, horigin, Option.map_none]
    have hnone := fun m => start?_eq_none (a := .ofGrid g) (m := m) horigin
    have hnone' := fun m => start?_eq_none (a := .ofGrid (g.shift c)) (m := m) horigin'
    refine ⟨fun input limit => ?_, fun m limit => .inl ⟨hnone m limit, hnone' m limit⟩⟩
    rw [Grid.interpret, Grid.interpret, hnone, hnone']
  · exact ⟨hmirrors.interpret_eq (Set.mem_univ k) horigin,
      fun m limit => .inr (hmirrors.walks_alike (Set.mem_univ k) horigin m limit)⟩

/-! ### Black margins -/

namespace Grid

/-- The picture with this many black columns on the right and black rows at the bottom. -/
def pad (g : Grid) (right bottom : ℕ) (hw : g.width + right < Pos.limit)
    (hh : g.height + bottom < Pos.limit) : Grid :=
  .ofFn (g.width + right) (g.height + bottom) hw hh fun p => (g.get? p).getD .black

variable {g : Grid} {right bottom : ℕ} {hw : g.width + right < Pos.limit}
  {hh : g.height + bottom < Pos.limit} {p : Pos} {k : Color}

/-- Whatever is not black is found in both pictures, at the same pixels. -/
theorem get?_pad_eq_some_iff (hk : k ≠ .black) :
    (g.pad right bottom hw hh).get? p = some k ↔ g.get? p = some k := by
  rw [pad, get?_ofFn]
  constructor
  · intro h
    obtain ⟨-, hget⟩ := Option.ite_none_right_eq_some.mp h
    rcases hp : g.get? p with _ | l
    · rw [hp] at hget
      exact absurd (Option.some.inj hget).symm hk
    · rwa [hp] at hget
  · intro h
    obtain ⟨hy, hx⟩ := inside_of_get? h
    rw [if_pos ⟨Nat.lt_add_right _ hy, Nat.lt_add_right _ hx⟩, h, Option.getD_some]

theorem pad_mirrors : g.Mirrors .refl {k | k ≠ .black} (g.pad right bottom hw hh) where
  mem _ hk := hk
  get?_iff _ _ hk := get?_pad_eq_some_iff hk

end Grid

namespace Walk

/-- **Black margins do not matter.**  Let black columns and rows be added to a picture whose first
pixel the pointer can enter, as many as its sides can hold.  Then, whatever the input and the limit,
the program leaves the same behind.  Walks from the start are alike call for call, even if one does
not end where a run would: they report the same, and they are at the same position, in the same block
and with the same machine and counters.  Only what they keep about the picture is different. -/
theorem pad_alike {g : Grid} (hopen : g.Open .origin) (right bottom : ℕ)
    (hw : g.width + right < Pos.limit) (hh : g.height + bottom < Pos.limit) :
    (∀ input limit,
      (g.pad right bottom hw hh).interpret input limit = g.interpret input limit) ∧
      ∀ m limit, ∃ w w', start? (.ofGrid g) m limit = some w ∧
        start? (.ofGrid (g.pad right bottom hw hh)) m limit = some w' ∧
          ∀ n, w'.after n = { w.after n with atlas := (w'.after n).atlas } ∧
            (w'.after n).step.2 = (w.after n).step.2 := by
  have hmirrors : g.Mirrors .refl {k | k ≠ .black} (g.pad right bottom hw hh) := Grid.pad_mirrors
  obtain ⟨k, hne, hk⟩ := Grid.open_iff_exists.mp hopen
  refine ⟨hmirrors.interpret_eq hne hk, fun m limit => ?_⟩
  obtain ⟨w, w', hstart, hstart', halike⟩ := hmirrors.walks_alike hne hk m limit
  refine ⟨w, w', hstart, hstart', fun n => ?_⟩
  obtain ⟨hafter, hstep⟩ := halike n
  rw [Event.rename_refl] at hstep
  exact ⟨hafter, hstep⟩

theorem pad_alike_lastWord :
    lastWord.Open .origin ∧
      ((lastWord.pad 2 1 (by decide) (by decide)).interpret #[] 20).output = #[49] ∧
      ∃ w w', start? (.ofGrid lastWord) (.start #[]) 20 = some w ∧
        start? (.ofGrid (lastWord.pad 2 1 (by decide) (by decide))) (.start #[]) 20 = some w' ∧
          ∀ n, w'.after n = { w.after n with atlas := (w'.after n).atlas } ∧
            (w'.after n).step.2 = (w.after n).step.2 := by
  have hopen : lastWord.Open .origin := by decide
  have hrun : (lastWord.interpret #[] 20).output = #[49] := by decide +kernel
  obtain ⟨hinterpret, halike⟩ := pad_alike hopen 2 1 (by decide) (by decide)
  exact ⟨hopen, (congrArg Run.output (hinterpret #[] 20)).trans hrun, halike (.start #[]) 20⟩

end Walk

end Piet
