import Mathlib.Logic.Equiv.Defs
import Piet.Proofs.Block.Partition
import Piet.Walk.Run

/-!
# Pictures that mirror each other

A renaming permutes the colours so that white and black stay what they are and every change of
colour keeps its instruction.  A picture mirrors another one if it shows the same colours at the
same pixels up to a renaming (`Grid.Mirrors`).  It may have other sides, and it need not agree about
all colours, but only about those of a set `T` which leaves out black at most.

Where one picture shows a colour of `T`, both have the same blocks, down to the order in which the
pixels are found.  This is proved along the fill: the two fills visit the same pixels and claim the
same neighbours, although their owners are kept at different places (`Flood.Mirrors.drains`).  So
atlases that have been asked the same answer the same (`Atlas.Mirrors.blockAt`).
-/

namespace Piet

/-! ### Renamed colours -/

/-- A permutation of the colours that the pointer does not notice. -/
structure Renaming extends Color ≃ Color where
  white : toFun .white = .white
  black : toFun .black = .black
  instructionTo : ∀ k k', (toFun k).instructionTo (toFun k') = k.instructionTo k'

namespace Renaming

variable (f : Renaming) {k k' : Color}

instance : CoeFun Renaming fun _ => Color → Color :=
  ⟨fun f => f.toFun⟩

/-- The renaming that keeps all names. -/
protected def refl : Renaming :=
  ⟨Equiv.refl Color, rfl, rfl, fun _ _ => rfl⟩

theorem eq_iff : f k = f k' ↔ k = k' :=
  f.toEquiv.apply_eq_iff_eq

@[simp]
theorem eq_white_iff : f k = .white ↔ k = .white :=
  ⟨fun h => f.eq_iff.mp (h.trans f.white.symm), fun h => h ▸ f.white⟩

@[simp]
theorem eq_black_iff : f k = .black ↔ k = .black :=
  ⟨fun h => f.eq_iff.mp (h.trans f.black.symm), fun h => h ▸ f.black⟩

/-- Every colour is the new name of one. -/
theorem exists_eq (k' : Color) : ∃ k, f k = k' :=
  f.toEquiv.surjective k'

end Renaming

/-- The block in another colour. -/
def Block.rename (b : Block) (f : Renaming) : Block :=
  ⟨f b.color, b.pixels, b.nonempty⟩

namespace Block

@[simp]
theorem exit_rename (b : Block) (f : Renaming) (dp : Direction) (cc : Chooser) :
    (b.rename f).exit dp cc = b.exit dp cc := rfl

@[simp]
theorem pixels_rename (b : Block) (f : Renaming) : (b.rename f).pixels = b.pixels := rfl

end Block

/-! ### Pictures -/

/-- The second picture shows the colours of `T`, renamed, exactly where the first one shows them.
These are all colours, or all but black. -/
structure Grid.Mirrors (f : Renaming) (T : Set Color) (g g' : Grid) : Prop where
  mem : ∀ k, k ≠ .black → k ∈ T
  get?_iff : ∀ p, ∀ k ∈ T, g'.get? p = some (f k) ↔ g.get? p = some k

/-- The pixels of the colours of `T` have the same owners. -/
def Grid.SameOwners (T : Set Color) (g g' : Grid) (o o' : Array (Option ℕ)) : Prop :=
  ∀ p, ∀ k ∈ T, g.get? p = some k → o'[g'.index p]? = o[g.index p]?

namespace Grid

variable {f : Renaming} {T : Set Color} {g g' : Grid} {p : Pos} {k : Color}
  {o o' : Array (Option ℕ)}

/-- Setting the owner of a pixel on both sides. -/
theorem Mirrors.sameOwners_set (h : g.Mirrors f T g') (ho : SameOwners T g g' o o') (hk : k ∈ T)
    (hp : g.get? p = some k) (v : Option ℕ) :
    SameOwners T g g' (o.setIfInBounds (g.index p) v) (o'.setIfInBounds (g'.index p) v) := by
  intro q l hl hq
  have hp' := (h.get?_iff p k hk).mpr hp
  have hq' := (h.get?_iff q l hl).mpr hq
  have hold := ho q l hl hq
  by_cases hqp : q = p
  · subst hqp
    have hlt : g'.index q < o'.size ↔ g.index q < o.size := by
      rw [← not_le, ← not_le, ← Array.getElem?_eq_none_iff, ← Array.getElem?_eq_none_iff, hold]
    rw [Array.getElem?_setIfInBounds_self, Array.getElem?_setIfInBounds_self]
    simp only [hlt]
  · have hne : g.index p ≠ g.index q := fun he =>
      hqp (index_injOn (inside_of_get? hq) (inside_of_get? hp) he.symm)
    have hne' : g'.index p ≠ g'.index q := fun he =>
      hqp (index_injOn (inside_of_get? hq') (inside_of_get? hp') he.symm)
    rw [Array.getElem?_setIfInBounds_ne hne, Array.getElem?_setIfInBounds_ne hne', hold]

end Grid

/-! ### Fills -/

/-- Two fills have found the same pixels in the same order, and the owners agree. -/
structure Flood.Mirrors (f : Renaming) (T : Set Color) (g g' : Grid) (s s' : Flood) : Prop where
  block : s'.block = s.block.rename f
  owner : g.SameOwners T g' s.owner s'.owner

namespace Flood.Mirrors

variable {f : Renaming} {T : Set Color} {g g' : Grid} {s s' : Flood} {p : Pos} {n head : ℕ}

theorem pixels (h : s.Mirrors f T g g' s') : s'.block.pixels = s.block.pixels := by
  rw [h.block, Block.pixels_rename]

/-- The same neighbours are claimed. -/
theorem claim (h : s.Mirrors f T g g' s') (hg : g.Mirrors f T g') (hs : s.block.color ∈ T)
    (n : ℕ) (p : Pos) : (s.claim g n p).Mirrors f T g g' (s'.claim g' n p) := by
  have hcolor : g'.get? p = some s'.block.color ↔ g.get? p = some s.block.color := by
    rw [h.block]
    exact hg.get?_iff p _ hs
  have hfree : g'.get? p = some s'.block.color ∧ s'.owner[g'.index p]? = some none ↔
      g.get? p = some s.block.color ∧ s.owner[g.index p]? = some none := by
    rw [hcolor]
    refine and_congr_right fun hp => ?_
    rw [h.owner p _ hs hp]
  rw [Flood.claim, Flood.claim]
  by_cases hclaim : g.get? p = some s.block.color ∧ s.owner[g.index p]? = some none
  · rw [if_pos hclaim, if_pos (hfree.mpr hclaim)]
    refine ⟨?_, hg.sameOwners_set h.owner hs hclaim.1 _⟩
    rw [h.block]
    rfl
  · rw [if_neg hclaim, if_neg (mt hfree.mp hclaim)]
    exact h

theorem visitAll (h : s.Mirrors f T g g' s') (hg : g.Mirrors f T g') (hs : s.block.color ∈ T)
    (n : ℕ) (p : Pos) (ds : List Direction) :
    let go (g : Grid) (s : Flood) := ds.foldl (fun s d => match p.step d with
      | some q => s.claim g n q
      | none => s) s
    (go g s).Mirrors f T g g' (go g' s') ∧ (go g s).block.color = s.block.color := by
  induction ds generalizing s s' with
  | nil => exact ⟨h, rfl⟩
  | cons d ds ih =>
    simp only [List.foldl_cons]
    rcases p.step d with _ | q
    · exact ih h hs
    · have hcolor : (s.claim g n q).block.color = s.block.color := by
        rw [Flood.claim]
        split <;> rfl
      have hrest := ih (h.claim hg hs n q) (hcolor.symm ▸ hs)
      rwa [hcolor] at hrest

/-- **Fills of the same pixel run alike**: as long as one has pixels to visit, so has the other. -/
theorem drains {t t' : Flood} (h : s.Mirrors f T g g' s') (hg : g.Mirrors f T g')
    (hs : s.block.color ∈ T) (hd : Drains g n s head t) (hd' : Drains g' n s' head t') :
    t.Mirrors f T g g' t' := by
  induction hd generalizing s' with
  | @done s head hend =>
    cases hd' with
    | done => exact h
    | visit hp =>
      rw [h.pixels, Array.getElem?_eq_none hend] at hp
      cases hp
  | @visit s t head p hp _ ih =>
    cases hd' with
    | done hend =>
      rw [h.pixels] at hend
      rw [Array.getElem?_eq_none hend] at hp
      cases hp
    | visit hp' hrest =>
      rw [h.pixels, hp] at hp'
      obtain rfl := Option.some.inj hp'
      obtain ⟨hvisit, hcolor⟩ := h.visitAll hg hs n p Direction.all
      exact ih hvisit (hcolor.symm ▸ hs) hrest

end Flood.Mirrors

/-! ### Atlases -/

/-- Two atlases know the same blocks under the same numbers. -/
structure Atlas.Mirrors (f : Renaming) (T : Set Color) (a a' : Atlas) : Prop where
  grid : a.grid.Mirrors f T a'.grid
  sound : a.Sound
  sound' : a'.Sound
  blocks : a'.blocks = a.blocks.map (·.rename f)
  owner : a.grid.SameOwners T a'.grid a.owner a'.owner

namespace Atlas

variable {f : Renaming} {T : Set Color} {g g' : Grid} {a a' : Atlas} {p : Pos} {k : Color}

/-- At first nothing is known of either picture. -/
theorem mirrors_ofGrid (h : g.Mirrors f T g') : (ofGrid g).Mirrors f T (ofGrid g') where
  grid := h
  sound := sound_ofGrid g
  sound' := sound_ofGrid g'
  blocks := Array.map_empty.symm
  owner := by
    intro p k hk hp
    have hp' := (h.get?_iff p k hk).mpr hp
    have hlt : g.index p < g.cells.size := Grid.index_lt (Grid.inside_of_get? hp)
    have hlt' : g'.index p < g'.cells.size := Grid.index_lt (Grid.inside_of_get? hp')
    simp only [ofGrid, Array.getElem?_replicate, if_pos hlt, if_pos hlt']

/-- **Atlases that have been asked the same answer the same.** -/
theorem Mirrors.blockAt (h : a.Mirrors f T a') (hk : k ∈ T) (hp : a.grid.get? p = some k) :
    ∃ b, (a.blockAt p).2 = some b ∧ (a'.blockAt p).2 = some (b.rename f) ∧
      (a.blockAt p).1.Mirrors f T (a'.blockAt p).1 := by
  have hp' : a'.grid.get? p = some (f k) := (h.grid.get?_iff p k hk).mpr hp
  have howner : a'.owner? p = a.owner? p := by
    rw [owner?, owner?, h.owner p k hk hp]
  rcases hnone : a.owner? p with _ | i
  · -- Both fills are run to their ends.
    obtain ⟨s, hdrains, hblock⟩ := h.sound.blockAt_drains hp hnone
    obtain ⟨s', hdrains', hblock'⟩ := h.sound'.blockAt_drains hp' (howner.trans hnone)
    have hsize : a'.blocks.size = a.blocks.size := by rw [h.blocks, Array.size_map]
    have hstart : (a.floodAt k p).Mirrors f T a.grid a'.grid (a'.floodAt (f k) p) := by
      refine ⟨rfl, ?_⟩
      simp only [floodAt, hsize]
      exact h.grid.sameOwners_set h.owner hk hp _
    rw [hsize] at hdrains'
    have hend := hstart.drains h.grid hk hdrains hdrains'
    have hsound := h.sound.ask p
    have hsound' := h.sound'.ask p
    rw [hblock] at hsound
    rw [hblock'] at hsound'
    refine ⟨s.block, by rw [hblock], by rw [hblock', hend.block], ?_⟩
    rw [hblock, hblock']
    refine ⟨h.grid, hsound, hsound', ?_, hend.owner⟩
    rw [Array.map_push, h.blocks, hend.block]
  · obtain ⟨b, hb, -⟩ := h.sound.owned p i (Grid.inside_of_get? hp) hnone
    have hblock : a.blockAt p = (a, some b) := by
      simp only [Atlas.blockAt, hp, hnone, hb]
    have hblock' : a'.blockAt p = (a', some (b.rename f)) := by
      simp only [Atlas.blockAt, hp', howner, hnone, h.blocks, Array.getElem?_map, hb,
        Option.map_some]
    rw [hblock, hblock']
    exact ⟨b, rfl, rfl, h⟩

end Atlas

end Piet
