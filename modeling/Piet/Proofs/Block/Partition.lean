import Mathlib.Data.List.Nodup
import Mathlib.Data.Set.Basic
import Piet.Proofs.Block.Atlas

/-!
# An atlas partitions its picture

An atlas finds blocks on demand, so what it holds depends on what it has been asked for.  Its
answers do not: `Atlas.consult_partition` says that, whatever has been asked before, the block of a
pixel is the whole region of that pixel, that the same region is always answered for by the same
block under the same number, and that the blocks of an atlas that knows every region list each
position of the picture exactly once.

The fill behind an answer runs until its queue is empty (`Flood.Sound.drains`); the fuel it is given
never cuts it short.
-/

namespace Piet

open Relation

/-! ### Regions and positions of a picture -/

namespace Grid

variable {g : Grid} {p q : Pos}

/-- The region of a pixel: all that can be reached from it through neighbours of its colour. -/
def region (g : Grid) (p : Pos) : Set Pos :=
  {q | ReflTransGen (Joins g.get?) p q}

/-- The positions of a picture, row by row from the top and each row from the left. -/
def positions (g : Grid) : List Pos :=
  (List.range g.height).flatMap fun y => (List.range g.width).map (Pos.mk y)

theorem mem_positions : p ∈ g.positions ↔ g.Inside p := by
  obtain ⟨y, x⟩ := p
  simp only [positions, List.mem_flatMap, List.mem_range, List.mem_map, Pos.mk.injEq, Inside]
  constructor
  · rintro ⟨y', hy, x', hx, rfl, rfl⟩
    exact ⟨hy, hx⟩
  · rintro ⟨hy, hx⟩
    exact ⟨y, hy, x, hx, rfl, rfl⟩

theorem nodup_positions (g : Grid) : g.positions.Nodup := by
  rw [positions, List.nodup_flatMap]
  refine ⟨fun y _ => List.nodup_range.map fun x x' h => (Pos.mk.inj h).2, ?_⟩
  refine List.nodup_range.imp fun {y y'} hne => ?_
  simp only [Function.onFun, List.disjoint_left, List.mem_map]
  rintro p ⟨x, -, rfl⟩ ⟨x', -, h⟩
  exact hne (Pos.mk.inj h).1.symm

theorem length_positions (g : Grid) : g.positions.length = g.width * g.height := by
  simp [positions, Nat.mul_comm]

/-- A region lies in the picture as a whole. -/
theorem inside_of_mem_region (h : q ∈ g.region p) (hq : g.Inside q) : g.Inside p := by
  have hlook : g.get? q = g.get? p := look_eq_of_joined h
  rw [← isSome_get?] at hq ⊢
  rwa [← hlook]

end Grid

/-- A block that fills its region is the region of each of its pixels. -/
theorem Block.Fills.eq_region {g : Grid} {b : Block} {p : Pos} (h : b.Fills g.get?)
    (hp : p ∈ b.pixels) : {q | q ∈ b.pixels} = g.region p :=
  Set.ext fun _ => h.mem_iff g.bounded hp

/-! ### The end of a fill -/

/-- A fill visits the pixels of its queue from number `head` on, one after another, until none is
left, and is then in this state. -/
inductive Flood.Drains (g : Grid) (k : ℕ) : Flood → ℕ → Flood → Prop
  | done {f : Flood} {head : ℕ} (h : f.block.pixels.size ≤ head) : Drains g k f head f
  | visit {f f' : Flood} {head : ℕ} {p : Pos} (hp : f.block.pixels[head]? = some p)
      (rest : Drains g k (f.visit g k p) (head + 1) f') : Drains g k f head f'

/-- With enough fuel the queue of a fill is empty at its end. -/
theorem Flood.Sound.drains {a : Atlas} {f : Flood} {start : Pos} (h : f.Sound a start)
    (ha : a.Sound) (hstart : a.owner? start = none) {fuel head : ℕ}
    (hfuel : a.grid.cells.size ≤ head + fuel) :
    Flood.Drains a.grid a.blocks.size f head (f.spread a.grid a.blocks.size fuel head) := by
  induction fuel generalizing f head with
  | zero => exact .done (h.size_le.trans hfuel)
  | succ fuel ih =>
    rw [Flood.spread]
    rcases hhead : f.block.pixels[head]? with _ | p
    · exact .done (Array.getElem?_eq_none_iff.mp hhead)
    · obtain ⟨hs, -, -⟩ := h.visit ha hstart (Array.mem_iff_getElem?.mpr ⟨head, hhead⟩)
      exact .visit hhead (ih hs (by omega))

namespace Atlas

variable {a a' : Atlas} {g : Grid} {p q : Pos} {b b' : Block} {k : ℕ} {c : Color}

/-- The fill that an atlas begins at a pixel of which it does not know the block. -/
def floodAt (a : Atlas) (c : Color) (p : Pos) : Flood :=
  ⟨a.owner.setIfInBounds (a.grid.index p) (some a.blocks.size), .single c p⟩

/-- Asking for a block that is not known yet fills until the queue is empty. -/
theorem Sound.blockAt_drains (h : a.Sound) (hp : a.grid.get? p = some c)
    (hnone : a.owner? p = none) :
    ∃ f, (a.floodAt c p).Drains a.grid a.blocks.size 0 f ∧
      a.blockAt p = (⟨a.grid, f.owner, a.blocks.push f.block⟩, some f.block) := by
  refine ⟨_, (h.start hp).drains h hnone (Nat.le_add_left _ 0), ?_⟩
  simp only [Atlas.blockAt, hp, hnone, Atlas.fill]

/-- Outside the picture nothing is found. -/
theorem blockAt_of_get?_eq_none (h : a.grid.get? p = none) : a.blockAt p = (a, none) := by
  simp only [blockAt, h]

/-! ### What an atlas has found stays found -/

/-- A later state of an atlas: it has more blocks, and the old ones keep their numbers. -/
def Extends (a a' : Atlas) : Prop :=
  a'.grid = a.grid ∧ ∀ (k : ℕ) b, a.blocks[k]? = some b → a'.blocks[k]? = some b

theorem Extends.refl (a : Atlas) : a.Extends a :=
  ⟨rfl, fun _ _ h => h⟩

theorem Extends.trans {a'' : Atlas} (h : a.Extends a') (h' : a'.Extends a'') : a.Extends a'' :=
  ⟨h'.1.trans h.1, fun k b hb => h'.2 k b (h.2 k b hb)⟩

theorem extends_blockAt (a : Atlas) (p : Pos) : a.Extends (a.blockAt p).1 := by
  refine ⟨grid_blockAt a p, fun k b hb => ?_⟩
  unfold blockAt
  split
  · exact hb
  · split
    · exact hb
    · have hlt := (Array.getElem?_eq_some_iff.mp hb).1
      exact (Array.getElem?_push_lt hlt).trans (Array.getElem?_eq_getElem hlt ▸ hb)

/-- What has been answered is among the blocks of the atlas. -/
theorem exists_number (h : (a.blockAt p).2 = some b) :
    ∃ k : ℕ, (a.blockAt p).1.blocks[k]? = some b := by
  unfold blockAt at h ⊢
  split at h
  · cases h
  · split at h
    · next k _ => exact ⟨k, h⟩
    · obtain rfl := Option.some.inj h
      exact ⟨a.blocks.size, Array.getElem?_push_size⟩

/-- The atlas after it has been asked for the blocks of some positions, one after another. -/
def consult (a : Atlas) (asked : List Pos) : Atlas :=
  asked.foldl (fun a p => (a.blockAt p).1) a

theorem consult_cons (a : Atlas) (p : Pos) (asked : List Pos) :
    a.consult (p :: asked) = (a.blockAt p).1.consult asked := rfl

theorem consult_append (a : Atlas) (asked asked' : List Pos) :
    a.consult (asked ++ asked') = (a.consult asked).consult asked' :=
  List.foldl_append

theorem extends_consult (a : Atlas) (asked : List Pos) : a.Extends (a.consult asked) := by
  induction asked generalizing a with
  | nil => exact Extends.refl a
  | cons p asked ih => exact (a.extends_blockAt p).trans (ih _)

namespace Sound

/-- Asking keeps an atlas sound, also for a position outside the picture. -/
theorem ask (h : a.Sound) (p : Pos) : (a.blockAt p).1.Sound := by
  rcases hp : a.grid.get? p with _ | c
  · rwa [blockAt_of_get?_eq_none hp]
  · obtain ⟨a', b, hblock, -, hsound, -⟩ := h.blockAt hp
    rwa [hblock]

theorem consult (h : a.Sound) (asked : List Pos) : (a.consult asked).Sound := by
  induction asked generalizing a with
  | nil => exact h
  | cons p asked ih => exact ih (h.ask p)

/-- An answer is the region of the pixel that was asked for. -/
theorem answer (h : a.Sound) (hb : (a.blockAt p).2 = some b) :
    b.Fills a.grid.get? ∧ p ∈ b.pixels := by
  rcases hp : a.grid.get? p with _ | c
  · rw [blockAt_of_get?_eq_none hp] at hb
    cases hb
  · obtain ⟨a', b', hblock, -, -, hfills, hmem⟩ := h.blockAt hp
    rw [hblock] at hb
    obtain rfl := Option.some.inj hb
    exact ⟨hfills, hmem⟩

/-- There is an answer exactly inside the picture. -/
theorem blockAt_eq_none_iff (h : a.Sound) : (a.blockAt p).2 = none ↔ ¬ a.grid.Inside p := by
  rw [← Grid.get?_eq_none_iff]
  rcases hp : a.grid.get? p with _ | c
  · simp [blockAt_of_get?_eq_none hp]
  · obtain ⟨a', b, hblock, -⟩ := h.blockAt hp
    simp [hblock]

/-- The block of a pixel that lies in a known block is that block, and nothing new is found. -/
theorem blockAt_of_mem (h : a.Sound) (hb : a.blocks[k]? = some b) (hp : p ∈ b.pixels) :
    a.blockAt p = (a, some b) := by
  have hcolor := (h.fills k b hb).color p hp
  have howner := h.owns k b hb p hp
  simp only [Atlas.blockAt, hcolor, howner, hb]

/-- **An answer is remembered.**  Whatever is asked in between, all pixels of a block are answered
for by that block, under the same number. -/
theorem answer_again (h : a.Sound) (hb : (a.blockAt p).2 = some b) (between : List Pos)
    (hq : q ∈ b.pixels) :
    let a' := (a.blockAt p).1.consult between
    a'.blockAt q = (a', some b) ∧
      ∃ k, (a.blockAt p).1.owner? p = some k ∧ a'.owner? q = some k ∧ a'.blocks[k]? = some b := by
  intro a'
  obtain ⟨k, hk⟩ := exists_number hb
  have hk' : a'.blocks[k]? = some b := (extends_consult _ between).2 k b hk
  have hsound : a'.Sound := (h.ask p).consult between
  have hown := (h.ask p).owns k b hk p (h.answer hb).2
  exact ⟨hsound.blockAt_of_mem hk' hq, k, hown, hsound.owns k b hk' q hq, hk'⟩

/-- Two answers at any two times are disjoint unless one of the pixels asked for lies in the region
of the other. -/
theorem answer_disjoint (h : a.Sound) (h' : a'.Sound) (hgrid : a'.grid = a.grid)
    (hb : (a.blockAt p).2 = some b) (hb' : (a'.blockAt q).2 = some b')
    (hq : q ∉ a.grid.region p) {r : Pos} (hr : r ∈ b.pixels) : r ∉ b'.pixels := by
  intro hr'
  obtain ⟨hfills, hp⟩ := h.answer hb
  obtain ⟨hfills', hq'⟩ := h'.answer hb'
  rw [hgrid] at hfills'
  have hmem := (hfills.mem_iff_mem a.grid.bounded hfills' hr hr' q).mpr hq'
  exact hq ((hfills.mem_iff a.grid.bounded hp).mp hmem)

/-! ### All blocks together -/

/-- No position is listed twice, in one block or in two. -/
theorem nodup_blocks (h : a.Sound) : (a.blocks.toList.flatMap fun b => b.pixels.toList).Nodup := by
  rw [List.nodup_flatMap]
  refine ⟨fun b hb => ?_, List.pairwise_iff_getElem.mpr fun i j hi hj hij => ?_⟩
  · obtain ⟨k, hk⟩ := Array.mem_iff_getElem?.mp (Array.mem_toList_iff.mp hb)
    exact (h.fills k b hk).nodup
  · simp only [Function.onFun, List.disjoint_left, Array.mem_toList_iff, Array.getElem_toList]
    intro p hpi hpj
    have howner := h.owns i _ (Array.getElem?_eq_getElem hi) p hpi
    have howner' := h.owns j _ (Array.getElem?_eq_getElem hj) p hpj
    rw [howner] at howner'
    exact hij.ne (Option.some.inj howner')

/-- The blocks of a sound atlas that knows every region list the positions of the picture. -/
theorem blocks_perm (h : a.Sound)
    (hall : ∀ p, a.grid.Inside p → ∃ (k : ℕ) (b : Block), a.blocks[k]? = some b ∧ p ∈ b.pixels) :
    (a.blocks.toList.flatMap fun b => b.pixels.toList).Perm a.grid.positions := by
  refine (List.perm_ext_iff_of_nodup h.nodup_blocks a.grid.nodup_positions).mpr fun p => ?_
  rw [Grid.mem_positions, List.mem_flatMap]
  constructor
  · rintro ⟨b, hb, hp⟩
    obtain ⟨k, hk⟩ := Array.mem_iff_getElem?.mp (Array.mem_toList_iff.mp hb)
    exact Grid.inside_of_get? ((h.fills k b hk).color p (Array.mem_toList_iff.mp hp))
  · intro hp
    obtain ⟨k, b, hb, hmem⟩ := hall p hp
    exact ⟨b, Array.mem_toList_iff.mpr (Array.mem_iff_getElem?.mpr ⟨k, hb⟩),
      Array.mem_toList_iff.mpr hmem⟩

/-- What has been asked for is known. -/
theorem known_of_asked (h : a.Sound) {asked : List Pos} (hp : p ∈ asked) (hin : a.grid.Inside p) :
    ∃ (k : ℕ) (b : Block), (a.consult asked).blocks[k]? = some b ∧ b.Fills a.grid.get? ∧
      p ∈ b.pixels := by
  obtain ⟨before, after, rfl⟩ := List.append_of_mem hp
  have hgrid : (a.consult before).grid = a.grid := (a.extends_consult before).1
  have hsound := h.consult before
  obtain ⟨b, hb⟩ : ∃ b, ((a.consult before).blockAt p).2 = some b := by
    refine Option.ne_none_iff_exists'.mp fun hnone => ?_
    exact hsound.blockAt_eq_none_iff.mp hnone (hgrid ▸ hin)
  obtain ⟨hfills, hmem⟩ := hsound.answer hb
  obtain ⟨k, hk⟩ := exists_number hb
  rw [hgrid] at hfills
  refine ⟨k, b, ?_, hfills, hmem⟩
  rw [consult_append, consult_cons]
  exact (extends_consult _ after).2 k b hk

end Sound

theorem sound_consult (g : Grid) (asked : List Pos) : ((ofGrid g).consult asked).Sound :=
  (sound_ofGrid g).consult asked

theorem grid_consult (g : Grid) (asked : List Pos) : ((ofGrid g).consult asked).grid = g :=
  ((ofGrid g).extends_consult asked).1

/-- **An atlas partitions its picture**, whatever it has been asked for.

* There is an answer exactly for the positions inside the picture.
* A fill that is needed for it ends with an empty queue.
* The answer has the colour of the pixel, and its pixels are the region of that pixel, each listed
  once.
* A pixel that is asked for later gets the same block under the same number if it lies in the same
  region, and otherwise a block that shares no pixel with it.
* If every region has been asked for, the blocks together list each position once. -/
theorem consult_partition (g : Grid) (asked : List Pos) :
    let a := (ofGrid g).consult asked
    (∀ p, (a.blockAt p).2 = none ↔ ¬ g.Inside p) ∧
      (∀ p c, g.get? p = some c → a.owner? p = none →
        ∃ f, (a.floodAt c p).Drains g a.blocks.size 0 f ∧
          a.blockAt p = (⟨g, f.owner, a.blocks.push f.block⟩, some f.block)) ∧
      (∀ p b, (a.blockAt p).2 = some b →
        g.get? p = some b.color ∧ b.pixels.toList.Nodup ∧ {q | q ∈ b.pixels} = g.region p) ∧
      (∀ p b, (a.blockAt p).2 = some b → ∀ between q b',
        let a' := (a.blockAt p).1.consult between
        (a'.blockAt q).2 = some b' →
          (q ∈ g.region p → b' = b ∧ ∃ k, (a.blockAt p).1.owner? p = some k ∧
            a'.owner? q = some k ∧ a'.blocks[k]? = some b) ∧
          (q ∉ g.region p → ∀ r ∈ b.pixels, r ∉ b'.pixels)) ∧
      ((∀ p, g.Inside p → ∃ q ∈ asked, p ∈ g.region q) →
        (a.blocks.toList.flatMap fun b => b.pixels.toList).Perm g.positions) ∧
      g.positions.length = g.width * g.height := by
  intro a
  have hsound : a.Sound := sound_consult g asked
  have hgrid : a.grid = g := grid_consult g asked
  refine ⟨fun p => ?_, fun p c hp hnone => ?_, fun p b hb => ?_, fun p b hb between q b' => ?_,
    fun hall => ?_, g.length_positions⟩
  · rw [hsound.blockAt_eq_none_iff, hgrid]
  · have hdrains := hsound.blockAt_drains (hgrid.symm ▸ hp) hnone
    rwa [hgrid] at hdrains
  · obtain ⟨hfills, hp⟩ := hsound.answer hb
    rw [hgrid] at hfills
    exact ⟨hfills.color p hp, hfills.nodup, hfills.eq_region hp⟩
  · intro a' hb'
    have hsound' : a'.Sound := (hsound.ask p).consult between
    have hgrid' : a'.grid = a.grid := (extends_consult _ between).1.trans (grid_blockAt a p)
    refine ⟨fun hq => ?_, fun hq r hr => ?_⟩
    · obtain ⟨hfills, hp⟩ := hsound.answer hb
      rw [hgrid] at hfills
      have hmem : q ∈ b.pixels := (hfills.mem_iff g.bounded hp).mpr hq
      obtain ⟨hagain, hnumber⟩ := hsound.answer_again hb between hmem
      exact ⟨Option.some.inj (hb'.symm.trans (congrArg Prod.snd hagain)), hnumber⟩
    · exact hsound.answer_disjoint hsound' hgrid' hb hb' (hgrid.symm ▸ hq) hr
  · have hperm := hsound.blocks_perm fun p hp => by
      obtain ⟨q, hq, hpq⟩ := hall p (hgrid ▸ hp)
      obtain ⟨k, b, hb, hfills, hmem⟩ := (sound_ofGrid g).known_of_asked hq
        (Grid.inside_of_mem_region hpq (hgrid ▸ hp))
      exact ⟨k, b, hb, (hfills.mem_iff g.bounded hmem).mpr hpq⟩
    rwa [hgrid] at hperm

/-- Three light red pixels around a white one. -/
def corner : Grid :=
  ⟨2, 2, #[.shade (.ofInts 0 0), .white, .shade (.ofInts 0 0), .shade (.ofInts 0 0)], rfl,
    by decide, by decide⟩

theorem consult_partition_corner :
    let a := (ofGrid corner).consult [⟨1, 1⟩, ⟨0, 1⟩]
    let a' := (a.blockAt ⟨0, 0⟩).1
    let b : Block := ⟨.shade (.ofInts 0 0), #[⟨1, 1⟩, ⟨1, 0⟩, ⟨0, 0⟩], by decide⟩
    (∀ p, corner.Inside p → ∃ q ∈ [(⟨1, 1⟩ : Pos), ⟨0, 1⟩], p ∈ corner.region q) ∧
      (a.blocks.toList.flatMap fun b => b.pixels.toList).Perm corner.positions ∧
      (a.blockAt ⟨0, 0⟩).2 = some b ∧ {q | q ∈ b.pixels} = corner.region ⟨0, 0⟩ ∧
      (a'.blockAt ⟨1, 1⟩).2 = some b ∧ ⟨1, 1⟩ ∈ corner.region ⟨0, 0⟩ ∧
      ∃ k, a'.owner? ⟨0, 0⟩ = some k ∧ a'.owner? ⟨1, 1⟩ = some k ∧ a'.blocks[k]? = some b := by
  intro a a' b
  have hleft : Joins corner.get? ⟨1, 1⟩ ⟨1, 0⟩ := ⟨⟨.left, rfl⟩, rfl⟩
  have hup : Joins corner.get? ⟨1, 0⟩ ⟨0, 0⟩ := ⟨⟨.up, rfl⟩, rfl⟩
  have hdown : Joins corner.get? ⟨0, 0⟩ ⟨1, 0⟩ := ⟨⟨.down, rfl⟩, rfl⟩
  have hright : Joins corner.get? ⟨1, 0⟩ ⟨1, 1⟩ := ⟨⟨.right, rfl⟩, rfl⟩
  have hcover : ∀ p, corner.Inside p → ∃ q ∈ [(⟨1, 1⟩ : Pos), ⟨0, 1⟩], p ∈ corner.region q := by
    rintro ⟨y, x⟩ ⟨hy, hx⟩
    have hcases : (y = 0 ∨ y = 1) ∧ (x = 0 ∨ x = 1) := by
      simp only [corner] at hy hx
      omega
    obtain ⟨rfl | rfl, rfl | rfl⟩ := hcases
    · exact ⟨⟨1, 1⟩, by simp, .tail (.single hleft) hup⟩
    · exact ⟨⟨0, 1⟩, by simp, .refl⟩
    · exact ⟨⟨1, 1⟩, by simp, .single hleft⟩
    · exact ⟨⟨1, 1⟩, by simp, .refl⟩
  have hb : (a.blockAt ⟨0, 0⟩).2 = some b := by decide +kernel
  have hb' : (a'.blockAt ⟨1, 1⟩).2 = some b := by decide +kernel
  have hsame : ⟨1, 1⟩ ∈ corner.region ⟨0, 0⟩ := .tail (.single hdown) hright
  obtain ⟨-, -, hanswer, hagain, hperm, -⟩ := consult_partition corner [⟨1, 1⟩, ⟨0, 1⟩]
  obtain ⟨-, -, hregion⟩ := hanswer ⟨0, 0⟩ b hb
  obtain ⟨-, hnumber⟩ := (hagain ⟨0, 0⟩ b hb [] ⟨1, 1⟩ b hb').1 hsame
  exact ⟨hcover, hperm hcover, hb, hregion, hb', hsame, hnumber⟩

end Atlas

end Piet
