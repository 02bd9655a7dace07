import Mathlib.Data.List.Nodup
import Mathlib.Data.List.Perm.Subperm
import Piet.Block.Atlas
import Piet.Proofs.Block.Region

/-!
# The flood fill finds whole regions

An atlas is *sound* when every block it has found fills its region and owns exactly the pixels
that are entered for it (`Atlas.Sound`).  An atlas of a picture starts out sound, and asking for
the block of a pixel keeps it sound and answers with the whole region of that pixel
(`Atlas.Sound.blockAt`), whatever has been asked for before.

The fill itself carries two invariants.  `Flood.Sound` says that the block found so far is a
linked part of the region and that the owners have changed for its pixels only.  The pixels in
front of the head of the queue have no neighbour left to claim; since the queue never holds a
pixel twice, as many visits as there are pixels exhaust it.
-/

namespace Piet

open Relation

namespace Grid

variable {g : Grid} {p : Pos} {c : Color}

theorem inside_of_get? (h : g.get? p = some c) : g.Inside p :=
  isSome_get?.mp (Option.isSome_iff_exists.mpr ⟨c, h⟩)

theorem bounded (g : Grid) : Bounded g.get? := fun _ _ h =>
  ⟨(inside_of_get? h).1.trans g.height_lt, (inside_of_get? h).2.trans g.width_lt⟩

/-- No more positions can be listed, each once, than a picture has pixels. -/
theorem length_le_size {l : List Pos} (hnodup : l.Nodup) (hin : ∀ p ∈ l, g.Inside p) :
    l.length ≤ g.cells.size := by
  have hindex : (l.map g.index).Nodup :=
    hnodup.map_on fun p hp q hq heq => index_injOn (hin p hp) (hin q hq) heq
  have hsub : l.map g.index ⊆ List.range g.cells.size := by
    intro i hi
    obtain ⟨p, hp, rfl⟩ := List.mem_map.mp hi
    exact List.mem_range.mpr (index_lt (hin p hp))
  simpa using (hindex.subperm hsub).length_le

end Grid

namespace Atlas

/-- Every block found so far is a whole region, and the owner of a pixel is the number of the
block it belongs to. -/
structure Sound (a : Atlas) : Prop where
  size_owner : a.owner.size = a.grid.cells.size
  owned : ∀ p k, a.grid.Inside p → a.owner? p = some k → ∃ b, a.blocks[k]? = some b ∧ p ∈ b.pixels
  fills : ∀ (k : ℕ) (b : Block), a.blocks[k]? = some b → b.Fills a.grid.get?
  owns : ∀ (k : ℕ) (b : Block), a.blocks[k]? = some b → ∀ p ∈ b.pixels, a.owner? p = some k

theorem sound_ofGrid (g : Grid) : (ofGrid g).Sound where
  size_owner := Array.size_replicate
  owned p k _ h := by
    simp only [owner?, ofGrid, Array.getElem?_replicate] at h
    split at h <;> cases h
  fills k b h := by simp [ofGrid] at h
  owns k b h := by simp [ofGrid] at h

end Atlas

/-! ### A fill under way -/

namespace Flood

variable {a : Atlas} {f f' f'' : Flood} {start p q : Pos} {d : Direction}

/-- The block found so far is a linked part of the region of the pixel at the start, and the
owners differ from those before the fill for its pixels only. -/
structure Sound (a : Atlas) (start : Pos) (f : Flood) : Prop where
  size_owner : f.owner.size = a.grid.cells.size
  nodup : f.block.pixels.toList.Nodup
  first : f.block.first = start
  color : a.grid.get? start = some f.block.color
  linked : ∀ q ∈ f.block.pixels, ReflTransGen (Joins a.grid.get?) start q
  owner : ∀ q, a.grid.Inside q → f.owner[a.grid.index q]? =
    if q ∈ f.block.pixels then some (some a.blocks.size) else a.owner[a.grid.index q]?

/-- A later state of a fill: the queue has grown at its end. -/
def Extends (f f' : Flood) : Prop :=
  f'.block.color = f.block.color ∧
    ∀ (i : ℕ) p, f.block.pixels[i]? = some p → f'.block.pixels[i]? = some p

theorem Extends.refl (f : Flood) : f.Extends f :=
  ⟨rfl, fun _ _ h => h⟩

theorem Extends.trans (h : f.Extends f') (h' : f'.Extends f'') : f.Extends f'' :=
  ⟨h'.1.trans h.1, fun i p hi => h'.2 i p (h.2 i p hi)⟩

theorem Extends.mem (h : f.Extends f') (hp : p ∈ f.block.pixels) : p ∈ f'.block.pixels := by
  obtain ⟨i, hi⟩ := Array.mem_iff_getElem?.mp hp
  exact Array.mem_iff_getElem?.mpr ⟨i, h.2 i p hi⟩

namespace Sound

theorem color_of_mem (h : f.Sound a start) (hq : q ∈ f.block.pixels) :
    a.grid.get? q = some f.block.color :=
  (look_eq_of_joined (h.linked q hq)).trans h.color

theorem inside_of_mem (h : f.Sound a start) (hq : q ∈ f.block.pixels) : a.grid.Inside q :=
  Grid.inside_of_get? (h.color_of_mem hq)

/-- The queue is no longer than the picture has pixels. -/
theorem size_le (h : f.Sound a start) : f.block.pixels.size ≤ a.grid.cells.size := by
  rw [← Array.length_toList]
  exact Grid.length_le_size h.nodup fun q hq => h.inside_of_mem (Array.mem_toList_iff.mp hq)

/-- A pixel of the region that has an owner already belongs to the block being found: any other
block would hold the pixel at the start as well. -/
theorem mem_of_owner (h : f.Sound a start) (ha : a.Sound) (hstart : a.owner? start = none)
    (hp : p ∈ f.block.pixels) (hstep : p.step d = some q)
    (hcolor : a.grid.get? q = some f.block.color)
    (howner : f.owner[a.grid.index q]? ≠ some none) : q ∈ f.block.pixels := by
  by_contra hq
  have hin : a.grid.Inside q := Grid.inside_of_get? hcolor
  have hjoin : ReflTransGen (Joins a.grid.get?) start q :=
    (h.linked p hp).tail ⟨⟨d, hstep⟩, hcolor.trans (h.color_of_mem hp).symm⟩
  rw [h.owner q hin, if_neg hq] at howner
  have hlt : a.grid.index q < a.owner.size := ha.size_owner ▸ Grid.index_lt hin
  obtain ⟨k, hk⟩ : ∃ k, a.owner? q = some k := by
    rw [Array.getElem?_eq_getElem hlt] at howner
    rw [Atlas.owner?, Array.getElem?_eq_getElem hlt, Option.join_some]
    exact Option.ne_none_iff_exists'.mp fun hnone => howner (congrArg some hnone)
  obtain ⟨b, hb, hqb⟩ := ha.owned q k hin hk
  have hback := joined_symm a.grid.bounded h.color hjoin
  have hmem : start ∈ b.pixels := ((ha.fills k b hb).mem_iff a.grid.bounded hqb).mpr hback
  rw [ha.owns k b hb start hmem] at hstart
  cases hstart

/-- Trying a neighbour of a pixel in the queue keeps the fill sound, and the neighbour is in the
queue afterwards if it has the right colour. -/
theorem claim (h : f.Sound a start) (ha : a.Sound) (hstart : a.owner? start = none)
    (hp : p ∈ f.block.pixels) (hstep : p.step d = some q) :
    (f.claim a.grid a.blocks.size q).Sound a start ∧
      f.Extends (f.claim a.grid a.blocks.size q) ∧
      (a.grid.get? q = some f.block.color →
        q ∈ (f.claim a.grid a.blocks.size q).block.pixels) := by
  by_cases hclaim : a.grid.get? q = some f.block.color ∧ f.owner[a.grid.index q]? = some none
  · rw [Flood.claim, if_pos hclaim]
    obtain ⟨hcolor, howner⟩ := hclaim
    have hin : a.grid.Inside q := Grid.inside_of_get? hcolor
    have hnot : q ∉ f.block.pixels := fun hq => by
      rw [h.owner q hin, if_pos hq] at howner
      cases howner
    have hlt : a.grid.index q < f.owner.size := h.size_owner ▸ Grid.index_lt hin
    refine ⟨⟨?_, ?_, ?_, h.color, ?_, ?_⟩, ⟨rfl, ?_⟩, fun _ => Block.mem_pixels_push.mpr (.inr rfl)⟩
    · rw [Array.size_setIfInBounds, h.size_owner]
    · rw [Block.push, Array.toList_push, List.nodup_append]
      refine ⟨h.nodup, by simp, fun r hr s hs hrs => ?_⟩
      rw [List.mem_singleton] at hs
      exact hnot (hs ▸ hrs ▸ Array.mem_toList_iff.mp hr)
    · rw [Block.first_push, h.first]
    · intro r hr
      rcases Block.mem_pixels_push.mp hr with hr | rfl
      · exact h.linked r hr
      · exact (h.linked p hp).tail ⟨⟨d, hstep⟩, hcolor.trans (h.color_of_mem hp).symm⟩
    · intro r hr
      by_cases hrq : r = q
      · subst hrq
        rw [if_pos (Block.mem_pixels_push.mpr (.inr rfl)),
          Array.getElem?_setIfInBounds_self_of_lt hlt]
      · have hne : a.grid.index q ≠ a.grid.index r := fun he =>
          hrq (Grid.index_injOn hr hin he.symm)
        rw [Array.getElem?_setIfInBounds_ne hne, h.owner r hr]
        simp only [Block.mem_pixels_push, hrq, or_false]
    · intro i r hi
      have hlt := (Array.getElem?_eq_some_iff.mp hi).1
      rw [Block.push, Array.getElem?_push_lt hlt, ← Array.getElem?_eq_getElem hlt, hi]
  · rw [Flood.claim, if_neg hclaim]
    refine ⟨h, Extends.refl f, fun hcolor => ?_⟩
    exact h.mem_of_owner ha hstart hp hstep hcolor fun howner => hclaim ⟨hcolor, howner⟩

/-- Looking in some directions from a pixel of the queue leaves none of its neighbours there of the
right colour outside. -/
theorem visitAll (h : f.Sound a start) (ha : a.Sound) (hstart : a.owner? start = none)
    (hp : p ∈ f.block.pixels) (ds : List Direction) :
    let f' := ds.foldl (fun f d => match p.step d with
      | some q => f.claim a.grid a.blocks.size q
      | none => f) f
    f'.Sound a start ∧ f.Extends f' ∧ ∀ d ∈ ds, ∀ q, p.step d = some q →
      a.grid.get? q = some f.block.color → q ∈ f'.block.pixels := by
  induction ds generalizing f with
  | nil => exact ⟨h, Extends.refl f, fun d hd => absurd hd List.not_mem_nil⟩
  | cons d ds ih =>
    rw [List.foldl_cons]
    cases hstep : p.step d with
    | none =>
      obtain ⟨hs, he, hm⟩ := ih h hp
      refine ⟨hs, he, fun e hed q hq hcolor => ?_⟩
      rcases List.mem_cons.mp hed with rfl | hed
      · rw [hstep] at hq
        cases hq
      · exact hm e hed q hq hcolor
    | some r =>
      obtain ⟨hs, he, hr⟩ := h.claim ha hstart hp hstep
      obtain ⟨hs', he', hm⟩ := ih hs (he.mem hp)
      refine ⟨hs', he.trans he', fun e hed q hq hcolor => ?_⟩
      rcases List.mem_cons.mp hed with rfl | hed
      · obtain rfl : r = q := Option.some.inj (hstep.symm.trans hq)
        exact he'.mem (hr hcolor)
      · exact hm e hed q hq (he.1.symm ▸ hcolor)

/-- Visiting a pixel of the queue leaves none of its neighbours of the right colour outside. -/
theorem visit (h : f.Sound a start) (ha : a.Sound) (hstart : a.owner? start = none)
    (hp : p ∈ f.block.pixels) :
    (f.visit a.grid a.blocks.size p).Sound a start ∧
      f.Extends (f.visit a.grid a.blocks.size p) ∧
      ∀ d q, p.step d = some q → a.grid.get? q = some f.block.color →
        q ∈ (f.visit a.grid a.blocks.size p).block.pixels := by
  obtain ⟨hs, he, hm⟩ := h.visitAll ha hstart hp Direction.all
  exact ⟨hs, he, fun d => hm d (Direction.mem_all d)⟩

/-- A fill with enough fuel ends with a block that no neighbour of its colour is missing from. -/
theorem spread (h : f.Sound a start) (ha : a.Sound) (hstart : a.owner? start = none)
    {fuel head : ℕ} (hfuel : a.grid.cells.size ≤ head + fuel)
    (hdone : ∀ i < head, ∀ p, f.block.pixels[i]? = some p → ∀ d q, p.step d = some q →
      a.grid.get? q = some f.block.color → q ∈ f.block.pixels) :
    let f' := f.spread a.grid a.blocks.size fuel head
    f'.Sound a start ∧ ∀ p ∈ f'.block.pixels, ∀ d q, p.step d = some q →
      a.grid.get? q = some f'.block.color → q ∈ f'.block.pixels := by
  -- Everything in the queue lies before the head once the head has passed its end.
  have hclosed : ∀ (f : Flood) (head : ℕ), f.block.pixels.size ≤ head →
      (∀ i < head, ∀ p, f.block.pixels[i]? = some p → ∀ d q, p.step d = some q →
        a.grid.get? q = some f.block.color → q ∈ f.block.pixels) →
      ∀ p ∈ f.block.pixels, ∀ d q, p.step d = some q →
        a.grid.get? q = some f.block.color → q ∈ f.block.pixels := by
    intro f head hle hdone p hp
    obtain ⟨i, hi⟩ := Array.mem_iff_getElem?.mp hp
    exact hdone i ((Array.getElem?_eq_some_iff.mp hi).1.trans_le hle) p hi
  induction fuel generalizing f head with
  | zero => exact ⟨h, hclosed f head (h.size_le.trans hfuel) hdone⟩
  | succ fuel ih =>
    rw [Flood.spread]
    cases hhead : f.block.pixels[head]? with
    | none => exact ⟨h, hclosed f head (Array.getElem?_eq_none_iff.mp hhead) hdone⟩
    | some p =>
      obtain ⟨hs, he, hm⟩ := h.visit ha hstart (Array.mem_iff_getElem?.mpr ⟨head, hhead⟩)
      refine ih hs (by omega) fun i hi r hr d q hstep hcolor => ?_
      rw [he.1] at hcolor
      rcases Nat.lt_succ_iff_lt_or_eq.mp hi with hlt | rfl
      · have hlen : i < f.block.pixels.size :=
          hlt.trans (Array.getElem?_eq_some_iff.mp hhead).1
        have hold : f.block.pixels[i]? = some r := by
          have := he.2 i _ (Array.getElem?_eq_getElem hlen)
          rw [Array.getElem?_eq_getElem hlen, ← this, hr]
        exact he.mem (hdone i hlt r hold d q hstep hcolor)
      · obtain rfl : p = r := Option.some.inj ((he.2 i p hhead).symm.trans hr)
        exact hm d q hstep hcolor

end Sound

end Flood

/-! ### Asking an atlas -/

namespace Atlas.Sound

variable {a : Atlas} {p : Pos} {c : Color}

/-- The fill begins with the pixel that was asked for. -/
theorem start (h : a.Sound) (hp : a.grid.get? p = some c) :
    Flood.Sound a p ⟨a.owner.setIfInBounds (a.grid.index p) (some a.blocks.size), .single c p⟩ where
  size_owner := by rw [Array.size_setIfInBounds, h.size_owner]
  nodup := by simp [Block.single]
  first := rfl
  color := hp
  linked q hq := by
    obtain rfl : q = p := by simpa [Block.single] using hq
    exact .refl
  owner q hq := by
    have hin := Grid.inside_of_get? hp
    have hlt : a.grid.index p < a.owner.size := h.size_owner ▸ Grid.index_lt hin
    by_cases hqp : q = p
    · subst hqp
      rw [if_pos (by simp [Block.single]), Array.getElem?_setIfInBounds_self_of_lt hlt]
    · have hne : a.grid.index p ≠ a.grid.index q := fun he =>
        hqp (Grid.index_injOn hq hin he.symm)
      rw [if_neg (by simp [Block.single, hqp]), Array.getElem?_setIfInBounds_ne hne]

/-- Filling from a pixel without an owner finds its whole region and keeps the atlas sound. -/
theorem fill (h : a.Sound) (hp : a.grid.get? p = some c) (hnone : a.owner? p = none) :
    (a.fill c p).1.Sound ∧ (a.fill c p).2.Fills a.grid.get? ∧ p ∈ (a.fill c p).2.pixels := by
  have hfuel : a.grid.cells.size ≤ 0 + a.grid.cells.size := Nat.le_add_left _ _
  obtain ⟨hs, hclosed⟩ :=
    (h.start hp).spread h hnone hfuel fun i hi => absurd hi (Nat.not_lt_zero i)
  set f := Flood.spread a.grid a.blocks.size a.grid.cells.size
    ⟨a.owner.setIfInBounds (a.grid.index p) (some a.blocks.size), .single c p⟩ 0 with hf
  have hfills : f.block.Fills a.grid.get? :=
    ⟨hs.nodup, fun q hq => hs.color_of_mem hq, fun q hq => hs.first ▸ hs.linked q hq, hclosed⟩
  have hfill : a.fill c p = (⟨a.grid, f.owner, a.blocks.push f.block⟩, f.block) := rfl
  have howner : ∀ q, a.grid.Inside q → (a.fill c p).1.owner? q =
      if q ∈ f.block.pixels then some a.blocks.size else a.owner? q := by
    intro q hq
    rw [hfill, owner?, hs.owner q hq, owner?]
    split <;> rfl
  have hnew : ∀ k b, (a.fill c p).1.blocks[k]? = some b →
      a.blocks[k]? = some b ∨ k = a.blocks.size ∧ b = f.block := by
    intro k b hb
    rw [hfill, Array.getElem?_push] at hb
    split at hb
    · next hk => exact .inr ⟨hk, (Option.some.inj hb).symm⟩
    · exact .inl hb
  rw [hfill] at howner hnew ⊢
  refine ⟨⟨hs.size_owner, ?_, ?_, ?_⟩, hfills, hs.first ▸ f.block.first_mem⟩
  · intro q k hq hk
    rw [howner q hq] at hk
    split at hk
    · next hmem =>
      cases hk
      exact ⟨f.block, Array.getElem?_push_size, hmem⟩
    · obtain ⟨b, hb, hmem⟩ := h.owned q k hq hk
      have hlt := (Array.getElem?_eq_some_iff.mp hb).1
      exact ⟨b, by rw [Array.getElem?_push_lt hlt, ← hb, Array.getElem?_eq_getElem hlt], hmem⟩
  · intro k b hb
    rcases hnew k b hb with hb | ⟨-, rfl⟩
    · exact h.fills k b hb
    · exact hfills
  · intro k b hb q hq
    rcases hnew k b hb with hb | ⟨rfl, rfl⟩
    · have hcolor := (h.fills k b hb).color q hq
      have hkq := h.owns k b hb q hq
      rw [howner q (Grid.inside_of_get? hcolor), if_neg, hkq]
      -- A pixel found now would have brought the pixel at the start into the old block.
      intro hmem
      have hpq := ((hfills.mem_iff a.grid.bounded hmem).mp (hs.first ▸ f.block.first_mem))
      have hpb := ((h.fills k b hb).mem_iff a.grid.bounded hq).mpr hpq
      rw [h.owns k b hb p hpb] at hnone
      cases hnone
    · rw [howner q (hs.inside_of_mem hq), if_pos hq]

/-- **Asking for the block of a pixel** answers with its whole region, and the atlas stays
sound. -/
theorem blockAt (h : a.Sound) (hp : a.grid.get? p = some c) :
    ∃ a' b, a.blockAt p = (a', some b) ∧ a'.grid = a.grid ∧ a'.Sound ∧ b.Fills a.grid.get? ∧
      p ∈ b.pixels := by
  cases howner : a.owner? p with
  | some k =>
    obtain ⟨b, hb, hmem⟩ := h.owned p k (Grid.inside_of_get? hp) howner
    refine ⟨a, b, ?_, rfl, h, h.fills k b hb, hmem⟩
    simp only [Atlas.blockAt, hp, howner, hb]
  | none =>
    refine ⟨(a.fill c p).1, (a.fill c p).2, ?_, rfl, h.fill hp howner⟩
    simp only [Atlas.blockAt, hp, howner]

end Atlas.Sound

end Piet
