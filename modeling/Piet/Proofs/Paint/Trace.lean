import Piet.Proofs.Paint.Lay
import Piet.Proofs.Walk.Trail

/-!
# The pen is where the pointer will be

The pen paints against a canvas that is not finished, while the pointer walks over the finished
picture.  `Pen.Traced` is what connects them: behind the pen lies a trail whose blocks are whole
regions of the canvas, and the tip looks ahead from where the trail ends.  It holds at the start and
is kept by every cell that is laid where the pointer goes next, next to the block that it enlarges,
or as a wall (`Pen.Traced.paint`).  A later cell cannot change an earlier block, because it may not
touch a cell of its own shade outside the current one.

`Pen.cosimulation` draws the conclusion for scripts of calls, whichever of them fail: a walk over
the finished picture is never blocked until its machine is the shadow of the pen.
-/

namespace Piet

namespace Pen

variable {pen pen' : Pen} {input : Array UInt8} {past : List Block} {n : ℕ} {b : Block}
  {ink : Ink} {i : Instruction} {p q : Pos} {d : Direction}

/-! ### What the pen leaves behind -/

/-- The pen is in a coloured block, which a trail over the blocks `past` enters with its step
number `n`. -/
structure AtBlock (pen : Pen) (input : Array UInt8) (past : List Block) (n : ℕ) : Prop where
  color : pen.block.color = .shade pen.shade
  trail : Trail pen.canvas.get? input past n pen.shadow pen.block
  whole : ∀ a ∈ pen.block :: past, a.Fills pen.canvas.get? ∧ a.Near
  apart : ∀ a ∈ past, ∀ q ∈ a.pixels, q ∉ pen.block.pixels
  tip : pen.tip = pen.block.exit pen.shadow.dp pen.shadow.cc

/-- The pen is in white, on a stretch that begins at `p`, ahead of the exit of the coloured block
`b`. -/
structure AtWhite (pen : Pen) (input : Array UInt8) (past : List Block) (n : ℕ) (b : Block)
    (p : Pos) : Prop where
  color : b.color = .shade pen.shade
  trail : Trail pen.canvas.get? input past n pen.shadow b
  whole : ∀ a ∈ b :: past, a.Fills pen.canvas.get? ∧ a.Near
  step : (b.exit pen.shadow.dp pen.shadow.cc).step pen.shadow.dp = some p
  stretch : pen.block.Stretch pen.shadow.dp p
  white : ∀ q ∈ pen.block.pixels, pen.canvas.get? q = some .white
  tip : pen.tip = pen.block.final

/-- The pointer will be at the tip of the pen after `n` steps. -/
inductive Traced (input : Array UInt8) : ℕ → Pen → Prop
  | block {pen : Pen} {past : List Block} {n : ℕ} (h : pen.AtBlock input past n) :
      Traced input n pen
  | white {pen : Pen} {past : List Block} {n : ℕ} {b : Block} {p : Pos}
      (h : pen.AtWhite input past n b p) : Traced input (n + 1) pen

/-- How many steps of the pointer a cell adds: one for each block or stretch of white that it
begins. -/
def paces (pen : Pen) : Ink → ℕ
  | .white => if pen.OnWhite then 0 else 1
  | .black => 0
  | .op i => if pen.Starts i then 1 else 0

/-- The pointer does not lose its way if a cell is painted there: it is what the pointer enters
next, or next to the block that it enlarges, or a wall. -/
def Suits (pen : Pen) (ink : Ink) (p : Pos) : Prop :=
  match ink with
  | .white => pen.tip.step pen.shadow.dp = some p
  | .black => True
  | .op i =>
    if pen.Starts i then pen.tip.step pen.shadow.dp = some p
    else ∃ q ∈ pen.block.pixels, ∃ d, q.step d = some p

theorem AtBlock.not_onWhite (h : pen.AtBlock input past n) : ¬ pen.OnWhite := by
  rw [OnWhite, h.color]
  exact Color.shade_ne_white _

theorem AtWhite.onWhite (h : pen.AtWhite input past n b p) : pen.OnWhite :=
  h.stretch.color_eq

/-! ### Earlier blocks stay whole -/

/-- Whole regions stay whole when a cell is laid that touches none of them in its own colour. -/
theorem whole_lay {blocks : List Block} (hfree : pen.Free ink p)
    (hwhole : ∀ a ∈ blocks, a.Fills pen.canvas.get? ∧ a.Near)
    (hfar : ∀ a ∈ blocks, pen.colorOf ink = a.color → ∀ q ∈ a.pixels, ∀ d, q.step d ≠ some p) :
    ∀ a ∈ blocks, a.Fills (pen.lay ink p).canvas.get? ∧ a.Near := by
  intro a ha
  obtain ⟨hfills, hnear⟩ := hwhole a ha
  exact ⟨hfills.paint (painted_lay hfree) (hfar a ha), hnear⟩

/-- Black and white are not the colour of any block of a trail. -/
theorem whole_lay_plain {m : Machine} (hfree : pen.Free ink p)
    (htrail : Trail pen.canvas.get? input past n m b)
    (hwhole : ∀ a ∈ b :: past, a.Fills pen.canvas.get? ∧ a.Near)
    (hplain : ∀ t, pen.colorOf ink ≠ .shade t) :
    ∀ a ∈ b :: past, a.Fills (pen.lay ink p).canvas.get? ∧ a.Near := by
  refine whole_lay hfree hwhole fun a ha heq => ?_
  obtain ⟨t, ht⟩ := htrail.shades a ha
  exact absurd (heq.trans ht) (hplain t)

/-- A cell that begins a block touches no block of its colour. -/
theorem whole_lay_starts {blocks : List Block} (hfree : pen.Free (.op i) p) (hs : pen.Starts i)
    (hwhole : ∀ a ∈ blocks, a.Fills pen.canvas.get? ∧ a.Near) :
    ∀ a ∈ blocks, a.Fills (pen.lay (.op i) p).canvas.get? ∧ a.Near := by
  refine whole_lay hfree hwhole fun a ha heq q hq d hstep => ?_
  have hlook := (hwhole a ha).1.color q hq
  exact (hfree.grows_back hstep (heq ▸ hlook)).1 hs

/-- White that has been painted stays white. -/
theorem white_lay (hfree : pen.Free ink p) (hq : pen.canvas.get? q = some .white) :
    (pen.lay ink p).canvas.get? q = some .white :=
  (painted_lay hfree).keep hq

/-! ### Walls -/

theorem AtBlock.wall (h : pen.AtBlock input past n) (hfree : pen.Free .black p) :
    (pen.lay .black p).AtBlock input past n where
  color := h.color
  trail := h.trail.mono fun _ => white_lay hfree
  whole := whole_lay_plain hfree h.trail h.whole (by rintro _ ⟨⟩)
  apart := h.apart
  tip := h.tip

theorem AtWhite.wall (h : pen.AtWhite input past n b q) (hfree : pen.Free .black p) :
    (pen.lay .black p).AtWhite input past n b q where
  color := h.color
  trail := h.trail.mono fun _ => white_lay hfree
  whole := whole_lay_plain hfree h.trail h.whole (by rintro _ ⟨⟩)
  step := h.step
  stretch := h.stretch
  white r hr := white_lay hfree (h.white r hr)
  tip := h.tip

/-! ### White cells -/

theorem AtBlock.slide (h : pen.AtBlock input past n) (hfree : pen.Free .white p)
    (hstep : pen.tip.step pen.shadow.dp = some p) :
    (pen.lay .white p).AtWhite input past n pen.block p := by
  have hlay : pen.lay .white p =
      { pen with canvas := pen.canvas.set p .white, block := .single .white p, tip := p } := by
    simp only [lay, if_neg h.not_onWhite]
  have hwhole := whole_lay_plain hfree h.trail h.whole (by rintro _ ⟨⟩)
  have htrail := h.trail.mono fun _ => white_lay hfree
  have hafter : (pen.lay .white p).canvas.get? p = some .white := (painted_lay hfree).after
  rw [hlay] at hwhole htrail hafter ⊢
  refine ⟨h.color, htrail, hwhole, h.tip ▸ hstep, .single, fun q hq => ?_, rfl⟩
  obtain rfl : q = p := by simpa [Block.single] using hq
  exact hafter

theorem AtWhite.slide (h : pen.AtWhite input past n b q) (hfree : pen.Free .white p)
    (hstep : pen.tip.step pen.shadow.dp = some p) :
    (pen.lay .white p).AtWhite input past n b q := by
  have hlay : pen.lay .white p =
      { pen with canvas := pen.canvas.set p .white, block := pen.block.push p, tip := p } := by
    simp only [lay, if_pos h.onWhite]
  have hwhole := whole_lay_plain hfree h.trail h.whole (by rintro _ ⟨⟩)
  have htrail := h.trail.mono fun _ => white_lay hfree
  have hafter : (pen.lay .white p).canvas.get? p = some .white := (painted_lay hfree).after
  have hkeep : ∀ r ∈ pen.block.pixels, (pen.lay .white p).canvas.get? r = some .white :=
    fun r hr => white_lay hfree (h.white r hr)
  rw [hlay] at hwhole htrail hafter hkeep ⊢
  refine ⟨h.color, htrail, hwhole, h.step, h.stretch.push (h.tip ▸ hstep), fun r hr => ?_,
    (Block.final_push _ _).symm⟩
  rcases Block.mem_pixels_push.mp hr with hr | rfl
  · exact hkeep r hr
  · exact hafter

/-! ### Coloured cells -/

/-- A cell that begins a block is a whole region of its own, away from all earlier blocks. -/
theorem single_lay_starts {blocks : List Block} (hfree : pen.Free (.op i) p) (hs : pen.Starts i)
    (hwhole : ∀ a ∈ blocks, a.Fills pen.canvas.get? ∧ a.Near) :
    (∀ a ∈ Block.single (pen.colorOf (.op i)) p :: blocks,
      a.Fills (pen.lay (.op i) p).canvas.get? ∧ a.Near) ∧
      ∀ a ∈ blocks, ∀ q ∈ a.pixels, q ∉ (Block.single (pen.colorOf (.op i)) p).pixels := by
  have hmem : ∀ q, q ∈ (Block.single (pen.colorOf (.op i)) p).pixels → q = p := fun q hq => by
    simpa [Block.single] using hq
  refine ⟨List.forall_mem_cons.mpr ⟨⟨?_, fun q hq => ?_⟩, whole_lay_starts hfree hs hwhole⟩,
    fun a ha q hq hqs => ?_⟩
  · exact Block.fills_single (painted_lay hfree) fun d r hstep hr => (hfree.grows hstep hr).1 hs
  · exact hmem q hq ▸ hfree.paintable.near
  · have hlook := (hwhole a ha).1.color q hq
    rw [hmem q hqs, hfree.blank] at hlook
    cases hlook

theorem AtBlock.begins (h : pen.AtBlock input past n) (hfree : pen.Free (.op i) p)
    (hs : pen.Starts i) (hstep : pen.tip.step pen.shadow.dp = some p) :
    (pen.lay (.op i) p).AtBlock input (pen.block :: past) (n + 1) := by
  have hblock := block_lay_op hs p
  have hmachine : pen.leave i = (pen.shadow.execute i pen.block.size).1 := if_neg h.not_onWhite
  obtain ⟨hwhole, hapart⟩ := single_lay_starts hfree hs h.whole
  have htrail : Trail (pen.lay (.op i) p).canvas.get? input (pen.block :: past) (n + 1)
      (pen.shadow.execute i pen.block.size).1 (.single (pen.colorOf (.op i)) p) := by
    have hi : pen.block.color.instructionTo (pen.colorOf (.op i)) = i := by
      rw [h.color, colorOf, Color.instructionTo_shift]
    have hshade : (Block.single (pen.colorOf (.op i)) p).color =
        .shade (pen.shade.shift i.change) := rfl
    have hcross := (h.trail.mono fun _ => white_lay hfree).cross (h.tip ▸ hstep)
      (Array.mem_singleton.mpr rfl) hshade
    rwa [Block.color_single, hi] at hcross
  refine ⟨?_, ?_, ?_, ?_, ?_⟩
  · rw [hblock, shade_lay_op]
    rfl
  · rwa [hblock, shadow_lay_op, hmachine]
  · rwa [hblock]
  · rwa [hblock]
  · rw [hblock, Block.exit_single, tip_lay_op hs]

theorem AtWhite.begins (h : pen.AtWhite input past n b q) (hfree : pen.Free (.op i) p)
    (hstep : pen.tip.step pen.shadow.dp = some p) :
    (pen.lay (.op i) p).AtBlock input (b :: past) (n + 2) := by
  have hs : pen.Starts i := .inl h.onWhite
  have hblock := block_lay_op hs p
  have hmachine : pen.leave i = pen.shadow := if_pos h.onWhite
  obtain ⟨hwhole, hapart⟩ := single_lay_starts hfree hs h.whole
  have htrail : Trail (pen.lay (.op i) p).canvas.get? input (b :: past) (n + 2) pen.shadow
      (.single (pen.colorOf (.op i)) p) :=
    (h.trail.mono fun _ => white_lay hfree).slide h.step h.stretch
      (fun r hr => white_lay hfree (h.white r hr)) (h.tip ▸ hstep) (Array.mem_singleton.mpr rfl) rfl
  refine ⟨?_, ?_, ?_, ?_, ?_⟩
  · rw [hblock, shade_lay_op]
    rfl
  · rwa [hblock, shadow_lay_op, hmachine]
  · rwa [hblock]
  · rwa [hblock]
  · rw [hblock, Block.exit_single, tip_lay_op hs]

/-- A block can be enlarged anywhere along its edge. -/
theorem AtBlock.grow (h : pen.AtBlock input past n) (hfree : pen.Free (.op .noop) p)
    (hq : q ∈ pen.block.pixels) (hstep : q.step d = some p) :
    (pen.lay (.op .noop) p).AtBlock input past n := by
  have hcolor : pen.colorOf (.op .noop) = pen.block.color := by
    rw [h.color, colorOf, Shade.shift_noop]
  obtain ⟨⟨hfills, hnear⟩, hpast⟩ := List.forall_mem_cons.mp h.whole
  have hpaint : Painted pen.canvas.get? (pen.lay (.op .noop) p).canvas.get? p pen.block.color :=
    hcolor ▸ painted_lay hfree
  have hfills' : (pen.block.push p).Fills (pen.lay (.op .noop) p).canvas.get? :=
    hfills.push hpaint hq hstep fun e r hr hlook => (hfree.grows hr (hcolor ▸ hlook)).2
  have hnear' : (pen.block.push p).Near := fun r hr => by
    rcases Block.mem_pixels_push.mp hr with hr | rfl
    · exact hnear r hr
    · exact hfree.paintable.near
  -- An earlier block of this colour would be touched at a pixel of the current one.
  have hpast' : ∀ a ∈ past, a.Fills (pen.lay (.op .noop) p).canvas.get? ∧ a.Near := by
    refine whole_lay hfree hpast fun a ha heq r hr e hre => ?_
    have hlook := (hpast a ha).1.color r hr
    exact h.apart a ha r hr (hfree.grows_back hre (heq ▸ hlook)).2
  have hapart' : ∀ a ∈ past, ∀ r ∈ a.pixels, r ∉ (pen.block.push p).pixels := by
    intro a ha r hr hmem
    rcases Block.mem_pixels_push.mp hmem with hmem | rfl
    · exact h.apart a ha r hr hmem
    · have hlook := (hpast a ha).1.color r hr
      rw [hfree.blank] at hlook
      cases hlook
  have hsub : ∀ r ∈ pen.block.pixels, r ∈ (pen.block.push p).pixels := fun r hr =>
    Block.mem_pixels_push.mpr (.inl hr)
  have htrail := (h.trail.mono fun _ => white_lay hfree).grow hsub rfl
  rw [lay_noop h.not_onWhite] at hfills' hpast' htrail ⊢
  exact ⟨h.color, htrail, List.forall_mem_cons.mpr ⟨⟨hfills', hnear'⟩, hpast'⟩, hapart', by
    rw [Block.exit_push, ← h.tip]⟩

/-! ### One cell -/

namespace Traced

theorem start (input : Array UInt8) : Traced input 0 (.start input) := by
  have hpaint : Painted Canvas.empty.get?
      (Canvas.empty.set .origin (.shade (.ofInts 0 0))).get? .origin (.shade (.ofInts 0 0)) :=
    Canvas.painted_set (by decide) (Canvas.get?_empty _) _
  have hmem : ∀ q, q ∈ (Block.single (.shade (.ofInts 0 0)) .origin).pixels → q = .origin :=
    fun q hq => by simpa [Block.single] using hq
  have hfills := Block.fills_single hpaint fun d q _ => by
    rw [Canvas.get?_empty]
    exact (Option.some_ne_none _).symm
  have hblock : (Pen.start input).AtBlock input [] 0 := by
    refine ⟨rfl, .start (Array.mem_singleton.mpr rfl) rfl, ?_,
      fun a ha => absurd ha List.not_mem_nil, (Block.exit_single _ _ _ _).symm⟩
    rw [List.forall_mem_singleton]
    exact ⟨hfills, fun q hq => hmem q hq ▸ ⟨by decide, by decide⟩⟩
  exact .block hblock

theorem tip_mem (h : Traced input n pen) : pen.tip ∈ pen.block.pixels := by
  cases h with
  | block h => exact h.tip ▸ Block.exit_mem _ _ _
  | white h => exact h.tip ▸ Block.final_mem _

theorem atBlock (h : Traced input n pen) (hw : ¬ pen.OnWhite) :
    ∃ past, pen.AtBlock input past n := by
  cases h with
  | block h => exact ⟨_, h⟩
  | white h => exact absurd h.onWhite hw

/-- What the pointer enters next can be painted in any ink. -/
theorem suits_front (h : Traced input n pen) (hstep : pen.tip.step pen.shadow.dp = some p)
    (ink : Ink) : pen.Suits ink p := by
  cases ink with
  | white => exact hstep
  | black => exact trivial
  | op i =>
    by_cases hs : pen.Starts i
    · exact (if_pos hs).mpr hstep
    · exact (if_neg hs).mpr ⟨pen.tip, h.tip_mem, _, hstep⟩

/-- **Every cell keeps the pen on the trail of the pointer.** -/
theorem paint (h : Traced input n pen) (hsuits : pen.Suits ink p) (hfree : pen.Free ink p) :
    Traced input (n + pen.paces ink) (pen.lay ink p) := by
  cases h with
  | block h =>
    have hw := h.not_onWhite
    cases ink with
    | white =>
      rw [paces, if_neg hw]
      exact .white (h.slide hfree hsuits)
    | black => exact .block (h.wall hfree)
    | op i =>
      by_cases hs : pen.Starts i
      · rw [paces, if_pos hs]
        exact .block (h.begins hfree hs ((if_pos hs).mp hsuits))
      · obtain ⟨q, hq, d, hstep⟩ := (if_neg hs).mp hsuits
        obtain ⟨rfl, -⟩ := eq_noop_of_not_starts hs
        rw [paces, if_neg hs]
        exact .block (h.grow hfree hq hstep)
  | white h =>
    have hw := h.onWhite
    cases ink with
    | white =>
      rw [paces, if_pos hw]
      exact .white (h.slide hfree hsuits)
    | black => exact .white (h.wall hfree)
    | op i =>
      have hs : pen.Starts i := .inl hw
      rw [paces, if_pos hs]
      exact .block (h.begins hfree ((if_pos hs).mp hsuits))

end Traced

/-! ### Scripts -/

/-- A call that drives a pen. -/
inductive Call where
  /-- So many cells, each where the pointer goes next. -/
  | stroke (ink : Ink) (count : ℕ)
  /-- A cell beside the tip that enlarges the current block. -/
  | grow (b : Bearing)
  /-- A black cell anywhere. -/
  | wall (p : Pos)
deriving DecidableEq

/-- Carries out a call, which may fail. -/
def call (pen : Pen) : Call → Pen × Option Error
  | .stroke ink count => pen.stroke ink count
  | .grow b => pen.paintAt (.op .noop) b
  | .wall p => pen.paint .black p

/-- Carries out calls one after another, whether they fail or not. -/
def calls (pen : Pen) : List Call → Pen
  | [] => pen
  | c :: script => (pen.call c).1.calls script

/-- A block can be enlarged at an edge of the tip, but not while the pen is on white. -/
def Permits (pen : Pen) : Call → Prop
  | .grow b => ¬ b.IsDiagonal ∧ ¬ pen.OnWhite
  | _ => True

instance (pen : Pen) (c : Call) : Decidable (pen.Permits c) := by
  cases c <;> unfold Permits <;> infer_instance

/-- Each call of a script is permitted when its turn comes. -/
def PermitsAll (pen : Pen) : List Call → Prop
  | [] => True
  | c :: script => pen.Permits c ∧ (pen.call c).1.PermitsAll script

instance decidablePermitsAll (pen : Pen) : (script : List Call) → Decidable (pen.PermitsAll script)
  | [] => isTrue trivial
  | c :: script =>
    have := decidablePermitsAll (pen.call c).1 script
    inferInstanceAs (Decidable (_ ∧ _))

namespace Traced

theorem advance (h : Traced input n pen) (ink : Ink) :
    ∃ n', Traced input n' (pen.advance ink).1 := by
  rw [Pen.advance]
  split
  · next p hstep =>
    rcases pen.paint_cases ink p with ⟨hfree, hpaint⟩ | ⟨e, hpaint⟩
    · rw [hpaint]
      exact ⟨_, h.paint (h.suits_front hstep ink) hfree⟩
    · rw [hpaint]
      exact ⟨n, h⟩
  · exact ⟨n, h⟩

theorem stroke (h : Traced input n pen) (ink : Ink) (count : ℕ) :
    ∃ n', Traced input n' (pen.stroke ink count).1 := by
  induction count generalizing pen ink n with
  | zero => exact ⟨n, h⟩
  | succ count ih =>
    obtain ⟨n', h'⟩ := h.advance ink
    rw [Pen.stroke]
    split
    · next hadvance =>
      rw [hadvance] at h'
      exact ih h' ink.continued
    · next hadvance =>
      rw [hadvance] at h'
      exact ⟨n', h'⟩

theorem call (h : Traced input n pen) {c : Call} (hpermits : pen.Permits c) :
    ∃ n', Traced input n' (pen.call c).1 := by
  cases c with
  | stroke ink count => exact h.stroke ink count
  | grow b =>
    obtain ⟨hdiagonal, hw⟩ := hpermits
    have hs : ¬ pen.Starts .noop := fun hs => hs.elim hw fun hne => hne rfl
    have hplace : b.place? pen.tip pen.shadow.dp = pen.tip.step (pen.shadow.dp.rotate b.turns) :=
      if_neg hdiagonal
    simp only [Pen.call, paintAt, hplace]
    split
    · next p hstep =>
      rcases pen.paint_cases (.op .noop) p with ⟨hfree, hpaint⟩ | ⟨e, hpaint⟩
      · rw [hpaint]
        have hsuits : pen.Suits (.op .noop) p := (if_neg hs).mpr ⟨pen.tip, h.tip_mem, _, hstep⟩
        exact ⟨_, h.paint hsuits hfree⟩
      · rw [hpaint]
        exact ⟨n, h⟩
    · exact ⟨n, h⟩
  | wall p =>
    simp only [Pen.call]
    rcases pen.paint_cases .black p with ⟨hfree, hpaint⟩ | ⟨e, hpaint⟩
    · rw [hpaint]
      have hsuits : pen.Suits .black p := trivial
      exact ⟨_, h.paint hsuits hfree⟩
    · rw [hpaint]
      exact ⟨n, h⟩

theorem calls (h : Traced input n pen) {script : List Call} (hpermits : pen.PermitsAll script) :
    ∃ n', Traced input n' (pen.calls script) := by
  induction script generalizing pen n with
  | nil => exact ⟨n, h⟩
  | cons c script ih =>
    obtain ⟨n', h'⟩ := h.call hpermits.1
    exact ih h' hpermits.2

end Traced

/-! ### The finished picture -/

/-- Whole regions of the canvas are whole regions of the finished picture. -/
theorem whole_toGrid {m : Machine} (htrail : Trail pen.canvas.get? input past n m b)
    (hwhole : ∀ a ∈ b :: past, a.Fills pen.canvas.get? ∧ a.Near) :
    ∀ a ∈ b :: past, a.Fills pen.canvas.toGrid.get? ∧ a.Near := by
  intro a ha
  obtain ⟨t, ht⟩ := htrail.shades a ha
  obtain ⟨hfills, hnear⟩ := hwhole a ha
  exact ⟨Canvas.fills_toGrid hfills (ht ▸ Color.shade_ne_black t), hnear⟩

theorem white_toGrid (hp : pen.canvas.get? p = some .white) :
    pen.canvas.toGrid.get? p = some .white := by
  exact (Canvas.get?_toGrid_eq_some_iff Color.white_ne_black).mpr hp

/-- A walk over the finished picture follows the pen into its block. -/
theorem AtBlock.strides (h : pen.AtBlock input past n) {limit : ℕ} (hn : n ≤ limit) :
    Walk.Strides pen.canvas.toGrid input limit n fun w =>
      w.InBlock pen.canvas.toGrid pen.shadow pen.block :=
  h.trail.follow (whole_toGrid h.trail h.whole) (fun _ => white_toGrid) hn

/-- A walk over the finished picture follows the pen onto white. -/
theorem AtWhite.strides (h : pen.AtWhite input past n b p) {limit : ℕ} (hn : n + 1 ≤ limit) :
    Walk.Strides pen.canvas.toGrid input limit (n + 1) fun w => w.machine = pen.shadow := by
  have hbefore := h.trail.follow (whole_toGrid h.trail h.whole) (fun _ => white_toGrid)
    (Nat.le_of_succ_le hn)
  refine hbefore.step fun w hsteps hlimit hin => ?_
  have hp := white_toGrid (h.white p h.stretch.mem_first)
  obtain ⟨w', s, hstep, hs, hwhite⟩ := Walk.step_into_white hin.toStanding h.trail.unbounded
    (by omega) (hin.position ▸ h.step) hp
  exact ⟨w', s, hstep, hs, hwhite.machine⟩

/-- **The pen is always where the pointer will be.**  For every script of permitted calls, whether
they fail or not, there is a number of steps that a walk over the finished picture, given the same
input, takes without being blocked, after which its machine is the shadow of the pen.  If the pen is
not on white, the walk is then at its tip, in a block with exactly the pixels of its block. -/
theorem cosimulation (input : Array UInt8) (script : List Call)
    (hpermits : (start input).PermitsAll script) :
    let pen := (start input).calls script
    ∃ n, ∀ limit, n ≤ limit → Walk.Strides pen.canvas.toGrid input limit n fun w =>
      w.machine = pen.shadow ∧
        (¬ pen.OnWhite → w.position = pen.tip ∧
          ∀ q, q ∈ w.current.pixels ↔ q ∈ pen.block.pixels) := by
  intro pen
  obtain ⟨n, h⟩ : ∃ n, Traced input n pen := (Traced.start input).calls hpermits
  refine ⟨n, fun limit hlimit => ?_⟩
  cases h with
  | block h =>
    obtain ⟨w₀, l, w, hstart, htakes, hlen, hfree, hsteps, hlim, hin⟩ := h.strides hlimit
    refine ⟨w₀, l, w, hstart, htakes, hlen, hfree, hsteps, hlim, hin.machine, fun _ => ?_⟩
    exact ⟨hin.position.trans h.tip.symm, hin.mem⟩
  | white h =>
    obtain ⟨w₀, l, w, hstart, htakes, hlen, hfree, hsteps, hlim, hmachine⟩ := h.strides hlimit
    exact ⟨w₀, l, w, hstart, htakes, hlen, hfree, hsteps, hlim, hmachine,
      fun hw => absurd h.onWhite hw⟩

/-- A script that enlarges a block, turns downward, and fails at its last cell, which is a wall. -/
def turningScript : List Call :=
  [.stroke .white 2, .stroke (.op .noop) 4, .grow .right, .stroke (.op .push) 2,
    .stroke (.op .pointer) 1, .wall ⟨3, 9⟩, .stroke (.op .pop) 3]

theorem cosimulation_turning :
    (start #[7]).PermitsAll turningScript ∧
      let pen := (start #[7]).calls turningScript
      ∃ n, ∀ limit, n ≤ limit → Walk.Strides pen.canvas.toGrid #[7] limit n fun w =>
        w.machine = pen.shadow ∧
          (¬ pen.OnWhite → w.position = pen.tip ∧
            ∀ q, q ∈ w.current.pixels ↔ q ∈ pen.block.pixels) := by
  have hpermits : (start #[7]).PermitsAll turningScript := by decide +kernel
  exact ⟨hpermits, cosimulation #[7] turningScript hpermits⟩

end Pen

end Piet
