import Piet.Paint.Compose
import Piet.Proofs.Paint.Trace

/-!
# The picture does not depend on the input

Two pens are alike if they have painted the same and their machines are related.  What a pen paints
depends on its machine through the heading only, so whatever relation of machines determines the
heading and is kept by the instructions painted, pens that are alike stay alike, and fail alike
(`Pen.Alike.strokes`, `Pen.Alike.close`).

Two relations are used: machines with the same heading, which instructions that do not steer keep
(`Machine.keeps_sameHeading`), and machines that also have the same stack, which the instructions of
a turn keep (`Machine.keeps_sameWork`).
-/

namespace Piet

/-! ### Relations of machines -/

namespace Machine

/-- Two machines with the same direction and the same chooser. -/
def SameHeading (m m' : Machine) : Prop :=
  m.dp = m'.dp ∧ m.cc = m'.cc

/-- Two machines that differ in their input and output at most. -/
def SameWork (m m' : Machine) : Prop :=
  m.stack = m'.stack ∧ SameHeading m m'

/-- A relation of machines determines their heading. -/
def Guides (R : Machine → Machine → Prop) : Prop :=
  ∀ m m', R m m' → SameHeading m m'

/-- An instruction keeps a relation of machines, whatever block is left by it. -/
def Keeps (R : Machine → Machine → Prop) (i : Instruction) : Prop :=
  ∀ m m' size, R m m' → R (m.execute i size).1 (m'.execute i size).1

variable {R : Machine → Machine → Prop} {i : Instruction}

theorem guides_sameHeading : Guides SameHeading :=
  fun _ _ h => h

theorem guides_sameWork : Guides SameWork :=
  fun _ _ h => h.2

theorem keeps_noop (R : Machine → Machine → Prop) : Keeps R .noop :=
  fun _ _ _ h => h

theorem keeps_sameHeading (hi : ¬ Steers i) : Keeps SameHeading i := by
  rintro m m' size ⟨hdp, hcc⟩
  obtain ⟨hdp₁, hcc₁⟩ : (m.execute i size).1.dp = m.dp ∧ (m.execute i size).1.cc = m.cc :=
    execute_heading hi
  obtain ⟨hdp₂, hcc₂⟩ : (m'.execute i size).1.dp = m'.dp ∧ (m'.execute i size).1.cc = m'.cc :=
    execute_heading hi
  exact ⟨by rw [hdp₁, hdp₂, hdp], by rw [hcc₁, hcc₂, hcc]⟩

/-- The instructions of a turn depend on the stack and the heading only. -/
theorem keeps_sameWork (hi : i ∈ [Instruction.noop, .push, .duplicate, .pointer]) :
    Keeps SameWork i := by
  rintro ⟨stack, dp, cc, input, output⟩ ⟨stack', dp', cc', input', output'⟩ size
    ⟨hstack, hdp, hcc⟩
  obtain rfl : stack = stack' := hstack
  obtain rfl : dp = dp' := hdp
  obtain rfl : cc = cc' := hcc
  simp only [List.mem_cons, List.not_mem_nil, or_false] at hi
  obtain ⟨_ | ⟨a, below⟩⟩ := stack
  · rcases hi with rfl | rfl | rfl | rfl <;> exact ⟨rfl, rfl, rfl⟩
  · rcases hi with rfl | rfl | rfl | rfl <;> exact ⟨rfl, rfl, rfl⟩

end Machine

namespace Pen

open Machine (Guides Keeps keeps_noop)

variable {R : Machine → Machine → Prop} {pen pen' : Pen} {ink : Ink} {i : Instruction} {p : Pos}

/-- The pens have painted the same, and their machines are related. -/
structure Alike (R : Machine → Machine → Prop) (pen pen' : Pen) : Prop where
  canvas : pen.canvas = pen'.canvas
  shade : pen.shade = pen'.shade
  block : pen.block = pen'.block
  tip : pen.tip = pen'.tip
  shadow : R pen.shadow pen'.shadow

/-- Two attempts have ended in the same way, with pens that are alike. -/
def AlikeAfter (R : Machine → Machine → Prop) (r r' : Pen × Option Error) : Prop :=
  r.2 = r'.2 ∧ Alike R r.1 r'.1

/-- Goes on after an attempt, unless that has failed. -/
def goOn (r : Pen × Option Error) (f : Pen → Pen × Option Error) : Pen × Option Error :=
  match r with
  | (pen, none) => f pen
  | (pen, some e) => (pen, some e)

/-- An attempt that goes on to a success has been one itself. -/
theorem goOn_eq_none {r : Pen × Option Error} {f : Pen → Pen × Option Error} {pen' : Pen}
    (h : goOn r f = (pen', none)) : ∃ pen, r = (pen, none) ∧ f pen = (pen', none) := by
  obtain ⟨pen, _ | e⟩ := r
  · exact ⟨pen, rfl, h⟩
  · cases h

theorem goOn_assoc (r : Pen × Option Error) (f g : Pen → Pen × Option Error) :
    goOn (goOn r f) g = goOn r fun pen => goOn (f pen) g := by
  obtain ⟨pen, _ | e⟩ := r <;> rfl

/-- Attempts that were alike go on alike. -/
theorem AlikeAfter.goOn {r r' : Pen × Option Error} (h : AlikeAfter R r r')
    {f f' : Pen → Pen × Option Error}
    (hf : ∀ pen pen', Alike R pen pen' → AlikeAfter R (f pen) (f' pen')) :
    AlikeAfter R (goOn r f) (goOn r' f') := by
  obtain ⟨pen, e⟩ := r
  obtain ⟨pen', e'⟩ := r'
  obtain ⟨he, halike⟩ := h
  obtain rfl : e = e' := he
  cases e with
  | none => exact hf _ _ halike
  | some e => exact ⟨rfl, halike⟩

theorem stroke_eq_goOn (pen : Pen) (ink : Ink) (count : ℕ) :
    pen.stroke ink (count + 1) =
      goOn (pen.advance ink) fun pen => pen.stroke ink.continued count := rfl

theorem strokes_eq_goOn (pen : Pen) (s : Stroke) (l : List Stroke) :
    pen.strokes (s :: l) = goOn (pen.stroke s.ink s.count) fun pen => pen.strokes l := rfl

theorem paintAll_eq_goOn (pen : Pen) (ink : Ink) (p : Pos) (ps : List Pos) :
    pen.paintAll ink (p :: ps) = goOn (pen.paint ink p) fun pen => pen.paintAll ink ps := rfl

theorem paintWalls_eq_goOn (pen : Pen) (p : Pos) (ps : List Pos) :
    pen.paintWalls (p :: ps) =
      if (pen.canvas.get? p).isSome then pen.paintWalls ps
      else goOn (pen.paint .black p) fun pen => pen.paintWalls ps := rfl

theorem close_eq_goOn (pen : Pen) (b : Bearing) :
    pen.close b = goOn (pen.advance .white) fun pen₁ =>
      match DeadEnd.behind? pen₁.tip pen.shadow.dp (pen.shadow.dp.rotate b.turns) with
      | none => (pen₁, some .offCanvas)
      | some deadEnd =>
        match deadEnd.walls.find? fun p => pen₁.Occupied p with
        | some p => (pen₁, some (.overlap p))
        | none =>
          goOn (pen₁.paintAll (.op .noop) deadEnd.cells) fun pen =>
            pen.paintWalls deadEnd.walls := by
  rw [Pen.close]
  rcases pen.advance .white with ⟨pen₁, _ | e⟩
  · rfl
  · rfl

/-- What has been painted if a program has been closed. -/
theorem close_eq_iff {b : Bearing} :
    pen.close b = (pen', none) ↔ ∃ pen₁ deadEnd pen₂, pen.advance .white = (pen₁, none) ∧
      DeadEnd.behind? pen₁.tip pen.shadow.dp (pen.shadow.dp.rotate b.turns) = some deadEnd ∧
      (∀ w ∈ deadEnd.walls, ¬ pen₁.Occupied w) ∧
      pen₁.paintAll (.op .noop) deadEnd.cells = (pen₂, none) ∧
      pen₂.paintWalls deadEnd.walls = (pen', none) := by
  constructor
  · intro h
    rw [close_eq_goOn] at h
    obtain ⟨pen₁, hadvance, h⟩ := goOn_eq_none h
    split at h
    · cases h
    · next deadEnd hbehind =>
      split at h
      · cases h
      · next hclear =>
        obtain ⟨pen₂, hcells, hwalls⟩ := goOn_eq_none h
        rw [List.find?_eq_none] at hclear
        exact ⟨pen₁, deadEnd, pen₂, hadvance, hbehind, by simpa using hclear, hcells, hwalls⟩
  · rintro ⟨pen₁, deadEnd, pen₂, hadvance, hbehind, hclear, hcells, hwalls⟩
    have hfind : deadEnd.walls.find? (fun p => pen₁.Occupied p) = none :=
      List.find?_eq_none.mpr (by simpa using hclear)
    simp only [close, hadvance, hbehind, hfind, hcells, hwalls]

namespace Alike

theorem mono {S : Machine → Machine → Prop} (h : Alike R pen pen')
    (hS : S pen.shadow pen'.shadow) : Alike S pen pen' :=
  ⟨h.canvas, h.shade, h.block, h.tip, hS⟩

theorem obstacle? (h : Alike R pen pen') (ink : Ink) (p : Pos) :
    pen.obstacle? ink p = pen'.obstacle? ink p := by
  obtain ⟨canvas, shade, block, tip, m, notices⟩ := pen
  obtain ⟨canvas', shade', block', tip', m', notices'⟩ := pen'
  obtain ⟨rfl, rfl, rfl, rfl, -⟩ := h
  rfl

theorem onWhite_iff (h : Alike R pen pen') : pen.OnWhite ↔ pen'.OnWhite := by
  rw [OnWhite, OnWhite, h.block]

theorem starts_iff (h : Alike R pen pen') (i : Instruction) : pen.Starts i ↔ pen'.Starts i := by
  rw [Starts, Starts, h.onWhite_iff]

theorem leave (h : Alike R pen pen') (hi : Keeps R i) : R (pen.leave i) (pen'.leave i) := by
  by_cases hw : pen.OnWhite
  · rw [Pen.leave, Pen.leave, if_pos hw, if_pos (h.onWhite_iff.mp hw)]
    exact h.shadow
  · rw [Pen.leave, Pen.leave, if_neg hw, if_neg (mt h.onWhite_iff.mpr hw), h.block]
    exact hi _ _ _ h.shadow

theorem lay (hR : Guides R) (h : Alike R pen pen')
    (hink : ∀ i, ink = .op i → Keeps R i) (p : Pos) :
    Alike R (pen.lay ink p) (pen'.lay ink p) := by
  cases ink with
  | black =>
    refine ⟨?_, h.shade, h.block, h.tip, h.shadow⟩
    rw [canvas_lay, canvas_lay, h.canvas]
    rfl
  | white =>
    refine ⟨?_, h.shade, ?_, rfl, h.shadow⟩
    · rw [canvas_lay, canvas_lay, h.canvas]
      rfl
    · have hblock : ∀ pen : Pen, (pen.lay .white p).block =
          if pen.OnWhite then pen.block.push p else .single .white p := fun _ => rfl
      rw [hblock, hblock]
      by_cases hw : pen.OnWhite
      · rw [if_pos hw, if_pos (h.onWhite_iff.mp hw), h.block]
      · rw [if_neg hw, if_neg (mt h.onWhite_iff.mpr hw)]
  | op i =>
    have hcolor : pen.colorOf (.op i) = pen'.colorOf (.op i) := by
      rw [colorOf, colorOf, h.shade]
    have hcanvas : (pen.lay (.op i) p).canvas = (pen'.lay (.op i) p).canvas := by
      rw [canvas_lay, canvas_lay, h.canvas, hcolor]
    have hshade : (pen.lay (.op i) p).shade = (pen'.lay (.op i) p).shade := by
      rw [shade_lay_op, shade_lay_op, h.shade]
    have hshadow : R (pen.lay (.op i) p).shadow (pen'.lay (.op i) p).shadow := by
      rw [shadow_lay_op, shadow_lay_op]
      exact h.leave (hink i rfl)
    by_cases hs : pen.Starts i
    · have hs' := (h.starts_iff i).mp hs
      refine ⟨hcanvas, hshade, ?_, ?_, hshadow⟩
      · rw [block_lay_op hs, block_lay_op hs', hcolor]
      · rw [tip_lay_op hs, tip_lay_op hs']
    · obtain ⟨rfl, hw⟩ := eq_noop_of_not_starts hs
      obtain ⟨hdp, hcc⟩ := hR _ _ h.shadow
      refine ⟨hcanvas, hshade, ?_, ?_, hshadow⟩
      · rw [lay_noop hw, lay_noop (mt h.onWhite_iff.mpr hw), h.block]
      · rw [lay_noop hw, lay_noop (mt h.onWhite_iff.mpr hw), h.tip, hdp, hcc]

theorem paint (hR : Guides R) (h : Alike R pen pen')
    (hink : ∀ i, ink = .op i → Keeps R i) (p : Pos) :
    AlikeAfter R (pen.paint ink p) (pen'.paint ink p) := by
  rw [Pen.paint, Pen.paint, ← h.obstacle? ink p]
  cases pen.obstacle? ink p with
  | none => exact ⟨rfl, h.lay hR hink p⟩
  | some e => exact ⟨rfl, h⟩

theorem advance (hR : Guides R) (h : Alike R pen pen')
    (hink : ∀ i, ink = .op i → Keeps R i) :
    AlikeAfter R (pen.advance ink) (pen'.advance ink) := by
  obtain ⟨hdp, -⟩ := hR _ _ h.shadow
  rw [Pen.advance, Pen.advance, ← h.tip, ← hdp]
  cases pen.tip.step pen.shadow.dp with
  | none => exact ⟨rfl, h⟩
  | some p => exact h.paint hR hink p

theorem stroke (hR : Guides R) (h : Alike R pen pen') (hink : ∀ i, ink = .op i → Keeps R i)
    (count : ℕ) : AlikeAfter R (pen.stroke ink count) (pen'.stroke ink count) := by
  induction count generalizing pen pen' ink with
  | zero => exact ⟨rfl, h⟩
  | succ count ih =>
    have hcontinued : ∀ i, ink.continued = .op i → Keeps R i := by
      cases ink with
      | white => rintro _ ⟨⟩
      | black => rintro _ ⟨⟩
      | op i =>
        rintro _ ⟨⟩
        exact keeps_noop R
    rw [stroke_eq_goOn, stroke_eq_goOn]
    exact (h.advance hR hink).goOn fun _ _ h₁ => ih h₁ hcontinued

/-- **Strokes paint alike.** -/
theorem strokes (hR : Guides R) (h : Alike R pen pen') {l : List Stroke}
    (hl : ∀ s ∈ l, ∀ i, s.ink = .op i → Keeps R i) :
    AlikeAfter R (pen.strokes l) (pen'.strokes l) := by
  induction l generalizing pen pen' with
  | nil => exact ⟨rfl, h⟩
  | cons s l ih =>
    obtain ⟨hs, hl⟩ := List.forall_mem_cons.mp hl
    rw [strokes_eq_goOn, strokes_eq_goOn]
    exact (h.stroke hR hs s.count).goOn fun _ _ h₁ => ih h₁ hl

theorem paintAll (hR : Guides R) (h : Alike R pen pen') (hink : ∀ i, ink = .op i → Keeps R i)
    (ps : List Pos) : AlikeAfter R (pen.paintAll ink ps) (pen'.paintAll ink ps) := by
  induction ps generalizing pen pen' with
  | nil => exact ⟨rfl, h⟩
  | cons p ps ih =>
    rw [paintAll_eq_goOn, paintAll_eq_goOn]
    exact (h.paint hR hink p).goOn fun _ _ h₁ => ih h₁

theorem paintWalls (hR : Guides R) (h : Alike R pen pen') (ps : List Pos) :
    AlikeAfter R (pen.paintWalls ps) (pen'.paintWalls ps) := by
  induction ps generalizing pen pen' with
  | nil => exact ⟨rfl, h⟩
  | cons p ps ih =>
    have hblack : ∀ i, Ink.black = .op i → Keeps R i := by rintro _ ⟨⟩
    rw [paintWalls_eq_goOn, paintWalls_eq_goOn, ← h.canvas]
    split
    · exact ih h
    · exact (h.paint hR hblack p).goOn fun _ _ h₁ => ih h₁

/-- **A program is closed alike.** -/
theorem close (hR : Guides R) (h : Alike R pen pen') (b : Bearing) :
    AlikeAfter R (pen.close b) (pen'.close b) := by
  obtain ⟨hdp, -⟩ := hR _ _ h.shadow
  have hwhite : ∀ i, Ink.white = .op i → Keeps R i := by rintro _ ⟨⟩
  have hnoop : ∀ i, Ink.op .noop = .op i → Keeps R i := by
    rintro _ ⟨⟩
    exact keeps_noop R
  rw [close_eq_goOn, close_eq_goOn, ← hdp]
  refine (h.advance hR hwhite).goOn fun pen₁ pen₁' h₁ => ?_
  rw [← h₁.tip]
  cases DeadEnd.behind? pen₁.tip pen.shadow.dp (pen.shadow.dp.rotate b.turns) with
  | none => exact ⟨rfl, h₁⟩
  | some deadEnd =>
    have hoccupied : ∀ p, pen₁'.Occupied p ↔ pen₁.Occupied p := fun p => by
      rw [Occupied, Occupied, h₁.canvas]
    dsimp only
    simp only [hoccupied]
    cases deadEnd.walls.find? fun p => pen₁.Occupied p with
    | some p => exact ⟨rfl, h₁⟩
    | none => exact (h₁.paintAll hR hnoop deadEnd.cells).goOn fun _ _ h₂ => h₂.paintWalls hR _

/-- **A turn is painted alike**, if the stacks are the same. -/
theorem turnAround (h : Alike Machine.SameWork pen pen') (width : ℕ) (rightward : Bool) :
    AlikeAfter Machine.SameWork (Compose.turnAround pen width rightward)
      (Compose.turnAround pen' width rightward) := by
  rw [Compose.turnAround, Compose.turnAround, ← h.tip]
  cases Compose.padding? width pen.tip.x (if rightward then 1 else 3) rightward with
  | none => exact ⟨rfl, h⟩
  | some padding =>
    refine h.strokes Machine.guides_sameWork fun s hs i hi => Machine.keeps_sameWork ?_
    simp only [List.mem_cons, List.not_mem_nil, or_false] at hs
    rcases hs with rfl | rfl | rfl | rfl | rfl | rfl | rfl <;> cases hi <;> decide

end Alike

end Pen

end Piet
