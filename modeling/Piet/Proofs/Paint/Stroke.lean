import Piet.Paint.Compose
import Piet.Proofs.Paint.Trace

/-!
# Strokes into open space

`Pen.Ready` describes a pen that has nothing in front of it: the cells ahead of its tip are blank,
in its own line and in the lines on either side.  Then nothing keeps the next cell from being
painted, in whatever ink (`Pen.Ready.free`), and the pen stays ready as long as its direction does.

The main results say what a whole stroke does: how far the tip comes and what has been painted
(`Pen.Along`), what has been executed and how large the current block is.

* `Pen.Ready.stroke_white` for white after a block, `Pen.Ready.stroke_op` for an instruction;
* `Pen.Ready.strokes_ops` for a sequence of instructions, in terms of `Machine.through`.
-/

namespace Piet

/-! ### Room on the canvas -/

/-- So many cells can be painted beyond a position. -/
def Pos.Room (p : Pos) (d : Direction) (count : ℕ) : Prop :=
  match d with
  | .right => p.x + count < Canvas.maxWidth
  | .down => p.y + count < Canvas.maxHeight
  | .left => count ≤ p.x
  | .up => count ≤ p.y

theorem Pos.Room.mono {p : Pos} {d : Direction} {c c' : ℕ} (h : p.Room d c) (hle : c' ≤ c) :
    p.Room d c' := by
  cases d <;> simp only [Room] at h ⊢ <;> omega

/-- Moving to one side leaves the room in front as it is. -/
theorem Pos.Room.congr {p q : Pos} {d : Direction} {c : ℕ} (h : p.Room d c)
    (heq : d.reach q = d.reach p) : q.Room d c := by
  cases d <;> simp only [Room, Direction.reach] at h heq ⊢ <;> omega

theorem Pos.Room.step {p : Pos} {d : Direction} {c : ℕ} (hp : p.Paintable) (h : p.Room d (c + 1)) :
    ∃ q, p.step d = some q ∧ q.Paintable ∧ q.Room d c := by
  obtain ⟨py, px⟩ := p
  obtain ⟨hy, hx⟩ : py < Canvas.maxHeight ∧ px < Canvas.maxWidth := hp
  have hwidth : Canvas.maxWidth < Pos.limit := by decide
  have hheight : Canvas.maxHeight < Pos.limit := by decide
  cases d with
  | right =>
    have hroom : px + (c + 1) < Canvas.maxWidth := h
    have hstep : px + 1 < Canvas.maxWidth := by omega
    exact ⟨⟨py, px + 1⟩, if_pos (hstep.trans hwidth), ⟨hy, hstep⟩, by simp only [Room]; omega⟩
  | down =>
    have hroom : py + (c + 1) < Canvas.maxHeight := h
    have hstep : py + 1 < Canvas.maxHeight := by omega
    exact ⟨⟨py + 1, px⟩, if_pos (hstep.trans hheight), ⟨hstep, hx⟩, by simp only [Room]; omega⟩
  | left =>
    have hroom : c + 1 ≤ px := h
    have hstep : px - 1 < Canvas.maxWidth := by omega
    have hpos : 0 < px := by omega
    exact ⟨⟨py, px - 1⟩, if_pos hpos, ⟨hy, hstep⟩, by simp only [Room]; omega⟩
  | up =>
    have hroom : c + 1 ≤ py := h
    have hstep : py - 1 < Canvas.maxHeight := by omega
    have hpos : 0 < py := by omega
    exact ⟨⟨py - 1, px⟩, if_pos hpos, ⟨hstep, hx⟩, by simp only [Room]; omega⟩

namespace Pen

variable {pen pen' pen'' : Pen} {input : Array UInt8} {n c c' : ℕ} {ink : Ink} {i : Instruction}
  {p q : Pos}

/-! ### A pen with nothing in front of it -/

/-- Nothing has been painted ahead of the tip, neither in its line nor in those beside it. -/
def ClearAhead (pen : Pen) : Prop :=
  ∀ q, pen.canvas.get? q ≠ none →
    (∀ e, pen.shadow.dp.Across e → e.reach q ≤ e.reach pen.tip + 1) →
    pen.shadow.dp.reach q ≤ pen.shadow.dp.reach pen.tip

/-- The pen is where the pointer comes after `n` steps, and can go on. -/
structure Ready (input : Array UInt8) (n : ℕ) (pen : Pen) : Prop where
  traced : Traced input n pen
  clear : pen.ClearAhead
  paintable : pen.tip.Paintable

/-- The tip has moved so many cells in the direction of the pen, and nothing has been painted but
cells that it has moved over. -/
structure Along (pen : Pen) (count : ℕ) (pen' : Pen) : Prop where
  ahead : pen.shadow.dp.reach pen'.tip = pen.shadow.dp.reach pen.tip + count
  beside : ∀ e, pen.shadow.dp.Across e → e.reach pen'.tip = e.reach pen.tip
  painted : ∀ q, pen'.canvas.get? q ≠ none → pen.canvas.get? q ≠ none ∨
    (pen.shadow.dp.reach pen.tip < pen.shadow.dp.reach q ∧
      pen.shadow.dp.reach q ≤ pen.shadow.dp.reach pen'.tip ∧
      ∀ e, pen.shadow.dp.Across e → e.reach q = e.reach pen.tip)

namespace Along

theorem refl (pen : Pen) : pen.Along 0 pen where
  ahead := (Int.add_zero _).symm
  beside _ _ := rfl
  painted _ hq := .inl hq

theorem trans (h : pen.Along c pen') (h' : pen'.Along c' pen'')
    (hdp : pen'.shadow.dp = pen.shadow.dp) : pen.Along (c + c') pen'' where
  ahead := by
    have := h.ahead
    have hahead := h'.ahead
    rw [hdp] at hahead
    push_cast
    omega
  beside e he := (h'.beside e (hdp ▸ he)).trans (h.beside e he)
  painted q hq := by
    have hahead := h.ahead
    have hahead' := h'.ahead
    rw [hdp] at hahead'
    rcases h'.painted q hq with hq | ⟨hlt, hle, hbeside⟩
    · rcases h.painted q hq with hq | ⟨hlt, hle, hbeside⟩
      · exact .inl hq
      · exact .inr ⟨hlt, by omega, hbeside⟩
    · rw [hdp] at hlt hle hbeside
      exact .inr ⟨by omega, hle, fun e he => (hbeside e he).trans (h.beside e he)⟩

end Along

theorem Traced.look_tip (h : Traced input n pen) :
    pen.canvas.get? pen.tip = some pen.block.color := by
  have hmem := h.tip_mem
  cases h with
  | block h => exact (h.whole _ List.mem_cons_self).1.color _ hmem
  | white h => exact (h.white _ hmem).trans (congrArg some h.stretch.color_eq.symm)

theorem Traced.color_eq (h : Traced input n pen) (hw : ¬ pen.OnWhite) :
    pen.block.color = .shade pen.shade := by
  cases h with
  | block h => exact h.color
  | white h => exact absurd h.onWhite hw

namespace Ready

/-- A painted cell next to the one in front of the tip can only be the tip. -/
theorem eq_tip (h : Ready input n pen) (hstep : pen.tip.step pen.shadow.dp = some p)
    {e : Direction} (hq : p.step e = some q) (hpainted : pen.canvas.get? q ≠ none) :
    q = pen.tip := by
  have hrange := pen.canvas.bounded _ _ h.traced.look_tip
  have hahead := Pos.reach_step hstep
  have hbeside : ∀ e, pen.shadow.dp.Across e → e.reach p = e.reach pen.tip := fun e he =>
    Pos.reach_step_across hstep he
  have hclear := h.clear q hpainted
  -- Beside the cell in front, nothing has been painted.
  have hside : ¬ pen.shadow.dp.Across e := fun he => by
    have hacross := Pos.reach_step_across hq he.symm
    have hnext := Pos.reach_step hq
    have hp := hbeside e he
    have hle := hclear fun f hf => by
      rcases he.eq_or hf with rfl | rfl
      · omega
      · rw [Direction.reach_back, Direction.reach_back]
        omega
    omega
  have hacross : pen.shadow.dp.Across pen.shadow.dp.clockwise := .inl rfl
  rcases hacross.cases e with rfl | rfl | rfl | rfl
  · -- Two cells ahead of the tip, nothing has been painted either.
    have hnext := Pos.reach_step hq
    have hle := hclear fun f hf => by
      rw [Pos.reach_step_across hq hf, hbeside f hf]
      omega
    omega
  · exact absurd hacross hside
  · exact Option.some.inj (hq.symm.trans (Pos.step_back hrange hstep))
  · exact absurd hacross.back hside

/-- Nothing keeps the cell in front of the tip from being painted. -/
theorem free (h : Ready input n pen) (hstep : pen.tip.step pen.shadow.dp = some p)
    (hp : p.Paintable) (ink : Ink) : pen.Free ink p := by
  refine ⟨?_, hp, fun i _ => ?_⟩
  · by_contra hpainted
    have hle := h.clear p hpainted fun e he => by
      rw [Pos.reach_step_across hstep he]
      omega
    have hahead := Pos.reach_step hstep
    omega
  · rintro ⟨d, -, q, hq, hlook, hor⟩
    have hpainted := Option.ne_none_iff_exists'.mpr ⟨_, hlook⟩
    obtain rfl : q = pen.tip := h.eq_tip hstep hq hpainted
    have hcolor : pen.block.color = .shade (pen.shade.shift i.change) :=
      Option.some.inj (h.traced.look_tip.symm.trans hlook)
    have hw : ¬ pen.OnWhite := by
      rw [OnWhite, hcolor]
      exact Color.shade_ne_white _
    have hi : i = .noop := by
      have hsame := (h.traced.color_eq hw).symm.trans hcolor
      have hself : (Color.shade pen.shade).instructionTo (.shade pen.shade) = .noop := by
        have hshift := Color.instructionTo_shift pen.shade .noop
        rwa [Shade.shift_noop] at hshift
      rw [← Color.instructionTo_shift pen.shade i, ← hsame, hself]
    rcases hor with hs | hhas
    · exact hs.elim hw fun hne => hne hi
    · exact hhas h.traced.tip_mem

theorem tip_lay (h : Ready input n pen) (hstep : pen.tip.step pen.shadow.dp = some p)
    (hp : p.Paintable) (hink : ink ≠ .black) : (pen.lay ink p).tip = p := by
  cases ink with
  | white => rfl
  | black => exact absurd rfl hink
  | op i =>
    by_cases hs : pen.Starts i
    · exact tip_lay_op hs p
    · obtain ⟨rfl, hw⟩ := eq_noop_of_not_starts hs
      rw [lay_noop hw]
      -- The new cell lies further ahead than the tip, so it is the exit of the larger block.
      have hrank := (Heading.of pen.shadow.dp pen.shadow.cc).rank_further h.paintable.near hp.near
      have hle : (Heading.of pen.shadow.dp pen.shadow.cc).rank pen.tip ≤
          (Heading.of pen.shadow.dp pen.shadow.cc).rank p := by
        have hahead := Pos.reach_step hstep
        refine Prod.Lex.toLex_le_toLex.mpr (.inl ?_)
        simp only [Heading.of]
        omega
      rw [max_eq_right hle] at hrank
      exact Heading.rank_injective _ _ hrank

end Ready

theorem along_lay (h : Ready input n pen) (hstep : pen.tip.step pen.shadow.dp = some p)
    (hp : p.Paintable) (hink : ink ≠ .black) : pen.Along 1 (pen.lay ink p) := by
  have htip := h.tip_lay hstep hp hink
  have hahead := Pos.reach_step hstep
  refine ⟨by rw [htip, hahead]; rfl, fun e he => ?_, fun q hq => ?_⟩
  · rw [htip, Pos.reach_step_across hstep he]
  · by_cases hqp : q = p
    · subst hqp
      refine .inr ⟨by omega, by rw [htip], fun e he => Pos.reach_step_across hstep he⟩
    · rw [(painted_lay (h.free hstep hp ink)).frame q hqp] at hq
      exact .inl hq

theorem ClearAhead.along (h : pen.ClearAhead) (halong : pen.Along c pen')
    (hdp : pen'.shadow.dp = pen.shadow.dp) : pen'.ClearAhead := by
  intro q hq hbeside
  rw [hdp] at hbeside ⊢
  have hahead := halong.ahead
  rcases halong.painted q hq with hq | ⟨-, hle, -⟩
  · have hle := h q hq fun e he => by
      rw [← halong.beside e he]
      exact hbeside e he
    omega
  · exact hle

theorem Along.room (h : pen.Along c pen') (hroom : pen.tip.Room pen.shadow.dp (c + c')) :
    pen'.tip.Room pen.shadow.dp c' := by
  have hahead := h.ahead
  cases hd : pen.shadow.dp <;> rw [hd] at hahead hroom <;>
    simp only [Pos.Room, Direction.reach] at hahead hroom ⊢ <;> omega

/-- The cell in front of a ready pen can be painted in any ink but black. -/
theorem Ready.advance (h : Ready input n pen) (hroom : pen.tip.Room pen.shadow.dp (c + 1))
    (hink : ink ≠ .black) :
    ∃ p, pen.advance ink = (pen.lay ink p, none) ∧
      Traced input (n + pen.paces ink) (pen.lay ink p) ∧ pen.Along 1 (pen.lay ink p) ∧
      (pen.lay ink p).tip.Paintable ∧ pen.tip.step pen.shadow.dp = some (pen.lay ink p).tip := by
  obtain ⟨p, hstep, hp, -⟩ := hroom.step h.paintable
  have hfree := h.free hstep hp ink
  have htip := h.tip_lay hstep hp hink
  refine ⟨p, ?_, h.traced.paint (h.traced.suits_front hstep ink) hfree,
    along_lay h hstep hp hink, by rwa [htip], by rwa [htip]⟩
  rw [Pen.advance, hstep]
  exact paint_eq hfree

/-! ### Strokes -/

/-- The size of the current block, unless that is white. -/
def size? (pen : Pen) : Option ℕ :=
  if pen.OnWhite then none else some pen.block.size

/-- The pen has come so many cells ahead and is ready there, with such a machine, in white or in a
block of such a size. -/
structure Comes (input : Array UInt8) (n : ℕ) (pen : Pen) (count : ℕ) (m : Machine)
    (size : Option ℕ) (pen' : Pen) : Prop where
  ready : Ready input n pen'
  along : pen.Along count pen'
  shadow : pen'.shadow = m
  size : pen'.size? = size

theorem Comes.trans {m m' : Machine} {k k' : Option ℕ} {n' : ℕ}
    (h : Comes input n pen c m k pen') (h' : Comes input n' pen' c' m' k' pen'')
    (hdp : m.dp = pen.shadow.dp) : Comes input n' pen (c + c') m' k' pen'' where
  ready := h'.ready
  along := h.along.trans h'.along (by rw [h.shadow, hdp])
  shadow := h'.shadow
  size := h'.size

theorem stroke_succ (h : pen.advance ink = (pen', none)) (c : ℕ) :
    pen.stroke ink (c + 1) = pen'.stroke ink.continued c := by
  rw [stroke, h]

namespace Ready

/-- A block can be made longer. -/
theorem stroke_noop (h : Ready input n pen) (hw : ¬ pen.OnWhite)
    (hroom : pen.tip.Room pen.shadow.dp c) :
    ∃ pen', pen.stroke (.op .noop) c = (pen', none) ∧
      Comes input n pen c pen.shadow (some (pen.block.size + c)) pen' := by
  induction c generalizing pen with
  | zero => exact ⟨pen, rfl, h, .refl pen, rfl, if_neg hw⟩
  | succ c ih =>
    have hs : ¬ pen.Starts .noop := fun hs => hs.elim hw fun hne => hne rfl
    obtain ⟨p, hadvance, htraced, halong, hp, -⟩ := h.advance hroom (Ink.op_ne_black .noop)
    rw [stroke_succ hadvance]
    rw [paces, if_neg hs] at htraced
    have hshadow : (pen.lay (.op .noop) p).shadow = pen.shadow := by
      rw [shadow_lay_op, leave_noop]
    have hblock : (pen.lay (.op .noop) p).block = pen.block.push p := by rw [lay_noop hw]
    have hdp : (pen.lay (.op .noop) p).shadow.dp = pen.shadow.dp := by rw [hshadow]
    have hw' : ¬ (pen.lay (.op .noop) p).OnWhite := by
      rw [OnWhite, hblock]
      exact hw
    have hroom' : (pen.lay (.op .noop) p).tip.Room (pen.lay (.op .noop) p).shadow.dp c := by
      rw [hdp]
      exact halong.room (Nat.add_comm c 1 ▸ hroom)
    obtain ⟨pen', hstroke, hcomes⟩ := ih ⟨htraced, h.clear.along halong hdp, hp⟩ hw' hroom'
    refine ⟨pen', hstroke, hcomes.ready, ?_, hcomes.shadow.trans hshadow, ?_⟩
    · exact Nat.add_comm c 1 ▸ halong.trans hcomes.along hdp
    · rw [hcomes.size, hblock, Block.size, Block.push, Array.size_push, Block.size]
      congr 1
      omega

/-- A stretch of white can be made longer. -/
theorem stroke_white_on (h : Ready input n pen) (hw : pen.OnWhite)
    (hroom : pen.tip.Room pen.shadow.dp c) :
    ∃ pen', pen.stroke .white c = (pen', none) ∧ Comes input n pen c pen.shadow none pen' := by
  induction c generalizing pen with
  | zero => exact ⟨pen, rfl, h, .refl pen, rfl, if_pos hw⟩
  | succ c ih =>
    obtain ⟨p, hadvance, htraced, halong, hp, -⟩ := h.advance hroom Ink.white_ne_black
    rw [stroke_succ hadvance]
    rw [paces, if_pos hw] at htraced
    have hw' := pen.onWhite_lay_white p
    have hroom' : (pen.lay .white p).tip.Room pen.shadow.dp c :=
      halong.room (Nat.add_comm c 1 ▸ hroom)
    obtain ⟨pen', hstroke, hcomes⟩ := ih ⟨htraced, h.clear.along halong rfl, hp⟩ hw' hroom'
    refine ⟨pen', hstroke, hcomes.ready, ?_, hcomes.shadow, hcomes.size⟩
    exact Nat.add_comm c 1 ▸ halong.trans hcomes.along rfl

/-- A stroke of white after a block is one step. -/
theorem stroke_white (h : Ready input n pen) (hw : ¬ pen.OnWhite)
    (hroom : pen.tip.Room pen.shadow.dp (c + 1)) :
    ∃ pen', pen.stroke .white (c + 1) = (pen', none) ∧
      Comes input (n + 1) pen (c + 1) pen.shadow none pen' := by
  obtain ⟨p, hadvance, htraced, halong, hp, -⟩ := h.advance hroom Ink.white_ne_black
  rw [stroke_succ hadvance]
  rw [paces, if_neg hw] at htraced
  have hw' := pen.onWhite_lay_white p
  have hroom' : (pen.lay .white p).tip.Room pen.shadow.dp c :=
    halong.room (Nat.add_comm c 1 ▸ hroom)
  obtain ⟨pen', hstroke, hcomes⟩ :=
    stroke_white_on ⟨htraced, h.clear.along halong rfl, hp⟩ hw' hroom'
  refine ⟨pen', hstroke, hcomes.ready, ?_, hcomes.shadow, hcomes.size⟩
  exact Nat.add_comm c 1 ▸ halong.trans hcomes.along rfl

/-- A stroke of an instruction that begins a block is one step. -/
theorem stroke_op (h : Ready input n pen) (hs : pen.Starts i)
    (hdp : (pen.leave i).dp = pen.shadow.dp) (hroom : pen.tip.Room pen.shadow.dp (c + 1)) :
    ∃ pen', pen.stroke (.op i) (c + 1) = (pen', none) ∧
      Comes input (n + 1) pen (c + 1) (pen.leave i) (some (c + 1)) pen' := by
  obtain ⟨p, hadvance, htraced, halong, hp, -⟩ := h.advance hroom (Ink.op_ne_black i)
  rw [stroke_succ hadvance]
  rw [paces, if_pos hs] at htraced
  have hshadow := shadow_lay_op pen i p
  have hblock := block_lay_op hs p
  have hdp' : (pen.lay (.op i) p).shadow.dp = pen.shadow.dp := by rw [hshadow, hdp]
  have hw' := not_onWhite_lay_op hs p
  have hroom' : (pen.lay (.op i) p).tip.Room (pen.lay (.op i) p).shadow.dp c := by
    rw [hdp']
    exact halong.room (Nat.add_comm c 1 ▸ hroom)
  obtain ⟨pen', hstroke, hcomes⟩ :=
    stroke_noop ⟨htraced, h.clear.along halong hdp', hp⟩ hw' hroom'
  refine ⟨pen', hstroke, hcomes.ready, ?_, hcomes.shadow.trans hshadow, ?_⟩
  · exact Nat.add_comm c 1 ▸ halong.trans hcomes.along hdp'
  · rw [hcomes.size, hblock, Nat.add_comm c 1]
    rfl

end Ready

end Pen

/-! ### Several strokes -/

namespace Stroke

/-- The stroke of an instruction that begins a block and leaves the heading alone. -/
def Quiet : Stroke → Prop
  | ⟨.op i, count⟩ => i ≠ .noop ∧ ¬ Machine.Steers i ∧ 0 < count
  | _ => False

instance (s : Stroke) : Decidable s.Quiet := by
  obtain ⟨ink, count⟩ := s
  cases ink <;> unfold Quiet <;> infer_instance

theorem totalCount_eq_sum (l : List Stroke) : totalCount l = (l.map count).sum := by
  have key : ∀ (l : List Stroke) (n : ℕ), l.foldl (fun n s => n + s.count) n =
      n + (l.map count).sum := by
    intro l
    induction l with
    | nil => exact fun n => rfl
    | cons s l ih =>
      intro n
      rw [List.foldl_cons, ih, List.map_cons, List.sum_cons, Nat.add_assoc]
  rw [totalCount, key, Nat.zero_add]

@[simp]
theorem totalCount_nil : totalCount [] = 0 := rfl

@[simp]
theorem totalCount_cons (s : Stroke) (l : List Stroke) :
    totalCount (s :: l) = s.count + totalCount l := by
  rw [totalCount_eq_sum, totalCount_eq_sum, List.map_cons, List.sum_cons]

@[simp]
theorem totalCount_append (l l' : List Stroke) :
    totalCount (l ++ l') = totalCount l + totalCount l' := by
  rw [totalCount_eq_sum, totalCount_eq_sum, totalCount_eq_sum, List.map_append, List.sum_append]

end Stroke

/-- The machine after the pointer has come through a block for each stroke, out of one of the given
size. -/
def Machine.through (m : Machine) (size : ℕ) : List Stroke → Machine
  | [] => m
  | ⟨.op i, count⟩ :: rest => (m.execute i size).1.through count rest
  | ⟨_, count⟩ :: rest => m.through count rest

namespace Pen

variable {pen pen' : Pen} {input : Array UInt8} {n k : ℕ} {s : Stroke} {l : List Stroke}

theorem strokes_cons (h : pen.stroke s.ink s.count = (pen', none)) (l : List Stroke) :
    pen.strokes (s :: l) = pen'.strokes l := by
  rw [strokes, h]

theorem strokes_append (h : pen.strokes l = (pen', none)) (l' : List Stroke) :
    pen.strokes (l ++ l') = pen'.strokes l' := by
  induction l generalizing pen with
  | nil =>
    obtain rfl : pen = pen' := congrArg Prod.fst h
    rfl
  | cons s l ih =>
    rw [strokes] at h
    rw [List.cons_append, strokes]
    split at h
    · exact ih h
    · cases h

theorem not_onWhite_of_size? (h : pen.size? = some k) : ¬ pen.OnWhite ∧ pen.block.size = k := by
  rw [size?] at h
  split at h
  · cases h
  · next hw => exact ⟨hw, Option.some.inj h⟩

theorem onWhite_of_size? (h : pen.size? = none) : pen.OnWhite := by
  rw [size?] at h
  split at h
  · next hw => exact hw
  · cases h

/-- **Instructions in a row.**  Each one is a block and a step. -/
theorem Ready.strokes_ops (h : Ready input n pen) (hsize : pen.size? = some k)
    (hquiet : ∀ s ∈ l, s.Quiet) (hroom : pen.tip.Room pen.shadow.dp (Stroke.totalCount l)) :
    ∃ pen' k', pen.strokes l = (pen', none) ∧
      Comes input (n + l.length) pen (Stroke.totalCount l) (pen.shadow.through k l) (some k') pen' ∧
      pen'.shadow.dp = pen.shadow.dp := by
  induction l generalizing pen n k with
  | nil => exact ⟨pen, k, rfl, ⟨h, .refl pen, rfl, hsize⟩, rfl⟩
  | cons s l ih =>
    obtain ⟨hs, hl⟩ := List.forall_mem_cons.mp hquiet
    obtain ⟨ink, count⟩ := s
    cases ink with
    | white => exact absurd hs id
    | black => exact absurd hs id
    | op i =>
      obtain ⟨hi, hsteer, hpos⟩ := hs
      obtain ⟨c, rfl⟩ := Nat.exists_eq_add_of_lt hpos
      rw [Nat.zero_add] at *
      obtain ⟨hw, hk⟩ := not_onWhite_of_size? hsize
      have hleave : pen.leave i = (pen.shadow.execute i k).1 := by
        rw [leave, if_neg hw, hk]
      have hdp : (pen.leave i).dp = pen.shadow.dp := by
        rw [hleave]
        exact (Machine.execute_heading hsteer).1
      rw [Stroke.totalCount_cons] at hroom
      obtain ⟨pen₁, hstroke, h₁⟩ := h.stroke_op (.inr hi) hdp (hroom.mono (Nat.le_add_right _ _))
      have hdp₁ : pen₁.shadow.dp = pen.shadow.dp := by rw [h₁.shadow, hdp]
      have hroom₁ : pen₁.tip.Room pen₁.shadow.dp (Stroke.totalCount l) := by
        rw [hdp₁]
        exact h₁.along.room hroom
      obtain ⟨pen', k', hstrokes, hcomes, hdp'⟩ := ih h₁.ready h₁.size hl hroom₁
      refine ⟨pen', k', (strokes_cons hstroke l).trans hstrokes, ?_, hdp'.trans hdp₁⟩
      have hall := h₁.trans hcomes hdp
      rw [h₁.shadow, hleave] at hall
      rw [Stroke.totalCount_cons, List.length_cons, Nat.add_comm l.length 1, ← Nat.add_assoc]
      exact hall

end Pen

end Piet
