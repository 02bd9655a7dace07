import Piet.Paint.Compose
import Piet.Proofs.Paint.Close
import Piet.Proofs.Paint.Payload

/-!
# The layout of a composed picture

`Pen.InLane` describes a pen in a lane of the picture: it is ready in the direction of the lane, its
stack is empty, and nothing has been painted below its row or outside the width of the picture.

* `Pen.InLane.bytes`: painting the bytes of a lane leads along it.
* `Pen.InLane.turnAround`: a turn leads to the beginning of the next lane, two rows below.
* `Pen.InLane.close`: the dead end fits behind the last lane.
-/

namespace Piet

namespace Compose

/-- The direction of a lane. -/
def heading (rightward : Bool) : Direction :=
  if rightward then .right else .left

/-- The quarter turns that are made twice at the end of a lane. -/
def turnsOf (rightward : Bool) : ℕ :=
  if rightward then 1 else 3

theorem down_across_heading (rightward : Bool) : (heading rightward).Across .down := by
  cases rightward
  · exact .inr rfl
  · exact .inl rfl

theorem rotate_heading (rightward : Bool) :
    (heading rightward).rotate (turnsOf rightward) = .down ∧
      Direction.down.rotate (turnsOf rightward) = heading !rightward := by
  cases rightward <;> exact ⟨rfl, rfl⟩

/-- The dead end behind the last lane extends downward. -/
theorem rotate_heading_close (rightward : Bool) :
    (heading rightward).rotate (if rightward then Bearing.right else .left).turns = .down := by
  cases rightward <;> rfl

end Compose

namespace Pen

open Compose (heading turnsOf turnLength)

variable {pen pen' : Pen} {input : Array UInt8} {n c width : ℕ} {rightward : Bool}

/-! ### Coordinates -/

/-- Nothing has been painted outside the width of the picture or below the tip. -/
def Within (width : ℕ) (pen : Pen) : Prop :=
  pen.tip.x < width ∧ ∀ q, pen.canvas.get? q ≠ none → q.x < width ∧ q.y ≤ pen.tip.y

/-- How many cells lie between the tip and the edge to which the lane leads. -/
def spare (width : ℕ) (rightward : Bool) (pen : Pen) : ℕ :=
  if rightward then width - 1 - pen.tip.x else pen.tip.x

/-- Moving along a lane. -/
theorem Along.lane (h : pen.Along c pen') (hdp : pen.shadow.dp = heading rightward)
    (hwithin : pen.Within width) (hc : c ≤ pen.spare width rightward) :
    pen'.Within width ∧ pen'.tip.y = pen.tip.y ∧
      pen'.spare width rightward = pen.spare width rightward - c := by
  obtain ⟨hahead, hbeside, hpainted⟩ := h
  obtain ⟨hx, hold⟩ := hwithin
  rw [hdp] at hahead hbeside hpainted
  have hdown := hbeside _ (Compose.down_across_heading rightward)
  simp only [Direction.reach] at hdown
  have hrow : pen'.tip.y = pen.tip.y := by omega
  cases rightward with
  | true =>
    simp only [heading, if_true, Direction.reach, spare] at hahead hpainted hc ⊢
    refine ⟨⟨by omega, fun q hq => ?_⟩, hrow, by omega⟩
    rcases hpainted q hq with hq | ⟨-, hle, hline⟩
    · obtain ⟨hqx, hqy⟩ := hold q hq
      exact ⟨hqx, by omega⟩
    · have hlow := hline .down (.inl rfl)
      simp only at hlow
      omega
  | false =>
    simp only [heading, Bool.false_eq_true, if_false, Direction.reach, spare]
      at hahead hpainted hc ⊢
    refine ⟨⟨by omega, fun q hq => ?_⟩, hrow, by omega⟩
    rcases hpainted q hq with hq | ⟨hlt, hle, hline⟩
    · obtain ⟨hqx, hqy⟩ := hold q hq
      exact ⟨hqx, by omega⟩
    · have hlow := hline .down (.inr rfl)
      simp only at hlow
      omega

/-- Moving down at the edge. -/
theorem Along.edge (h : pen.Along c pen') (hdp : pen.shadow.dp = .down)
    (hwithin : pen.Within width) :
    pen'.Within width ∧ pen'.tip.y = pen.tip.y + c ∧ pen'.tip.x = pen.tip.x ∧
      ∀ q, pen'.canvas.get? q ≠ none → pen.canvas.get? q ≠ none ∨ q.x = pen.tip.x := by
  obtain ⟨hahead, hbeside, hpainted⟩ := h
  obtain ⟨hx, hold⟩ := hwithin
  rw [hdp] at hahead hbeside hpainted
  have hacross : Direction.down.Across .right := .inr rfl
  have hcolumn := hbeside _ hacross
  simp only [Direction.reach] at hcolumn hahead
  have hsame : pen'.tip.x = pen.tip.x := by omega
  have hnew : ∀ q, pen'.canvas.get? q ≠ none →
      pen.canvas.get? q ≠ none ∨ q.x = pen.tip.x ∧ q.y ≤ pen'.tip.y := by
    intro q hq
    rcases hpainted q hq with hq | ⟨-, hle, hside⟩
    · exact .inl hq
    · have hqx := hside _ hacross
      simp only [Direction.reach] at hqx hle
      exact .inr ⟨by omega, by omega⟩
  refine ⟨⟨by omega, fun q hq => ?_⟩, by omega, hsame, fun q hq => (hnew q hq).imp_right And.left⟩
  rcases hnew q hq with hq | ⟨hqx, hqy⟩
  · obtain ⟨hqx, hqy⟩ := hold q hq
    exact ⟨hqx, by omega⟩
  · exact ⟨by omega, hqy⟩

/-! ### Lanes -/

/-- The pen is in a lane, where it is ready to paint a byte, a turn or the dead end. -/
structure InLane (input : Array UInt8) (n width : ℕ) (rightward : Bool) (pen : Pen) : Prop where
  ready : Ready input n pen
  solid : ∃ k, pen.size? = some k
  dp : pen.shadow.dp = heading rightward
  cc : pen.shadow.cc = .left
  stack : pen.shadow.stack = .empty
  within : pen.Within width

/-- The picture is narrow enough to be painted. -/
theorem InLane.room (h : InLane input n width rightward pen) (hwidth : width ≤ Canvas.maxWidth)
    (hc : c ≤ pen.spare width rightward) : pen.tip.Room pen.shadow.dp c := by
  obtain ⟨hx, -⟩ := h.within
  rw [h.dp]
  cases rightward with
  | true =>
    simp only [spare, if_true] at hc
    simp only [heading, if_true, Pos.Room]
    omega
  | false => exact hc

/-- **Painting the bytes of a lane.** -/
theorem InLane.bytes (h : InLane input n width rightward pen) (hwidth : width ≤ Canvas.maxWidth)
    (keyed : Bool) (bytes : List UInt8)
    (hc : Stroke.totalCount (bytes.map (Payload.byteStrokes keyed)).flatten ≤
      pen.spare width rightward) :
    ∃ pen', pen.strokes (bytes.map (Payload.byteStrokes keyed)).flatten = (pen', none) ∧
      InLane input (n + (bytes.map (Payload.byteSteps keyed)).sum) width rightward pen' ∧
      pen'.shadow = pen.shadow.printBytes keyed bytes ∧ pen'.tip.y = pen.tip.y ∧
      pen'.spare width rightward = pen.spare width rightward -
        Stroke.totalCount (bytes.map (Payload.byteStrokes keyed)).flatten := by
  obtain ⟨k, hsize⟩ := h.solid
  obtain ⟨pen', k', hstrokes, hcomes⟩ := h.ready.bytes hsize h.stack (h.room hwidth hc)
  obtain ⟨hstack, hdp, hcc⟩ := Machine.printBytes_frame keyed pen.shadow bytes
  obtain ⟨hwithin, hrow, hspare⟩ := hcomes.along.lane h.dp h.within hc
  rw [← hcomes.shadow] at hstack hdp hcc
  refine ⟨pen', hstrokes, ⟨hcomes.ready, ⟨k', hcomes.size⟩, ?_, ?_, ?_, hwithin⟩, hcomes.shadow,
    hrow, hspare⟩
  · rw [hdp, h.dp]
  · rw [hcc, h.cc]
  · rw [hstack, h.stack]

/-- The machine of a pen at the edge, before and after the turn. -/
theorem through_turn {m : Machine} (hstack : m.stack = .empty) (rightward : Bool) :
    m.through (turnsOf rightward) [⟨.op .push, 1⟩, ⟨.op .duplicate, 1⟩] =
      { m with stack := ⟨[Int64.ofNat (turnsOf rightward), Int64.ofNat (turnsOf rightward)]⟩ } := by
  have hsize : Machine.sizeWord (turnsOf rightward) = Int64.ofNat (turnsOf rightward) := by
    cases rightward <;> decide
  simp only [Machine.through]
  rw [Machine.execute_push, hstack, hsize, Machine.execute_duplicate rfl]
  rfl

/-- Turning by the word on top of the stack. -/
theorem execute_pointer {m : Machine} {a : Int64} {below : List Int64}
    (hstack : m.stack = ⟨a :: below⟩) (size : ℕ) :
    (m.execute .pointer size).1 = { m with stack := ⟨below⟩, dp := m.dp.rotate a.toInt } := by
  obtain ⟨stack, dp, cc, input, output⟩ := m
  obtain rfl : stack = ⟨a :: below⟩ := hstack
  rfl

/-- A cell that turns the pen by the word on top of the stack. -/
theorem Ready.point (h : Ready input n pen) {k : ℕ} (hsize : pen.size? = some k) {a : Int64}
    {below : List Int64} (hstack : pen.shadow.stack = ⟨a :: below⟩)
    (hroom : pen.tip.Room pen.shadow.dp 1) :
    ∃ pen', pen.stroke (.op .pointer) 1 = (pen', none) ∧ Traced input (n + 1) pen' ∧
      pen.Along 1 pen' ∧ pen'.tip.Paintable ∧ pen'.size? = some 1 ∧
      pen'.shadow = { pen.shadow with
        stack := ⟨below⟩
        dp := pen.shadow.dp.rotate a.toInt } := by
  obtain ⟨p, hadvance, htraced, halong, hp, -⟩ :=
    h.advance hroom (Ink.op_ne_black .pointer)
  obtain ⟨hw, hk⟩ := not_onWhite_of_size? hsize
  have hs : pen.Starts .pointer := .inr Instruction.noConfusion
  rw [paces, if_pos hs] at htraced
  refine ⟨_, ?_, htraced, halong, hp, ?_, ?_⟩
  · rw [stroke_succ hadvance]
    rfl
  · rw [size?, if_neg (not_onWhite_lay_op hs p), block_lay_op hs]
    rfl
  · rw [shadow_lay_op, leave, if_neg hw, execute_pointer hstack]

theorem padding?_eq (hwithin : pen.Within width) {turns : ℕ}
    (hspare : turnLength turns ≤ pen.spare width rightward) :
    Compose.padding? width pen.tip.x turns rightward =
      some (pen.spare width rightward - turnLength turns) := by
  obtain ⟨hx, -⟩ := hwithin
  cases rightward with
  | true =>
    simp only [spare, if_true] at hspare ⊢
    rw [Compose.padding?, if_pos rfl, if_pos (by omega)]
    congr 1
    omega
  | false =>
    simp only [spare, Bool.false_eq_true, if_false] at hspare ⊢
    rw [Compose.padding?, if_neg Bool.false_ne_true, if_pos hspare]

/-- The first part of a turn leads out to the edge, where the number of quarter turns has been
pushed twice. -/
theorem InLane.strokes_out (h : InLane input n width rightward pen)
    (hwidth : width ≤ Canvas.maxWidth)
    (hspare : turnLength (turnsOf rightward) ≤ pen.spare width rightward) (rest : List Stroke) :
    ∃ pen' k, pen.strokes
        (⟨.white, 1 + (pen.spare width rightward - turnLength (turnsOf rightward))⟩ ::
          ⟨.op .noop, turnsOf rightward⟩ :: ⟨.op .push, 1⟩ :: ⟨.op .duplicate, 1⟩ :: rest) =
        pen'.strokes rest ∧
      Comes input (n + 4) pen (pen.spare width rightward - 1)
        { pen.shadow with
          stack := ⟨[Int64.ofNat (turnsOf rightward), Int64.ofNat (turnsOf rightward)]⟩ }
        (some k) pen' := by
  obtain ⟨k, hsize⟩ := h.solid
  obtain ⟨hw, -⟩ := not_onWhite_of_size? hsize
  obtain ⟨t, ht⟩ : ∃ t, turnsOf rightward = t + 1 := by
    cases rightward
    · exact ⟨2, rfl⟩
    · exact ⟨0, rfl⟩
  obtain ⟨c, hc⟩ : ∃ c, pen.spare width rightward = c + turnLength (turnsOf rightward) :=
    ⟨_, (Nat.sub_add_cancel hspare).symm⟩
  have hlength : turnLength (turnsOf rightward) = t + 1 + 4 := by
    rw [turnLength, ht]
    omega
  have hroom : pen.tip.Room pen.shadow.dp (c + 1 + (t + 1) + 2) := h.room hwidth (by omega)
  obtain ⟨pen₁, hstrokes₁, h₁⟩ := h.ready.strokes_enter hw (hroom.mono (Nat.le_add_right _ _))
  have hroom₁ : pen₁.tip.Room pen₁.shadow.dp 2 := by
    rw [h₁.shadow]
    exact h₁.along.room hroom
  obtain ⟨pen₂, k', hstrokes₂, h₂, -⟩ := h₁.ready.strokes_ops h₁.size
    (l := [⟨.op .push, 1⟩, ⟨.op .duplicate, 1⟩]) (by decide) hroom₁
  have hthrough := through_turn h.stack rightward
  rw [ht] at hthrough
  rw [h₁.shadow, hthrough] at h₂
  refine ⟨pen₂, k', ?_, ?_⟩
  · rw [hc, Nat.add_sub_cancel, Nat.add_comm 1 c, ht]
    exact (strokes_append hstrokes₁ _).trans (strokes_append hstrokes₂ rest)
  · have hall := h₁.trans h₂ rfl
    have hcount : c + 1 + (t + 1) + Stroke.totalCount [⟨.op .push, 1⟩, ⟨.op .duplicate, 1⟩] =
        pen.spare width rightward - 1 := by
      rw [hc, hlength]
      simp only [Stroke.totalCount_cons, Stroke.totalCount_nil]
      omega
    rw [hcount] at hall
    rw [ht]
    exact hall

/-- A new lane is clear, if everything was painted two rows above or in the column of the tip. -/
theorem clearAhead_below (hdp : pen.shadow.dp = heading rightward)
    (hpainted : ∀ q, pen.canvas.get? q ≠ none → q.x = pen.tip.x ∨ q.y + 2 ≤ pen.tip.y) :
    pen.ClearAhead := by
  intro q hq hbeside
  rw [hdp] at hbeside ⊢
  have habove := hbeside .up (Compose.down_across_heading rightward).back
  simp only [Direction.reach] at habove
  have hcolumn : q.x = pen.tip.x := (hpainted q hq).resolve_right (by omega)
  cases rightward <;> simp only [heading, Direction.reach, Bool.false_eq_true, if_true,
    if_false] <;> omega

/-- The second part of a turn leads down along the edge and into the next lane. -/
theorem Ready.strokes_down (h : Ready input n pen) {k : ℕ} (hsize : pen.size? = some k)
    (hdp : pen.shadow.dp = heading rightward) (hcc : pen.shadow.cc = .left)
    (hstack : pen.shadow.stack =
      ⟨[Int64.ofNat (turnsOf rightward), Int64.ofNat (turnsOf rightward)]⟩)
    (hwithin : pen.Within width) (hspare : pen.spare width rightward = 1)
    (hroom : pen.tip.Room pen.shadow.dp 1) (hheight : pen.tip.y + 2 < Canvas.maxHeight) :
    ∃ pen', pen.strokes [⟨.op .pointer, 1⟩, ⟨.op .noop, 1⟩, ⟨.op .pointer, 1⟩] = (pen', none) ∧
      InLane input (n + 2) width (!rightward) pen' ∧
      pen'.shadow = { pen.shadow with
        stack := .empty
        dp := heading !rightward } ∧
      pen'.tip.y = pen.tip.y + 2 ∧ pen'.spare width (!rightward) = width - 1 := by
  have hturns : (Int64.ofNat (turnsOf rightward)).toInt = turnsOf rightward := by
    cases rightward <;> decide
  obtain ⟨hdown, hnext⟩ := Compose.rotate_heading rightward
  -- At the edge the pen turns down.
  obtain ⟨pen₁, hpoint₁, htraced₁, halong₁, hp₁, hsize₁, hshadow₁⟩ := h.point hsize hstack hroom
  rw [hturns, hdp, hdown] at hshadow₁
  obtain ⟨hwithin₁, hrow₁, hspare₁⟩ := halong₁.lane hdp hwithin hspare.ge
  have hdp₁ : pen₁.shadow.dp = .down := by rw [hshadow₁]
  have hclear₁ : pen₁.ClearAhead := by
    intro q hq _
    obtain ⟨-, hy⟩ := hwithin₁.2 q hq
    rw [hdp₁]
    exact Int.ofNat_le.mpr hy
  have hroom₁ : pen₁.tip.Room pen₁.shadow.dp 2 := by
    rw [hdp₁]
    simp only [Pos.Room]
    omega
  -- One cell further down it turns again.
  obtain ⟨hw₁, -⟩ := not_onWhite_of_size? hsize₁
  obtain ⟨pen₂, hnoop₂, h₂⟩ :=
    Ready.stroke_noop ⟨htraced₁, hclear₁, hp₁⟩ hw₁ (hroom₁.mono (Nat.le_succ 1))
  obtain ⟨hwithin₂, hrow₂, hcolumn₂, hnew₂⟩ := h₂.along.edge hdp₁ hwithin₁
  have hdp₂ : pen₂.shadow.dp = .down := by rw [h₂.shadow, hdp₁]
  have hroom₂ : pen₂.tip.Room pen₂.shadow.dp 1 := by
    rw [h₂.shadow]
    exact h₂.along.room hroom₁
  obtain ⟨pen₃, hpoint₃, htraced₃, halong₃, hp₃, hsize₃, hshadow₃⟩ :=
    h₂.ready.point h₂.size (by rw [h₂.shadow, hshadow₁]) hroom₂
  rw [hturns, hdp₂, hnext, h₂.shadow, hshadow₁] at hshadow₃
  obtain ⟨hwithin₃, hrow₃, hcolumn₃, hnew₃⟩ := halong₃.edge hdp₂ hwithin₂
  have hdp₃ : pen₃.shadow.dp = heading !rightward := by rw [hshadow₃]
  have hclear₃ : pen₃.ClearAhead := by
    refine clearAhead_below hdp₃ fun q hq => ?_
    rcases hnew₃ q hq with hq | hq
    · rcases hnew₂ q hq with hq | hq
      · obtain ⟨-, hy⟩ := hwithin₁.2 q hq
        exact .inr (by omega)
      · exact .inl (by omega)
    · exact .inl (by omega)
  refine ⟨pen₃, ?_, ⟨⟨htraced₃, hclear₃, hp₃⟩, ⟨_, hsize₃⟩, hdp₃, ?_, ?_, hwithin₃⟩, hshadow₃,
    ?_, ?_⟩
  · rw [strokes_cons hpoint₁, strokes_cons hnoop₂, strokes_cons hpoint₃]
    rfl
  · rw [hshadow₃]
    exact hcc
  · rw [hshadow₃]
    rfl
  · omega
  · obtain ⟨hx, -⟩ := hwithin₁
    cases rightward <;> simp only [spare, Bool.not_false, Bool.not_true, Bool.false_eq_true,
      if_true, if_false] at hspare hspare₁ ⊢ <;> omega

/-- **Turning around** leads to the beginning of the next lane, two rows below. -/
theorem InLane.turnAround (h : InLane input n width rightward pen)
    (hwidth : width ≤ Canvas.maxWidth)
    (hspare : turnLength (turnsOf rightward) ≤ pen.spare width rightward)
    (hheight : pen.tip.y + 2 < Canvas.maxHeight) :
    ∃ pen', Compose.turnAround pen width rightward = (pen', none) ∧
      InLane input (n + 6) width (!rightward) pen' ∧
      pen'.shadow = { pen.shadow with dp := heading !rightward } ∧
      pen'.tip.y = pen.tip.y + 2 ∧ pen'.spare width (!rightward) = width - 1 := by
  have hpos : 1 ≤ pen.spare width rightward := by
    rw [turnLength] at hspare
    omega
  obtain ⟨pen₁, k, hout, h₁⟩ := h.strokes_out hwidth hspare
    [⟨.op .pointer, 1⟩, ⟨.op .noop, 1⟩, ⟨.op .pointer, 1⟩]
  obtain ⟨hwithin₁, hrow₁, hspare₁⟩ := h₁.along.lane h.dp h.within (Nat.sub_le _ _)
  have hroom₁ : pen₁.tip.Room pen₁.shadow.dp 1 := by
    rw [h₁.shadow]
    refine h₁.along.room (h.room hwidth ?_)
    omega
  have hdp₁ : pen₁.shadow.dp = heading rightward := by rw [h₁.shadow, h.dp]
  have hcc₁ : pen₁.shadow.cc = .left := by rw [h₁.shadow, h.cc]
  obtain ⟨pen₂, hdown, h₂, hshadow₂, hrow₂, hspare₂⟩ := h₁.ready.strokes_down h₁.size hdp₁ hcc₁
    (by rw [h₁.shadow]) hwithin₁ (by omega) hroom₁ (by omega)
  refine ⟨pen₂, ?_, h₂, ?_, by omega, hspare₂⟩
  · have hpadding := padding?_eq h.within hspare
    rw [turnsOf] at hpadding hout
    simp only [Compose.turnAround, hpadding]
    exact hout.trans hdown
  · rw [hshadow₂, h₁.shadow, ← h.stack]

/-- **The dead end fits behind the last lane.** -/
theorem InLane.close (h : InLane input n width rightward pen)
    (hspare : 3 ≤ pen.spare width rightward) (hwidth : width + 5 ≤ Canvas.maxWidth)
    (hheight : pen.tip.y + 5 < Canvas.maxHeight) :
    ∃ pen', pen.close (if rightward then .right else .left) = (pen', none) ∧
      Finished input (n + 2) pen' ∧ pen'.shadow = pen.shadow := by
  obtain ⟨k, hsize⟩ := h.solid
  obtain ⟨hw, -⟩ := not_onWhite_of_size? hsize
  obtain ⟨hx, hbelow⟩ := h.within
  have hs : pen.shadow.dp.rotate (if rightward then Bearing.right else .left).turns = .down := by
    rw [h.dp, Compose.rotate_heading_close]
  have has : pen.shadow.dp.Across .down := h.dp ▸ Compose.down_across_heading rightward
  have hside : ∀ q, pen.canvas.get? q ≠ none →
      Direction.down.reach q ≤ Direction.down.reach pen.tip := fun q hq =>
    Int.ofNat_le.mpr (hbelow q hq).2
  have hbeside : pen.tip.Room .down 1 := by
    simp only [Pos.Room]
    omega
  exact h.ready.close hw hs has hside (h.room (by omega) hspare) hbeside ⟨by omega, by omega⟩

end Pen

end Piet
