import Piet.Proofs.Paint.Kept
import Piet.Proofs.Paint.Layout

/-!
# Painting the lanes

Lanes of bytes are painted by alternating the steps of the layout: the bytes of a lane, then a
turn, and the dead end after the last one.  `Compose.paintTurned` paints lanes each of which turns
around into the next one, and painting all lanes goes on from there (`Compose.paintLanes_append`).

* `Pen.InLane.turned`: where the pen is, and what its machine has done, after so many lanes.
* `Pen.InLane.exists_close`: so all lanes are painted up to the dead end behind the last one, and
  with it they are a finished program (`Pen.InLane.paintLanes`).
* `Pen.InLane.paintLanes_alike`: every lane leaves the stack empty, so the turns are the same for
  any input, and so is the picture.
-/

namespace Piet

namespace Compose

variable {width : ℕ} {rightward : Bool}

/-! ### Lanes that turn around -/

/-- The direction of a lane that comes so many lanes after another one. -/
def laneSide (rightward : Bool) (n : ℕ) : Bool :=
  rightward == decide (n % 2 = 0)

@[simp]
theorem laneSide_zero (rightward : Bool) : laneSide rightward 0 = rightward := by
  cases rightward <;> rfl

@[simp]
theorem laneSide_succ (rightward : Bool) (n : ℕ) :
    laneSide rightward (n + 1) = laneSide (!rightward) n := by
  have hnext : (n + 1) % 2 = 0 ↔ ¬ n % 2 = 0 := by omega
  rw [laneSide, laneSide, decide_eq_decide.mpr hnext, decide_not]
  cases rightward <;> cases decide (n % 2 = 0) <;> rfl

/-- Lanes run rightward and leftward in turn. -/
theorem laneSide_true_succ (idx : ℕ) : laneSide true (idx + 1) = decide (idx % 2 = 1) := by
  have hodd : idx % 2 = 1 ↔ ¬ idx % 2 = 0 := by omega
  rw [laneSide_succ, laneSide, decide_eq_decide.mpr hodd, decide_not]
  cases decide (idx % 2 = 0) <;> rfl

/-- Paints lanes that turn around at their ends, alternately rightward and leftward. -/
def paintTurned (width : ℕ) (pen : Pen) (rightward : Bool) :
    List (List Stroke) → Pen × Option Error
  | [] => (pen, none)
  | lane :: rest =>
    Pen.goOn (pen.strokes lane) fun pen =>
      Pen.goOn (turnAround pen width rightward) fun pen => paintTurned width pen (!rightward) rest

/-- **Painting the lanes** goes on from where the first of them have turned around. -/
theorem paintLanes_append (pen : Pen) {rest : List (List Stroke)} (hrest : rest ≠ [])
    (front : List (List Stroke)) :
    paintLanes width pen rightward (front ++ rest) =
      Pen.goOn (paintTurned width pen rightward front) fun pen =>
        paintLanes width pen (laneSide rightward front.length) rest := by
  induction front generalizing pen rightward with
  | nil => rw [List.nil_append, List.length_nil, laneSide_zero, paintTurned, Pen.goOn]
  | cons lane front ih =>
    have hmore : (front ++ rest).isEmpty = false := by
      rw [List.isEmpty_eq_false_iff]
      exact List.append_ne_nil_of_right_ne_nil front hrest
    simp only [List.cons_append, Pen.paintLanes_eq_goOn, hmore, Bool.false_eq_true, if_false,
      paintTurned, Pen.goOn_assoc, ih, List.length_cons, laneSide_succ]

/-- Painting goes on from a pen that has turned around behind the first `n` lanes. -/
theorem paintLanes_of_turned {pen pen' : Pen} {n : ℕ} {lanes : List (List Stroke)}
    (h : paintTurned width pen rightward (lanes.take n) = (pen', none)) (hn : n < lanes.length) :
    paintLanes width pen rightward lanes =
      paintLanes width pen' (laneSide rightward n) (lanes.drop n) := by
  have hrest : lanes.drop n ≠ [] := by
    rw [Ne, List.drop_eq_nil_iff]
    exact Nat.not_le_of_lt hn
  have hlength : (lanes.take n).length = n := List.length_take_of_le hn.le
  calc paintLanes width pen rightward lanes =
        paintLanes width pen rightward (lanes.take n ++ lanes.drop n) := by
        rw [List.take_append_drop]
    _ = paintLanes width pen' (laneSide rightward n) (lanes.drop n) := by
        rw [paintLanes_append pen hrest, h, Pen.goOn, hlength]

end Compose

namespace Payload

/-- The strokes of some bytes in a row. -/
def laneStrokes (keyed : Bool) (bytes : List UInt8) : List Stroke :=
  (bytes.map (byteStrokes keyed)).flatten

/-- The steps that the pointer takes to the dead end behind some lanes. -/
def laneSteps (keyed : Bool) (lanes : List (List UInt8)) : ℕ :=
  (lanes.flatten.map (byteSteps keyed)).sum + 6 * (lanes.length - 1) + 2

/-- No byte steers the pointer. -/
theorem keeps_laneStrokes (keyed : Bool) (bytes : List UInt8) :
    ∀ s ∈ laneStrokes keyed bytes, ∀ i, s.ink = .op i → Machine.Keeps Machine.SameHeading i := by
  intro s hs i hi
  rw [laneStrokes, List.mem_flatten] at hs
  obtain ⟨strokes, hmem, hs⟩ := hs
  obtain ⟨b, -, rfl⟩ := List.mem_map.mp hmem
  rw [byteStrokes_eq, List.mem_cons, List.mem_cons] at hs
  rcases hs with rfl | rfl | hs
  · cases hi
  · cases hi
    exact Machine.keeps_noop _
  · have hquiet := quiet_printStrokes keyed b s hs
    obtain ⟨ink, count⟩ := s
    obtain rfl : ink = .op i := hi
    obtain ⟨-, hsteer, -⟩ := hquiet
    exact Machine.keeps_sameHeading hsteer

end Payload

theorem Machine.printBytes_append (keyed : Bool) (m : Machine) (bytes bytes' : List UInt8) :
    m.printBytes keyed (bytes ++ bytes') = (m.printBytes keyed bytes).printBytes keyed bytes' :=
  List.foldl_append

theorem Machine.printBytes_turn (keyed : Bool) (m : Machine) (d : Direction) (bytes : List UInt8) :
    ({ m with dp := d } : Machine).printBytes keyed bytes =
      { m.printBytes keyed bytes with dp := d } := by
  induction bytes generalizing m with
  | nil => rfl
  | cons b bytes ih =>
    have hbyte : ({ m with dp := d } : Machine).printByte keyed b =
        { m.printByte keyed b with dp := d } := by
      cases keyed with
      | false => rfl
      | true =>
        simp only [printByte, if_true]
        cases m.input.next? <;> rfl
    exact (congrArg (Machine.printBytes keyed · bytes) hbyte).trans (ih _)

namespace Pen

open Compose (heading turnsOf turnLength)
open Payload (byteSteps laneStrokes laneSteps)

variable {pen pen' pen₁ pen₂ : Pen} {input input' : Array UInt8} {n n' width : ℕ}
  {rightward keyed : Bool} {bytes bytes' : List UInt8} {lanes front rest : List (List UInt8)}

/-! ### From lane to lane -/

/-- Some lanes fit into the picture from where the pen is, the first of them in its row. -/
structure Fits (width : ℕ) (rightward keyed : Bool) (lanes : List (List UInt8)) (pen : Pen) :
    Prop where
  spare : pen.spare width rightward = width - 1
  lane : ∀ bytes ∈ lanes, Stroke.totalCount (laneStrokes keyed bytes) + 9 ≤ width
  narrow : width ≤ Compose.maxSide
  low : pen.tip.y + 2 * lanes.length ≤ Compose.maxSide

theorem Fits.congr (h : pen.Fits width rightward keyed lanes) (htip : pen'.tip = pen.tip) :
    pen'.Fits width rightward keyed lanes where
  spare := by
    rw [← h.spare, Pen.spare, Pen.spare, htip]
  lane := h.lane
  narrow := h.narrow
  low := by
    rw [htip]
    exact h.low

/-- A pen that has room for whole lanes is at the edge where they begin. -/
theorem Fits.tip_x (h : pen.Fits width rightward keyed lanes) (hx : pen.tip.x < width) :
    pen.tip.x = if rightward then 0 else width - 1 := by
  have hspare := h.spare
  rw [Pen.spare] at hspare
  cases rightward with
  | true =>
    rw [if_pos rfl] at hspare ⊢
    omega
  | false => exact hspare

/-- A canvas can be larger than a composed picture. -/
theorem maxSide_le : Compose.maxSide + 5 ≤ Canvas.maxWidth ∧
    Compose.maxSide + 5 ≤ Canvas.maxHeight := by
  decide

/-- A lane that fits can be painted, and leaves room for a turn or the dead end. -/
theorem InLane.lane (h : InLane input n width rightward pen)
    (hfits : pen.Fits width rightward keyed (bytes :: lanes)) :
    ∃ pen', pen.strokes (laneStrokes keyed bytes) = (pen', none) ∧
      InLane input (n + (bytes.map (byteSteps keyed)).sum) width rightward pen' ∧
      pen'.shadow = pen.shadow.printBytes keyed bytes ∧ pen'.tip.y = pen.tip.y ∧
      8 ≤ pen'.spare width rightward := by
  obtain ⟨hwidth, -⟩ := maxSide_le
  have hnarrow := hfits.narrow
  have hspare := hfits.spare
  have hlane := hfits.lane bytes List.mem_cons_self
  rw [laneStrokes] at hlane ⊢
  obtain ⟨pen', hstrokes, h', hshadow, hrow, hspare'⟩ := h.bytes (by omega) keyed bytes (by omega)
  exact ⟨pen', hstrokes, h', hshadow, hrow, by omega⟩

/-- **From one lane to the next**, which is two rows below and runs the other way. -/
theorem InLane.next (h : InLane input n width rightward pen)
    (hfits : pen.Fits width rightward keyed (bytes :: bytes' :: lanes)) :
    ∃ pen₁ pen₂, pen.strokes (laneStrokes keyed bytes) = (pen₁, none) ∧
      pen₁.shadow.stack = .empty ∧ Compose.turnAround pen₁ width rightward = (pen₂, none) ∧
      InLane input (n + (bytes.map (byteSteps keyed)).sum + 6) width (!rightward) pen₂ ∧
      pen₂.shadow = { pen.shadow.printBytes keyed bytes with dp := heading !rightward } ∧
      pen₂.Fits width (!rightward) keyed (bytes' :: lanes) ∧ pen₂.tip.y = pen.tip.y + 2 := by
  obtain ⟨hwidth, hheight⟩ := maxSide_le
  have hnarrow := hfits.narrow
  have hlow := hfits.low
  have hturn : turnLength (turnsOf rightward) ≤ 7 := by cases rightward <;> decide
  simp only [List.length_cons] at hlow
  obtain ⟨pen₁, hstrokes, h₁, hshadow₁, hrow₁, hspare₁⟩ := h.lane hfits
  obtain ⟨pen₂, haround, h₂, hshadow₂, hrow₂, hspare₂⟩ :=
    h₁.turnAround (by omega) (by omega) (by omega)
  rw [hshadow₁] at hshadow₂
  refine ⟨pen₁, pen₂, hstrokes, h₁.stack, haround, h₂, hshadow₂, ⟨hspare₂, ?_, hnarrow, ?_⟩,
    by omega⟩
  · exact (List.forall_mem_cons.mp hfits.lane).2
  · rw [List.length_cons]
    omega

theorem paintLanes_last {strokes : List Stroke} (h : pen.strokes strokes = (pen₁, none)) :
    Compose.paintLanes width pen rightward [strokes] =
      pen₁.close (if rightward then .right else .left) := by
  simp only [Compose.paintLanes, h, List.isEmpty_nil, if_true]

theorem paintLanes_cons {strokes strokes' : List Stroke} {rest : List (List Stroke)}
    (h : pen.strokes strokes = (pen₁, none))
    (hturn : Compose.turnAround pen₁ width rightward = (pen₂, none)) :
    Compose.paintLanes width pen rightward (strokes :: strokes' :: rest) =
      Compose.paintLanes width pen₂ (!rightward) (strokes' :: rest) := by
  rw [Compose.paintLanes, h]
  simp only [List.isEmpty_cons, Bool.false_eq_true, if_false, hturn]

/-! ### All lanes -/

/-- **After some lanes and their turns** the pen is at the beginning of the next one. -/
theorem InLane.turned (h : InLane input n width rightward pen)
    (hfits : pen.Fits width rightward keyed (front ++ rest)) (hrest : rest ≠ []) :
    let side := Compose.laneSide rightward front.length
    ∃ pen', Compose.paintTurned width pen rightward (front.map (laneStrokes keyed)) = (pen', none) ∧
      InLane input (n + (front.flatten.map (byteSteps keyed)).sum + 6 * front.length) width side
        pen' ∧
      pen'.shadow = { pen.shadow.printBytes keyed front.flatten with dp := heading side } ∧
      pen'.Fits width side keyed rest ∧ pen'.tip.y = pen.tip.y + 2 * front.length := by
  induction front generalizing pen n rightward with
  | nil =>
    simp only [List.length_nil, Compose.laneSide_zero]
    refine ⟨pen, rfl, h, ?_, hfits, rfl⟩
    rw [← h.dp]
    rfl
  | cons bytes front ih =>
    -- Some lane follows, so this one turns around.
    obtain ⟨bytes', lanes, hlanes⟩ :=
      List.exists_cons_of_ne_nil (List.append_ne_nil_of_right_ne_nil front hrest)
    rw [List.cons_append, hlanes] at hfits
    obtain ⟨pen₁, pen₂, hstrokes, -, hturn, h₂, hshadow₂, hfits₂, hrow₂⟩ := h.next hfits
    rw [← hlanes] at hfits₂
    obtain ⟨pen₃, hpaint, h₃, hshadow₃, hfits₃, hrow₃⟩ := ih h₂ hfits₂
    simp only [List.length_cons, Compose.laneSide_succ]
    refine ⟨pen₃, ?_, ?_, ?_, hfits₃, by omega⟩
    · rw [List.map_cons, Compose.paintTurned, hstrokes, goOn, hturn]
      exact hpaint
    · have hsteps : n + (bytes.map (byteSteps keyed)).sum + 6 +
          (front.flatten.map (byteSteps keyed)).sum + 6 * front.length =
          n + ((bytes :: front).flatten.map (byteSteps keyed)).sum + 6 * (front.length + 1) := by
        simp only [List.flatten_cons, List.map_append, List.sum_append]
        omega
      rwa [hsteps] at h₃
    · rw [hshadow₃, hshadow₂, Machine.printBytes_turn, ← Machine.printBytes_append]
      rfl

/-- **All lanes** are painted up to the dead end behind the last one. -/
theorem InLane.exists_close (h : InLane input n width rightward pen)
    (hfits : pen.Fits width rightward keyed lanes) (hne : lanes ≠ []) :
    ∃ pen' side, Compose.paintLanes width pen rightward (lanes.map (laneStrokes keyed)) =
        pen'.close (if side then .right else .left) ∧
      InLane input (n + (lanes.flatten.map (byteSteps keyed)).sum + 6 * (lanes.length - 1)) width
        side pen' ∧
      pen'.shadow = { pen.shadow.printBytes keyed lanes.flatten with dp := heading side } ∧
      pen'.tip.y + 2 = pen.tip.y + 2 * lanes.length ∧ 8 ≤ pen'.spare width side := by
  obtain ⟨front, bytes, rfl⟩ := (List.eq_nil_or_concat' lanes).resolve_left hne
  obtain ⟨pen₁, hturned, h₁, hshadow₁, hfits₁, hrow₁⟩ := h.turned hfits (List.cons_ne_nil _ _)
  obtain ⟨pen₂, hstrokes, h₂, hshadow₂, hrow₂, hspare₂⟩ := h₁.lane hfits₁
  have hlength : (front ++ [bytes]).length = front.length + 1 := List.length_append
  refine ⟨pen₂, _, ?_, ?_, ?_, by omega, hspare₂⟩
  · rw [List.map_append, Compose.paintLanes_append pen (by simp) _, hturned, goOn, List.length_map]
    exact paintLanes_last hstrokes
  · have hsteps : n + (front.flatten.map (byteSteps keyed)).sum + 6 * front.length +
        (bytes.map (byteSteps keyed)).sum =
        n + ((front ++ [bytes]).flatten.map (byteSteps keyed)).sum +
          6 * ((front ++ [bytes]).length - 1) := by
      rw [hlength, List.flatten_concat, List.map_append, List.sum_append]
      omega
    rwa [hsteps] at h₂
  · rw [hshadow₂, hshadow₁, Machine.printBytes_turn, ← Machine.printBytes_append,
      List.flatten_concat]

/-- **Painting the lanes** ends in a dead end behind the last one, and prints all their bytes. -/
theorem InLane.paintLanes (h : InLane input n width rightward pen)
    (hfits : pen.Fits width rightward keyed lanes) (hne : lanes ≠ []) :
    ∃ pen', Compose.paintLanes width pen rightward (lanes.map (laneStrokes keyed)) = (pen', none) ∧
      Finished input (n + laneSteps keyed lanes) pen' ∧
      ∃ d, pen'.shadow = { pen.shadow.printBytes keyed lanes.flatten with dp := d } := by
  obtain ⟨hwidth, hheight⟩ := maxSide_le
  have hnarrow := hfits.narrow
  have hlow := hfits.low
  obtain ⟨pen₁, side, hpaint, h₁, hshadow₁, hrow₁, hspare₁⟩ := h.exists_close hfits hne
  obtain ⟨pen₂, hclose, h₂, hshadow₂⟩ := h₁.close (by omega) (by omega) (by omega)
  refine ⟨pen₂, hpaint.trans hclose, ?_, heading side, hshadow₂.trans hshadow₁⟩
  simpa only [laneSteps, Nat.add_assoc] using h₂

/-- **The lanes are painted alike** by two pens that are given different bytes to read. -/
theorem InLane.paintLanes_alike (h : InLane input n width rightward pen)
    (h' : InLane input' n' width rightward pen') (halike : Alike Machine.SameHeading pen pen')
    (hfits : pen.Fits width rightward keyed lanes) :
    AlikeAfter Machine.SameHeading
      (Compose.paintLanes width pen rightward (lanes.map (laneStrokes keyed)))
      (Compose.paintLanes width pen' rightward (lanes.map (laneStrokes keyed))) := by
  induction lanes generalizing pen pen' n n' rightward with
  | nil => exact ⟨rfl, halike⟩
  | cons bytes lanes ih =>
    have hfits' : pen'.Fits width rightward keyed (bytes :: lanes) := hfits.congr halike.tip.symm
    have hbytes :=
      halike.strokes Machine.guides_sameHeading (Payload.keeps_laneStrokes keyed bytes)
    cases lanes with
    | nil =>
      obtain ⟨pen₁, hstrokes, -⟩ := h.lane hfits
      obtain ⟨pen₁', hstrokes', -⟩ := h'.lane hfits'
      rw [hstrokes, hstrokes'] at hbytes
      rw [List.map_singleton, paintLanes_last hstrokes, paintLanes_last hstrokes']
      exact hbytes.2.close Machine.guides_sameHeading _
    | cons bytes' lanes =>
      obtain ⟨pen₁, pen₂, hstrokes, hstack, hturn, h₂, -, hfits₂, -⟩ := h.next hfits
      obtain ⟨pen₁', pen₂', hstrokes', hstack', hturn', h₂', -⟩ := h'.next hfits'
      rw [hstrokes, hstrokes'] at hbytes
      -- After a lane both stacks are empty, so the turns are the same.
      have hwork : Machine.SameWork pen₁.shadow pen₁'.shadow :=
        ⟨hstack.trans hstack'.symm, hbytes.2.shadow⟩
      have hturned := (hbytes.2.mono hwork).turnAround width rightward
      rw [hturn, hturn'] at hturned
      rw [List.map_cons, List.map_cons, paintLanes_cons hstrokes hturn,
        paintLanes_cons hstrokes' hturn']
      exact ih h₂ h₂' (hturned.2.mono hturned.2.shadow.2) hfits₂

/-! ### The beginning -/

/-- A pen that has painted the first pixel is in the first lane. -/
theorem InLane.start (input : Array UInt8) (hwidth : 0 < width) :
    InLane input 0 width true (.start input) := by
  have hpaintable : Pos.origin.Paintable := by decide
  have hpainted : ∀ q, (Pen.start input).canvas.get? q ≠ none → q = .origin := by
    intro q hq
    by_contra hne
    exact hq ((Canvas.get?_set hpaintable _ q).trans ((if_neg hne).trans (Canvas.get?_empty q)))
  refine ⟨⟨Traced.start input, fun q hq _ => ?_, hpaintable⟩, ⟨1, rfl⟩, rfl, rfl, rfl, hwidth,
    fun q hq => ?_⟩
  · rw [hpainted q hq]
    rfl
  · rw [hpainted q hq]
    exact ⟨hwidth, le_rfl⟩

end Pen

end Piet
