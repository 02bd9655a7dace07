import Piet.Proofs.Paint.Alike

/-!
# What painting keeps

Everything that a pen does is painting cells one by one, and a cell that cannot be painted leaves
the pen as it was.  So what laying a free cell keeps (`Pen.Kept`) is kept by every command, whether
that fails halfway or not (`Pen.Kept.command`), by any number of commands (`Pen.Kept.commands`), and
by the lanes of a picture (`Pen.Kept.paintLanes`).

A cell that has been painted keeps its colour, whatever the pen is told to do afterwards and whether
that fails or not (`Pen.kept_color`): only empty cells are painted.  A command for a single cell
either paints it or leaves the whole pen as it was, with its block, its tip and its machine
(`Pen.paint_of_error`, `Pen.paintAt_of_error`).  A stroke that fails is a shorter stroke that
succeeds, and a cell after it that is refused (`Pen.stroke_of_error`).  So a failure never comes
between what has been painted and what the machine has executed.

`Pen.command_adds` puts this together.
-/

namespace Piet

namespace Pen

/-- A property of pens that laying a free cell keeps. -/
def Kept (P : Pen → Prop) : Prop :=
  ∀ pen ink p, P pen → pen.Free ink p → P (pen.lay ink p)

/-! ### Commands -/

/-- Whatever a pen can be told to do. -/
inductive Command where
  /-- A cell anywhere. -/
  | paint (ink : Ink) (p : Pos)
  /-- So many cells, each where the pointer goes next. -/
  | stroke (ink : Ink) (count : ℕ)
  /-- A cell beside the tip. -/
  | paintAt (ink : Ink) (b : Bearing)
  /-- The dead end at which a program ends. -/
  | close (b : Bearing)
deriving DecidableEq

/-- Carries out a command, which may fail. -/
def command (pen : Pen) : Command → Pen × Option Error
  | .paint ink p => pen.paint ink p
  | .stroke ink count => pen.stroke ink count
  | .paintAt ink b => pen.paintAt ink b
  | .close b => pen.close b

/-- Carries out commands one after another, whether they fail or not. -/
def commands (pen : Pen) : List Command → Pen
  | [] => pen
  | c :: script => (pen.command c).1.commands script

theorem paintLanes_eq_goOn (width : ℕ) (pen : Pen) (rightward : Bool) (lane : List Stroke)
    (rest : List (List Stroke)) :
    Compose.paintLanes width pen rightward (lane :: rest) =
      goOn (pen.strokes lane) fun pen =>
        if rest.isEmpty then pen.close (if rightward then .right else .left)
        else goOn (Compose.turnAround pen width rightward) fun pen =>
          Compose.paintLanes width pen (!rightward) rest := by
  rw [Compose.paintLanes]
  rcases pen.strokes lane with ⟨pen₁, _ | e⟩
  · simp only [goOn]
    split
    · rfl
    · rcases Compose.turnAround pen₁ width rightward with ⟨pen₂, _ | e⟩ <;> rfl
  · rfl

/-! ### From one cell to all of them -/

namespace Kept

variable {P : Pen → Prop} {pen : Pen}

theorem goOn {r : Pen × Option Error} {f : Pen → Pen × Option Error} (hr : P r.1)
    (hf : ∀ pen, P pen → P (f pen).1) : P (Pen.goOn r f).1 := by
  obtain ⟨pen, _ | e⟩ := r
  · exact hf pen hr
  · exact hr

theorem paint (hP : Kept P) (h : P pen) (ink : Ink) (p : Pos) : P (pen.paint ink p).1 := by
  rcases pen.paint_cases ink p with ⟨hfree, hpaint⟩ | ⟨e, hpaint⟩
  · rw [hpaint]
    exact hP pen ink p h hfree
  · rw [hpaint]
    exact h

theorem advance (hP : Kept P) (h : P pen) (ink : Ink) : P (pen.advance ink).1 := by
  rw [Pen.advance]
  split
  · exact hP.paint h ink _
  · exact h

theorem stroke (hP : Kept P) (h : P pen) (ink : Ink) (count : ℕ) :
    P (pen.stroke ink count).1 := by
  induction count generalizing pen ink with
  | zero => exact h
  | succ count ih => exact goOn (hP.advance h ink) fun _ h₁ => ih h₁ _

theorem paintAt (hP : Kept P) (h : P pen) (ink : Ink) (b : Bearing) :
    P (pen.paintAt ink b).1 := by
  rw [Pen.paintAt]
  split
  · exact hP.paint h ink _
  · exact h

theorem strokes (hP : Kept P) (h : P pen) (l : List Stroke) : P (pen.strokes l).1 := by
  induction l generalizing pen with
  | nil => exact h
  | cons s l ih => exact goOn (hP.stroke h s.ink s.count) fun _ h₁ => ih h₁

theorem paintAll (hP : Kept P) (h : P pen) (ink : Ink) (ps : List Pos) :
    P (pen.paintAll ink ps).1 := by
  induction ps generalizing pen with
  | nil => exact h
  | cons p ps ih => exact goOn (hP.paint h ink p) fun _ h₁ => ih h₁

theorem paintWalls (hP : Kept P) (h : P pen) (ps : List Pos) : P (pen.paintWalls ps).1 := by
  induction ps generalizing pen with
  | nil => exact h
  | cons p ps ih =>
    rw [paintWalls_eq_goOn]
    split
    · exact ih h
    · exact goOn (hP.paint h .black p) fun _ h₁ => ih h₁

theorem close (hP : Kept P) (h : P pen) (b : Bearing) : P (pen.close b).1 := by
  rw [close_eq_goOn]
  refine goOn (hP.advance h .white) fun pen₁ h₁ => ?_
  split
  · exact h₁
  · split
    · exact h₁
    · exact goOn (hP.paintAll h₁ _ _) fun _ h₂ => hP.paintWalls h₂ _

/-- **What laying a cell keeps, a command keeps**, whether it fails or not. -/
theorem command (hP : Kept P) (h : P pen) (c : Command) : P (pen.command c).1 := by
  cases c with
  | paint ink p => exact hP.paint h ink p
  | stroke ink count => exact hP.stroke h ink count
  | paintAt ink b => exact hP.paintAt h ink b
  | close b => exact hP.close h b

/-- **What laying a cell keeps, any commands keep.** -/
theorem commands (hP : Kept P) (h : P pen) (script : List Command) : P (pen.commands script) := by
  induction script generalizing pen with
  | nil => exact h
  | cons c script ih => exact ih (hP.command h c)

theorem turnAround (hP : Kept P) (h : P pen) (width : ℕ) (rightward : Bool) :
    P (Compose.turnAround pen width rightward).1 := by
  rw [Compose.turnAround]
  split
  · exact h
  · exact hP.strokes h _

/-- **What laying a cell keeps, painting all lanes keeps.** -/
theorem paintLanes (hP : Kept P) (h : P pen) (width : ℕ) (rightward : Bool)
    (lanes : List (List Stroke)) : P (Compose.paintLanes width pen rightward lanes).1 := by
  induction lanes generalizing pen rightward with
  | nil => exact h
  | cons lane rest ih =>
    rw [paintLanes_eq_goOn]
    refine goOn (hP.strokes h lane) fun pen₁ h₁ => ?_
    split
    · exact hP.close h₁ _
    · exact goOn (hP.turnAround h₁ width rightward) fun _ h₂ => ih h₂ _

end Kept

end Pen

@[simp]
theorem Ink.continued_continued (ink : Ink) : ink.continued.continued = ink.continued := by
  cases ink <;> rfl

namespace Pen

variable {pen pen' : Pen} {ink : Ink} {b : Bearing} {p : Pos} {k : Color} {e : Error} {n : ℕ}

/-! ### What has been painted stays -/

/-- Laying a cell that is free does not change the colour of any other one. -/
theorem kept_color (p : Pos) (k : Color) : Kept fun pen => pen.canvas.get? p = some k := by
  intro pen ink q hp hfree
  exact (painted_lay hfree).keep hp

/-! ### Failures -/

/-- A cell that is refused leaves the pen as it was. -/
theorem paint_of_error (h : pen.paint ink p = (pen', some e)) : pen' = pen := by
  rcases pen.paint_cases ink p with ⟨-, hpaint⟩ | ⟨e', hpaint⟩
  · rw [hpaint] at h
    cases h
  · rw [hpaint] at h
    exact (congrArg Prod.fst h).symm

theorem advance_of_error (h : pen.advance ink = (pen', some e)) : pen' = pen := by
  rw [advance] at h
  split at h
  · exact paint_of_error h
  · exact (congrArg Prod.fst h).symm

theorem paintAt_of_error (h : pen.paintAt ink b = (pen', some e)) : pen' = pen := by
  rw [paintAt] at h
  split at h
  · exact paint_of_error h
  · exact (congrArg Prod.fst h).symm

/-- **A stroke that fails is a shorter one that does not**, and a cell after it that is refused. -/
theorem stroke_of_error (h : pen.stroke ink n = (pen', some e)) :
    ∃ i < n, pen.stroke ink i = (pen', none) ∧
      pen'.advance (if i = 0 then ink else ink.continued) = (pen', some e) := by
  induction n generalizing pen ink with
  | zero => cases h
  | succ n ih =>
    rw [stroke_eq_goOn] at h
    rcases hadvance : pen.advance ink with ⟨pen₁, _ | e₁⟩
    · -- The first cell has been painted, and the rest of the stroke fails.
      rw [hadvance] at h
      obtain ⟨i, hlt, hstroke, hrefused⟩ := ih h
      refine ⟨i + 1, Nat.succ_lt_succ hlt, ?_, ?_⟩
      · rw [stroke_eq_goOn, hadvance]
        exact hstroke
      · rwa [Ink.continued_continued, ite_self] at hrefused
    · rw [hadvance] at h
      obtain ⟨rfl, rfl⟩ : pen₁ = pen' ∧ e₁ = e := by
        simpa only [goOn, Prod.mk.injEq, Option.some.injEq] using h
      obtain rfl := advance_of_error hadvance
      exact ⟨0, Nat.succ_pos n, rfl, hadvance⟩

/-- **Painting only adds, and what is refused leaves nothing behind.**

* Whatever a pen is told to do and whether that fails or not, every cell that was painted before
  keeps its colour.
* If a single cell is refused, be it given by its place or by its bearing, nothing at all has changed
  about the pen.
* If a stroke fails, the pen is where a shorter stroke would have taken it without failing, and
  there the next cell of the stroke is refused. -/
theorem command_adds (pen : Pen) :
    (∀ c p k, pen.canvas.get? p = some k → (pen.command c).1.canvas.get? p = some k) ∧
    (∀ ink p pen' e, pen.command (.paint ink p) = (pen', some e) → pen' = pen) ∧
    (∀ ink b pen' e, pen.command (.paintAt ink b) = (pen', some e) → pen' = pen) ∧
    ∀ ink n pen' e, pen.command (.stroke ink n) = (pen', some e) →
      ∃ i < n, pen.command (.stroke ink i) = (pen', none) ∧
        pen'.advance (if i = 0 then ink else ink.continued) = (pen', some e) := by
  refine ⟨?_, ?_, ?_, ?_⟩
  · intro c p k hp
    exact (kept_color p k).command hp c
  · intro ink p pen' e h
    exact paint_of_error h
  · intro ink b pen' e h
    exact paintAt_of_error h
  · intro ink n pen' e h
    exact stroke_of_error h

/-- A pen with a wall three cells ahead of it. -/
def walled : Pen :=
  (start #[]).commands [.paint .black ⟨0, 3⟩]

/-- A painted cell and a place beyond the edge are refused, and a stroke of five cells fails at the
wall, which stays. -/
theorem command_adds_walled :
    walled.canvas.get? ⟨0, 3⟩ = some .black ∧
      (walled.command (.stroke (.op .push) 5)).1.canvas.get? ⟨0, 3⟩ = some .black ∧
    (walled.command (.paint (.op .add) .origin)).1 = walled ∧
    (walled.command (.paintAt .white .back)).1 = walled ∧
    (walled.command (.stroke (.op .push) 5)).2 = some (.overlap ⟨0, 3⟩) ∧
      ∃ i < 5, walled.command (.stroke (.op .push) i) =
        ((walled.command (.stroke (.op .push) 5)).1, none) := by
  obtain ⟨hkeeps, hpaint, hpaintAt, hstroke⟩ := command_adds walled
  have hwall : walled.canvas.get? ⟨0, 3⟩ = some .black := by decide +kernel
  have hoverlap : (walled.command (.paint (.op .add) .origin)).2 = some (.overlap .origin) := by
    decide +kernel
  have hedge : (walled.command (.paintAt .white .back)).2 = some .offCanvas := by decide +kernel
  have hfails : (walled.command (.stroke (.op .push) 5)).2 = some (.overlap ⟨0, 3⟩) := by
    decide +kernel
  obtain ⟨i, hlt, hshorter, -⟩ := hstroke (.op .push) 5 _ _ (Prod.ext rfl hfails)
  exact ⟨hwall, hkeeps _ _ _ hwall, hpaint _ _ _ _ (Prod.ext rfl hoverlap),
    hpaintAt _ _ _ _ (Prod.ext rfl hedge), hfails, i, hlt, hshorter⟩

end Pen

end Piet
