import Mathlib.Data.List.Induction
import Piet.Proofs.Walk.Calls

/-!
# What always holds of a walk

What a program works on lies open: between two calls for a step its machine may be replaced by any
other one, so that the direction, the chooser, the stack and the place in the input are not what the
last step left behind.  This module says what a walk keeps.

* `Walk.Placed` holds whatever is done: the position is a pixel of the current block, and the block
  shows the picture.
* `Walk.Regular` holds as long as nothing is done but calls: the pointer looks out of a coloured
  block from its exit, and flips its chooser four times at most.  What carries the bound is that
  within white a flip does not open the way, since it does not move the pointer.

Each is kept by one action (`Walk.Placed.act`, `Walk.Regular.step`) and so by any number of them.
`Walk.acts_invariant` puts them together, and says that what the pointer enters or leaves from is
always there to be found.
-/

namespace Piet

/-- Entering a colour other than black ends the search for a way out, unless it is white again. -/
theorem Color.eq_white_of_not_resets {c k : Color} (hk : k ≠ .black) (h : ¬ Resets c k) :
    c = .white ∧ k = .white := by
  have hsame : c = k := not_not.mp fun hne => h (.inr hne)
  subst hsame
  cases c with
  | white => exact ⟨rfl, rfl⟩
  | black => exact absurd rfl hk
  | shade s => exact absurd (.inl ⟨rfl, rfl⟩) h

namespace Walk

variable {w w' w₀ : Walk} {g : Grid} {a : Atlas} {b : Block} {p q : Pos} {d : Direction}

/-! ### Actions -/

/-- What can be done to a walk from outside. -/
inductive Action where
  /-- It is called for a step. -/
  | step
  /-- What the program works on is replaced. -/
  | poke (m : Machine)

/-- The walk after an action, whatever the call for a step came to. -/
def act (w : Walk) : Action → Walk
  | .step => w.step.1
  | .poke m => { w with machine := m }

/-- The walk after some actions, one after another. -/
def acts (w : Walk) (actions : List Action) : Walk :=
  actions.foldl act w

theorem acts_cons (w : Walk) (x : Action) (actions : List Action) :
    w.acts (x :: actions) = (w.act x).acts actions := rfl

theorem acts_append (w : Walk) (actions actions' : List Action) :
    w.acts (actions ++ actions') = (w.acts actions).acts actions' :=
  List.foldl_append

theorem acts_snoc (w : Walk) (actions : List Action) (x : Action) :
    w.acts (actions ++ [x]) = (w.acts actions).act x :=
  List.foldl_concat ..

/-- Actions all of which are calls are so many calls. -/
theorem acts_eq_after {actions : List Action} (h : ∀ x ∈ actions, x = .step) :
    w.acts actions = w.after actions.length := by
  induction actions using List.reverseRecOn with
  | nil => rfl
  | append_singleton actions x ih =>
    obtain rfl : x = .step := h x (List.mem_append_right _ List.mem_cons_self)
    rw [acts_snoc, ih fun y hy => h y (List.mem_append_left _ hy), List.length_append]
    rfl

/-! ### Calls that enter and calls that do not -/

/-- Which of the three it is that looking for another way comes to. -/
theorem detour_spec (w : Walk) :
    (w.flipped = false ∧ w.detour = (w.flip.count, .continued (w.flip.report .noop true none))) ∨
      (w.flipped = true ∧ w.flips < 4 ∧
        w.detour = (w.turn.count, .continued (w.turn.report .noop true none))) ∨
      (w.flipped = true ∧ 4 ≤ w.flips ∧ w.detour = (w, .halted .finished)) := by
  rcases hflipped : w.flipped with _ | _
  · exact .inl ⟨rfl, detour_eq_flip hflipped⟩
  · rcases Nat.lt_or_ge w.flips 4 with hlt | hle
    · exact .inr (.inl ⟨rfl, hlt, detour_eq_turn hflipped hlt⟩)
    · exact .inr (.inr ⟨rfl, hle, detour_eq_finished hflipped hle⟩)

theorem reposition_of_white (h : w.current.color = .white) : w.reposition = w :=
  if_pos h

/-- A flip of the chooser within white. -/
theorem flip_of_white (h : w.current.color = .white) :
    w.flip = { w with
      machine := { w.machine with cc := w.machine.cc.flip 1 }
      flips := w.flips + 1
      flipped := true } :=
  reposition_of_white h

/-- A turn of the direction within white. -/
theorem turn_of_white (h : w.current.color = .white) :
    w.turn = { w with
      machine := { w.machine with dp := w.machine.dp.rotate 1 }
      flipped := false } :=
  reposition_of_white h

namespace Over

/-- A call that enters has found the way open. -/
theorem step_of_enters (h : w.Over g) (henters : w.step.2.Enters) :
    ∃ p a b q, g.ahead? w.position w.machine.dp = some p ∧
      w.atlas.Entry p w.machine.dp w.machine.cc a b q ∧ w.step = w.arrive a b q := by
  rcases h.step_cases with ⟨-, hstep⟩ | ⟨-, -, hstep⟩ | ⟨-, p, a, b, q, hahead, hentry, hstep⟩
  · rw [hstep] at henters
    exact henters.elim
  · rw [hstep] at henters
    exact absurd henters w.detour_frame.2.2.2.2
  · exact ⟨p, a, b, q, hahead, hentry, hstep⟩

/-- No call enters black. -/
theorem color_of_enters (h : w.Over g) (henters : w.step.2.Enters) :
    w.step.1.current.color ≠ .black := by
  obtain ⟨p, a, b, q, -, hentry, hstep⟩ := h.step_of_enters henters
  rw [hstep, (w.arrive_frame a b q).2.2.1]
  exact hentry.color_ne_black

/-- A call that does not enter stays in the block, and within white where it is. -/
theorem step_of_not_enters (h : w.Over g) (henters : ¬ w.step.2.Enters) :
    w.step.1.current = w.current ∧
      (w.current.color = .white → w.step.1.position = w.position) := by
  rcases h.step_cases with ⟨-, hstep⟩ | ⟨-, -, hstep⟩ | ⟨-, p, a, b, q, -, -, hstep⟩
  · rw [hstep]
    exact ⟨rfl, fun _ => rfl⟩
  · rw [hstep]
    refine ⟨w.detour_frame.2.2.1, fun hwhite => ?_⟩
    rcases w.detour_cases with hd | hd | hd
    · rw [hd, flip_of_white hwhite]
      rfl
    · rw [hd, turn_of_white hwhite]
      rfl
    · rw [hd]
  · rw [hstep] at henters
    exact absurd (w.arrive_frame a b q).2.2.2 henters

theorem ne_black_step (h : w.Over g) (hne : w.current.color ≠ .black) :
    w.step.1.current.color ≠ .black := by
  by_cases henters : w.step.2.Enters
  · exact h.color_of_enters henters
  · rwa [(h.step_of_not_enters henters).1]

theorem ne_black_after (h : w.Over g) (hne : w.current.color ≠ .black) (n : ℕ) :
    (w.after n).current.color ≠ .black := by
  induction n with
  | zero => exact hne
  | succ n ih => exact (h.after n).ne_black_step ih

end Over

/-- Entering and counting are two things: what is entered does not depend on whether it counts. -/
theorem arrive_eq_entered (w : Walk) (a : Atlas) (b : Block) (next : Pos) :
    (w.arrive a b next).1 = w.entered a b next ∨
      (w.arrive a b next).1 = (w.entered a b next).count := by
  rw [arrive]
  split
  · exact .inl rfl
  · exact .inr rfl

/-! ### Whatever is done -/

/-- The position is a pixel of the current block. -/
structure Placed (w : Walk) (g : Grid) : Prop extends Over w g where
  mem : w.position ∈ w.current.pixels

namespace Placed

theorem inside (h : w.Placed g) : g.Inside w.position :=
  Grid.inside_of_get? (h.current.color _ h.mem)

/-- Moving to the exit stays in the block. -/
theorem reposition (h : w.Placed g) : w.reposition.Placed g := by
  obtain ⟨hatlas, -, hlast, hcurrent⟩ := w.reposition_frame
  refine ⟨h.of_frame hatlas hlast hcurrent, ?_⟩
  rw [Walk.reposition]
  split
  · exact h.mem
  · exact Block.exit_mem _ _ _

theorem flip (h : w.Placed g) : w.flip.Placed g :=
  Placed.reposition ⟨h.toOver.of_frame rfl rfl rfl, h.mem⟩

theorem turn (h : w.Placed g) : w.turn.Placed g :=
  Placed.reposition ⟨h.toOver.of_frame rfl rfl rfl, h.mem⟩

theorem count (h : w.Placed g) : w.count.Placed g :=
  ⟨h.toOver.of_frame rfl rfl rfl, h.mem⟩

end Placed

/-- What is entered is looked out of from one of its pixels: the end of a slide, or an exit. -/
theorem Over.placed_entered (h : w.Over g)
    (hentry : w.atlas.Entry p w.machine.dp w.machine.cc a b q) : (w.entered a b q).Placed g := by
  refine ⟨h.entered hentry, ?_⟩
  by_cases hwhite : b.color = .white
  · rw [entered_of_white hwhite, (hentry.white hwhite).2]
    exact b.final_mem
  · rw [entered_of_ne_white hwhite (hentry.region hwhite).2]
    exact b.exit_mem _ _

namespace Placed

theorem arrive (h : w.Placed g) (hentry : w.atlas.Entry p w.machine.dp w.machine.cc a b q) :
    (w.arrive a b q).1.Placed g := by
  have hentered := h.toOver.placed_entered hentry
  rcases w.arrive_eq_entered a b q with he | he
  · rwa [he]
  · rw [he]
    exact hentered.count

theorem step (h : w.Placed g) : w.step.1.Placed g := by
  rcases h.step_cases with ⟨-, hstep⟩ | ⟨-, -, hstep⟩ | ⟨-, p, a, b, q, -, hentry, hstep⟩
  · rwa [hstep]
  · rw [hstep]
    rcases w.detour_cases with hd | hd | hd <;> rw [hd]
    · exact h.flip.count
    · exact h.turn.count
    · exact h
  · rw [hstep]
    exact h.arrive hentry

/-- **The position stays in the current block**, whatever is done. -/
theorem act (h : w.Placed g) : ∀ x : Action, (w.act x).Placed g
  | .step => h.step
  | .poke _ => ⟨h.toOver.of_frame rfl rfl rfl, h.mem⟩

theorem acts (h : w.Placed g) (actions : List Action) : (w.acts actions).Placed g := by
  induction actions generalizing w with
  | nil => exact h
  | cons x actions ih => exact ih (h.act x)

end Placed

/-! ### As long as nothing is done but calls -/

/-- A coloured block is looked out of from its exit.  Before a flip of the chooser there have been
three flips at most, and one within white has found the way shut and left it so. -/
structure Regular (w : Walk) (g : Grid) : Prop extends Placed w g where
  atExit : w.current.color ≠ .white → w.position = w.current.exit w.machine.dp w.machine.cc
  unflipped : w.flipped = false → w.flips < 4
  flipped : w.flipped = true → 0 < w.flips ∧ w.flips ≤ 4 ∧
    (w.current.color = .white → g.ahead? w.position w.machine.dp = none)

namespace Regular

theorem flips_le (h : w.Regular g) : w.flips ≤ 4 := by
  rcases hflipped : w.flipped with _ | _
  · exact (h.unflipped hflipped).le
  · exact (h.flipped hflipped).2.1

/-- Where the way is open within white, the last call was no flip. -/
theorem unflipped_of_open (h : w.Regular g) (hwhite : w.current.color = .white)
    (hahead : g.ahead? w.position w.machine.dp = some p) : w.flipped = false := by
  refine Bool.eq_false_iff.mpr fun hflipped => ?_
  rw [(h.flipped hflipped).2.2 hwhite] at hahead
  cases hahead

theorem count (h : w.Regular g) : w.count.Regular g :=
  ⟨h.toPlaced.count, h.atExit, h.unflipped, h.flipped⟩

/-- A flip where the way is shut. -/
theorem flip (h : w.Regular g) (hflipped : w.flipped = false)
    (hshut : g.ahead? w.position w.machine.dp = none) : w.flip.Regular g := by
  have hlt := h.unflipped hflipped
  have hplaced := h.toPlaced.flip
  by_cases hwhite : w.current.color = .white
  · rw [flip_of_white hwhite] at hplaced ⊢
    exact ⟨hplaced, fun hne => absurd hwhite hne, Bool.noConfusion,
      fun _ => ⟨Nat.succ_pos _, hlt, fun _ => hshut⟩⟩
  · rw [flip_of_ne_white hwhite] at hplaced ⊢
    exact ⟨hplaced, fun _ => rfl, Bool.noConfusion,
      fun _ => ⟨Nat.succ_pos _, hlt, fun hw => absurd hw hwhite⟩⟩

/-- A turn after fewer than four flips. -/
theorem turn (h : w.Regular g) (hlt : w.flips < 4) : w.turn.Regular g := by
  have hplaced := h.toPlaced.turn
  by_cases hwhite : w.current.color = .white
  · rw [turn_of_white hwhite] at hplaced ⊢
    exact ⟨hplaced, fun hne => absurd hwhite hne, fun _ => hlt, Bool.noConfusion⟩
  · rw [turn_of_ne_white hwhite] at hplaced ⊢
    exact ⟨hplaced, fun _ => rfl, fun _ => hlt, Bool.noConfusion⟩

/-- Entering what lies ahead. -/
theorem entered (h : w.Regular g) (hahead : g.ahead? w.position w.machine.dp = some p)
    (hentry : w.atlas.Entry p w.machine.dp w.machine.cc a b q) : (w.entered a b q).Regular g := by
  have hplaced := h.toOver.placed_entered hentry
  -- The flips are kept only from white to white, and there the last call was no flip.
  have hflips : (if w.current.color.Resets b.color then 0 else w.flips) < 4 := by
    split
    · exact Nat.zero_lt_succ 3
    · next hresets =>
      obtain ⟨hwhite, -⟩ := Color.eq_white_of_not_resets hentry.color_ne_black hresets
      exact h.unflipped (h.unflipped_of_open hwhite hahead)
  by_cases hwhite : b.color = .white
  · rw [entered_of_white hwhite] at hplaced ⊢
    exact ⟨hplaced, fun hne => absurd hwhite hne, fun _ => hflips, Bool.noConfusion⟩
  · rw [entered_of_ne_white hwhite (hentry.region hwhite).2] at hplaced ⊢
    exact ⟨hplaced, fun _ => rfl, fun _ => hflips, Bool.noConfusion⟩

/-- **A call keeps a walk regular.** -/
theorem step (h : w.Regular g) : w.step.1.Regular g := by
  rcases h.step_cases with ⟨-, hstep⟩ | ⟨-, hshut, hstep⟩ | ⟨-, p, a, b, q, hahead, hentry, hstep⟩
  · rwa [hstep]
  · rw [hstep]
    rcases w.detour_spec with ⟨hflipped, hd⟩ | ⟨-, hlt, hd⟩ | ⟨-, -, hd⟩
    · rw [hd]
      exact (h.flip hflipped hshut).count
    · rw [hd]
      exact (h.turn hlt).count
    · rwa [hd]
  · rw [hstep]
    have hentered := h.entered hahead hentry
    rcases w.arrive_eq_entered a b q with he | he
    · rwa [he]
    · rw [he]
      exact hentered.count

theorem after (h : w.Regular g) (n : ℕ) : (w.after n).Regular g :=
  after_induction (P := (Regular · g)) h (fun _ => step) n

end Regular

/-! ### From the start -/

/-- At its start a walk is regular. -/
theorem start?_regular (h : a.Sound) {m : Machine} {limit : ℕ}
    (hstart : start? a m limit = some w) : w.Regular a.grid := by
  obtain ⟨hover, hmem, hbegin⟩ := start?_spec h hstart
  have hposition : w.position = if w.current.color = .white then .origin
      else w.current.exit w.machine.dp w.machine.cc := by
    rw [hbegin]
    rfl
  have hflips : w.flips = 0 ∧ w.flipped = false := by
    rw [hbegin]
    exact ⟨rfl, rfl⟩
  refine ⟨⟨hover, ?_⟩, fun hne => hposition.trans (if_neg hne), fun _ => ?_, fun hflipped => ?_⟩
  · rw [hposition]
    split
    · exact hmem
    · exact Block.exit_mem _ _ _
  · rw [hflips.1]
    exact Nat.zero_lt_succ 3
  · rw [hflips.2] at hflipped
    cases hflipped

/-- The start of a walk over a picture, whatever its atlas has been asked for. -/
theorem start?_consult_regular {asked : List Pos} {m : Machine} {limit : ℕ}
    (hstart : start? ((Atlas.ofGrid g).consult asked) m limit = some w) : w.Regular g :=
  Atlas.grid_consult g asked ▸ start?_regular (Atlas.sound_consult g asked) hstart

/-- A walk that has left black does not come back to it, whatever is done. -/
theorem Placed.ne_black_acts (h : w.Placed g) (hne : w.current.color ≠ .black)
    (actions : List Action) : (w.acts actions).current.color ≠ .black := by
  induction actions generalizing w with
  | nil => exact hne
  | cons x actions ih =>
    rw [acts_cons]
    refine ih (h.act x) ?_
    cases x with
    | step => exact h.ne_black_step hne
    | poke m => exact hne

/-- A walk is in a black block only if no call has entered anything. -/
theorem Placed.not_enters_of_black (h : w₀.Placed g) {actions before after : List Action}
    (hblack : (w₀.acts actions).current.color = .black)
    (hsplit : actions = before ++ .step :: after) : ¬ (w₀.acts before).step.2.Enters := by
  intro henters
  rw [hsplit, acts_append, acts_cons] at hblack
  have hbefore := h.acts before
  exact (hbefore.act .step).ne_black_acts (hbefore.color_of_enters henters) after hblack

/-- **What holds of every walk that can be reached.**  Let a walk over a picture be made with any
machine, on an atlas that may know some blocks, and let any actions be done to it.

* Its position is in the picture and in its current block, and the picture shows the colour of that
  block at all of its pixels.
* That colour is black only if no call so far has entered anything.
* If all actions were calls, it looks out of a coloured block from the exit of the block, and it has
  flipped its chooser four times at most.
* If the way ahead is open, the atlas answers for the pixel there, and the block it answers with can
  be left with any heading, as the current one can. -/
theorem acts_invariant (g : Grid) (asked : List Pos) (m : Machine) (limit : ℕ) {w₀ : Walk}
    (hstart : start? ((Atlas.ofGrid g).consult asked) m limit = some w₀)
    (actions : List Action) :
    let w := w₀.acts actions
    (g.Inside w.position ∧ w.position ∈ w.current.pixels ∧
      ∀ p ∈ w.current.pixels, g.get? p = some w.current.color) ∧
      (w.current.color = .black → ∀ before after, actions = before ++ .step :: after →
        ¬ (w₀.acts before).step.2.Enters) ∧
      ((∀ x ∈ actions, x = .step) →
        (w.current.color ≠ .white → w.position = w.current.exit w.machine.dp w.machine.cc) ∧
          w.flips ≤ 4) ∧
      (∀ p, g.ahead? w.position w.machine.dp = some p → ∃ b, (w.atlas.blockAt p).2 = some b ∧
        ∀ dp cc, (Heading.of dp cc).furthest? b.pixels = some (b.exit dp cc)) ∧
      ∀ dp cc, (Heading.of dp cc).furthest? w.current.pixels = some (w.current.exit dp cc) := by
  intro w
  have hregular₀ : w₀.Regular g := start?_consult_regular hstart
  have hplaced : w.Placed g := hregular₀.toPlaced.acts actions
  refine ⟨⟨hplaced.inside, hplaced.mem, hplaced.current.color⟩, fun hblack before after hsplit =>
    hregular₀.toPlaced.not_enters_of_black hblack hsplit, fun hcalls => ?_, fun p hahead => ?_,
    w.current.furthest?_pixels⟩
  · have hregular : w.Regular g := by
      rw [show w = w₀.after actions.length from acts_eq_after hcalls]
      exact hregular₀.after _
    exact ⟨hregular.atExit, hregular.flips_le⟩
  · obtain ⟨-, hopen⟩ := Grid.ahead?_eq_some_iff.mp hahead
    obtain ⟨b, hb⟩ : ∃ b, (w.atlas.blockAt p).2 = some b := by
      refine Option.ne_none_iff_exists'.mp fun hnone => hopen.1 (Grid.get?_eq_none_iff.mpr ?_)
      rw [← hplaced.grid]
      exact hplaced.sound.blockAt_eq_none_iff.mp hnone
    exact ⟨b, hb, b.furthest?_pixels⟩

/-- A walk over a picture with white in a corner, to which no exit of the first block leads. -/
def proddedWalk : Walk :=
  (start? ((Atlas.ofGrid Atlas.corner).consult [⟨1, 1⟩]) (.start #[]) 9).get (by decide +kernel)

/-- It is turned upward after a step, which lets it slide into the corner. -/
def prods : List Action :=
  [.step, .poke { Machine.start #[] with dp := .up }, .step, .step]

theorem acts_invariant_prods :
    start? ((Atlas.ofGrid Atlas.corner).consult [⟨1, 1⟩]) (.start #[]) 9 = some proddedWalk ∧
      (let w := proddedWalk.acts prods
       w.current.color = .white ∧ Atlas.corner.Inside w.position ∧
         w.position ∈ w.current.pixels) ∧
      let w := proddedWalk.acts [.step, .step, .step]
      w.current.color ≠ .white ∧
        w.position = w.current.exit w.machine.dp w.machine.cc ∧ w.flips ≤ 4 := by
  have hstart : start? ((Atlas.ofGrid Atlas.corner).consult [⟨1, 1⟩]) (.start #[]) 9 =
      some proddedWalk := (Option.some_get _).symm
  have hcolor : (proddedWalk.acts [.step, .step, .step]).current.color ≠ .white := by
    decide +kernel
  obtain ⟨⟨hinside, hmem, -⟩, -⟩ := acts_invariant Atlas.corner [⟨1, 1⟩] (.start #[]) 9 hstart prods
  obtain ⟨-, -, hcalls, -⟩ :=
    acts_invariant Atlas.corner [⟨1, 1⟩] (.start #[]) 9 hstart [.step, .step, .step]
  obtain ⟨hexit, hflips⟩ := hcalls (by simp)
  exact ⟨hstart, ⟨by decide +kernel, hinside, hmem⟩, hcolor, hexit hcolor, hflips⟩

end Walk

end Piet
