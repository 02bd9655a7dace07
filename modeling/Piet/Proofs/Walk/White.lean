import Piet.Proofs.Walk.Limit

/-!
# Within white

In white a pointer slides on as far as it can, so it comes to rest where the way ahead is shut or
leads into colour.  There a flip of the chooser changes nothing, and a turn of the direction may
begin another slide.  The flips are counted from the entry into white, over all the places where the
pointer comes to rest.

So the steps it can take without leaving white are bounded: `Walk.patience` falls with each of them
(`Walk.Regular.step_of_white`).  It takes eleven at most, and then a call halts or enters a coloured
block (`Walk.leaves_white`).
-/

namespace Piet

/-- White is entered and left without executing anything. -/
theorem Color.instructionTo_eq_noop {c k : Color} (h : c = .white ∨ k = .white) :
    c.instructionTo k = .noop := by
  rcases h with rfl | rfl
  · rfl
  · cases c <;> rfl

namespace Grid

variable {g : Grid} {p q r : Pos} {d : Direction}

/-- The colour of the neighbour in a direction. -/
def colorAhead? (g : Grid) (p : Pos) (d : Direction) : Option Color :=
  (p.step d).bind g.get?

theorem colorAhead?_of_shut (h : g.ahead? p d = none) : g.colorAhead? p d ≠ some .white := by
  intro hwhite
  obtain ⟨q, hstep, hq⟩ := Option.bind_eq_some_iff.mp hwhite
  have hahead := ahead?_eq_some_iff.mpr ⟨hstep, open_of_get? hq Color.white_ne_black⟩
  rw [h] at hahead
  cases hahead

theorem colorAhead?_of_ahead? (h : g.ahead? p d = some q) : g.colorAhead? p d = g.get? q := by
  rw [colorAhead?, (ahead?_eq_some_iff.mp h).1]
  rfl

/-- A slide does not end in front of white. -/
theorem colorAhead?_whiteFrom (hp : g.get? p = some .white) (d : Direction) :
    g.colorAhead? (g.whiteFrom p d).final d ≠ some .white := by
  intro hwhite
  obtain ⟨q, hstep, hq⟩ := Option.bind_eq_some_iff.mp hwhite
  exact (g.whiteFrom_spec hp d).2.2 q hstep hq

end Grid

namespace Walk

variable {w w₀ : Walk} {g : Grid} {a : Atlas} {b : Block} {p q : Pos} {d : Direction} {n : ℕ}

/-! ### A call made in white -/

/-- The next call takes a step, and the pointer is in white after it. -/
def Lingers (w : Walk) : Prop :=
  (∃ s, w.step.2 = .continued s) ∧ w.step.1.current.color = .white

/-- The next call takes a step that enters a coloured block. -/
def Departs (w : Walk) : Prop :=
  ∃ s t, w.step.2 = .continued s ∧ s.blocked = false ∧ w.step.1.current.color = .shade t

/-- How many more steps a walk that is in white can take there.  One flip, one turn and one slide
follow one another up to the fourth flip. -/
def patience (w : Walk) (g : Grid) : ℕ :=
  (if w.flipped then 12
    else if g.colorAhead? w.position w.machine.dp = some .white then 11 else 10) - 3 * w.flips

theorem patience_of_flipped (h : w.flipped = true) : w.patience g = 12 - 3 * w.flips :=
  congrArg (· - 3 * w.flips) (if_pos h)

theorem patience_of_white_ahead (h : w.flipped = false)
    (hahead : g.colorAhead? w.position w.machine.dp = some .white) :
    w.patience g = 11 - 3 * w.flips :=
  congrArg (· - 3 * w.flips) ((if_neg (Bool.eq_false_iff.mp h)).trans (if_pos hahead))

theorem patience_at_rest (h : w.flipped = false)
    (hahead : g.colorAhead? w.position w.machine.dp ≠ some .white) :
    w.patience g = 10 - 3 * w.flips :=
  congrArg (· - 3 * w.flips) ((if_neg (Bool.eq_false_iff.mp h)).trans (if_neg hahead))

/-- Without a flip before it, it is eleven steps less three for each flip at most. -/
theorem patience_le_of_unflipped (h : w.flipped = false) : w.patience g ≤ 11 - 3 * w.flips := by
  by_cases hahead : g.colorAhead? w.position w.machine.dp = some .white
  · exact (patience_of_white_ahead h hahead).le
  · exact (patience_at_rest h hahead).trans_le (Nat.sub_le_sub_right (by decide) _)

theorem Regular.patience_le (h : w.Regular g) : w.patience g ≤ 11 := by
  rcases hflipped : w.flipped with _ | _
  · exact (patience_le_of_unflipped hflipped).trans (Nat.sub_le _ _)
  · have hpos := (h.flipped hflipped).1
    rw [patience_of_flipped hflipped]
    omega

/-- An entry into white is a step, and the walk is at rest after it. -/
theorem Over.arrive_in_white (h : w.Over g)
    (hentry : w.atlas.Entry p w.machine.dp w.machine.cc a b q) (hwhite : b.color = .white) :
    (w.arrive a b q).1.flipped = false ∧
      (w.arrive a b q).1.flips = (if w.current.color = .white then w.flips else 0) ∧
      (w.arrive a b q).1.machine = w.machine ∧
      (w.arrive a b q).1.position = (g.whiteFrom p w.machine.dp).final ∧
      g.get? p = some .white ∧
      g.colorAhead? (w.arrive a b q).1.position (w.arrive a b q).1.machine.dp ≠ some .white := by
  have hp : g.get? p = some .white := hwhite ▸ h.grid ▸ hentry.shown.color p hentry.mem
  obtain ⟨hb, hq⟩ := hentry.white hwhite
  rw [h.grid] at hb
  have hflips : (if w.current.color.Resets b.color then 0 else w.flips) =
      if w.current.color = .white then w.flips else 0 := by
    by_cases hcurrent : w.current.color = .white
    · rw [if_pos hcurrent, hcurrent, hwhite]
      exact if_neg (by decide)
    · rw [if_neg hcurrent, if_pos (.inr fun hsame => hcurrent (hsame.trans hwhite))]
  have hentered := entered_of_white (w := w) (a := a) (q := q) hwhite
  rw [hflips] at hentered
  have hahead := Grid.colorAhead?_whiteFrom hp w.machine.dp
  rw [← hb] at hahead ⊢
  rcases w.arrive_eq_entered a b q with he | he <;> rw [he, hentered]
  · exact ⟨rfl, rfl, rfl, hq, hp, hq ▸ hahead⟩
  · exact ⟨rfl, rfl, rfl, hq, hp, hq ▸ hahead⟩

/-- Nothing is executed at an entry from white or into it, so it is a step. -/
theorem exists_arrive_step (h : w.current.color = .white ∨ b.color = .white) :
    ∃ s, (w.arrive a b q).2 = .continued s ∧ s.blocked = false := by
  have houtcome : (w.machine.execute (w.current.color.instructionTo b.color)
      w.current.size).2 ≠ .sinkFull := by
    rw [Color.instructionTo_eq_noop h, Machine.execute_noop]
    exact Outcome.noConfusion
  exact ⟨_, congrArg Prod.snd (if_neg houtcome), rfl⟩

/-- **A call made in white** halts, enters a coloured block, or uses up some patience. -/
theorem Regular.step_of_white (h : w.Regular g) (hwhite : w.current.color = .white) :
    (∃ halt, w.step.2 = .halted halt) ∨ w.Departs ∨
      w.Lingers ∧ w.step.1.patience g < w.patience g := by
  rcases h.step_cases with ⟨-, hstep⟩ | ⟨-, hshut, hstep⟩ | ⟨-, p, a, b, q, hahead, hentry, hstep⟩
  · exact .inl ⟨_, congrArg Prod.snd hstep⟩
  · rcases w.detour_spec with ⟨hflipped, hd⟩ | ⟨hflipped, hlt, hd⟩ | ⟨-, -, hd⟩
    · -- A flip, which does not open the way.
      have hlt := h.unflipped hflipped
      have hrest := patience_at_rest hflipped (Grid.colorAhead?_of_shut hshut)
      refine .inr (.inr ?_)
      rw [Lingers, hstep, hd, flip_of_white hwhite, hrest, patience_of_flipped rfl]
      refine ⟨⟨⟨_, rfl⟩, hwhite⟩, ?_⟩
      show 12 - 3 * (w.flips + 1) < 10 - 3 * w.flips
      omega
    · -- A turn.
      refine .inr (.inr ?_)
      rw [Lingers, hstep, hd, turn_of_white hwhite, patience_of_flipped hflipped]
      refine ⟨⟨⟨_, rfl⟩, hwhite⟩, (patience_le_of_unflipped rfl).trans_lt ?_⟩
      show 11 - 3 * w.flips < 12 - 3 * w.flips
      omega
    · exact .inl ⟨_, congrArg Prod.snd (hstep.trans hd)⟩
  · obtain ⟨s, hs, hfree⟩ := exists_arrive_step (a := a) (q := q) (b := b) (.inl hwhite)
    have hcolor := (w.arrive_frame a b q).2.2.1
    cases hb : b.color with
    | black => exact absurd hb hentry.color_ne_black
    | shade t =>
      refine .inr (.inl ⟨s, t, ?_, hfree, ?_⟩)
      · rw [hstep, hs]
      · rw [hstep, hcolor, hb]
    | white =>
      -- A slide.  It has not been flipped just before, since the way is open.
      have hunflipped := h.unflipped_of_open hwhite hahead
      have hlt := h.unflipped hunflipped
      obtain ⟨hflipped, hflips, -, -, hp, hrest⟩ := h.toOver.arrive_in_white hentry hb
      rw [if_pos hwhite] at hflips
      have hahead' := (Grid.colorAhead?_of_ahead? hahead).trans hp
      refine .inr (.inr ?_)
      rw [Lingers, hstep, patience_at_rest hflipped hrest, hflips,
        patience_of_white_ahead hunflipped hahead']
      refine ⟨⟨⟨s, hs⟩, (congrArg Block.color hcolor).trans hb⟩, ?_⟩
      omega

/-- After a step that ends in white there are ten more at most. -/
theorem Regular.patience_of_lingers (h : w.Regular g) (hlingers : w.Lingers) :
    w.step.1.patience g ≤ 10 := by
  obtain ⟨⟨s, hs⟩, hafter⟩ := hlingers
  by_cases hwhite : w.current.color = .white
  · have hle := h.patience_le
    rcases h.step_of_white hwhite with ⟨halt, hhalt⟩ | ⟨s', t, -, -, hshade⟩ | ⟨-, hless⟩
    · rw [hs] at hhalt
      cases hhalt
    · rw [hafter] at hshade
      cases hshade
    · omega
  · -- Then it has just come into white.
    have henters : w.step.2.Enters := by
      by_contra hnot
      exact hwhite ((h.step_of_not_enters hnot).1 ▸ hafter)
    obtain ⟨p, a, b, q, -, hentry, hstep⟩ := h.step_of_enters henters
    rw [hstep] at hafter ⊢
    rw [(w.arrive_frame a b q).2.2.1] at hafter
    obtain ⟨hflipped, -, -, -, -, hrest⟩ := h.toOver.arrive_in_white hentry hafter
    exact (patience_at_rest hflipped hrest).trans_le (Nat.sub_le _ _)

/-! ### The way out of white -/

/-- A stay in white that begins with one step more. -/
theorem lingers_succ {k : ℕ} (h : w.Lingers) (hbefore : ∀ j < k, (w.step.1.after j).Lingers) :
    ∀ j < k + 1, (w.after j).Lingers := by
  intro j hj
  cases j with
  | zero => exact h
  | succ j =>
    rw [← after_step]
    exact hbefore j (Nat.lt_of_succ_lt_succ hj)

/-- **White is left while there is patience**, for a coloured block or by halting. -/
theorem Regular.exists_departure (h : w.Regular g) (hwhite : w.current.color = .white) :
    ∃ k ≤ w.patience g, (∀ j < k, (w.after j).Lingers) ∧
      ((∃ halt, (w.after k).step.2 = .halted halt) ∨ (w.after k).Departs) := by
  induction hpatience : w.patience g using Nat.strong_induction_on generalizing w with
  | _ n ih =>
    have hnone : ∀ j < 0, (w.after j).Lingers := fun j hj => absurd hj (Nat.not_lt_zero j)
    rcases h.step_of_white hwhite with hhalt | hdeparts | ⟨hlingers, hless⟩
    · exact ⟨0, Nat.zero_le n, hnone, .inl hhalt⟩
    · exact ⟨0, Nat.zero_le n, hnone, .inr hdeparts⟩
    · obtain ⟨k, hk, hbefore, hend⟩ := ih _ (hpatience ▸ hless) h.step hlingers.2 rfl
      rw [after_step] at hend
      exact ⟨k + 1, by omega, lingers_succ hlingers hbefore, hend⟩

/-- After a step that ends in white there are ten more at most before white is left. -/
theorem Regular.exists_departure_of_lingers (h : w.Regular g) (hlingers : w.Lingers) :
    ∃ k, 0 < k ∧ k ≤ 11 ∧ (∀ j < k, (w.after j).Lingers) ∧
      ((∃ halt, (w.after k).step.2 = .halted halt) ∨ (w.after k).Departs) := by
  obtain ⟨k, hk, hbefore, hend⟩ := h.step.exists_departure hlingers.2
  have hpatience := h.patience_of_lingers hlingers
  rw [after_step] at hend
  exact ⟨k + 1, Nat.succ_pos k, by omega, lingers_succ hlingers hbefore, hend⟩

/-- Such a call does not end in white. -/
theorem not_lingers (h : (∃ halt, w.step.2 = .halted halt) ∨ w.Departs) : ¬ w.Lingers := by
  rintro ⟨⟨s, hs⟩, hwhite⟩
  rcases h with ⟨halt, hhalt⟩ | ⟨s', t, -, -, hshade⟩
  · rw [hs] at hhalt
    cases hhalt
  · rw [hwhite] at hshade
    cases hshade

/-- On a picture that is white all over a run finishes. -/
theorem Regular.run_of_white (h : w.Regular g) (hall : ∀ p c, g.get? p = some c → c = .white)
    (hzero : w.steps = 0) (hlimit : 11 < w.limit) :
    w.run.2.2 = .halted .finished ∧ w.run.1.steps ≤ 11 := by
  have hcolor : ∀ n, (w.after n).current.color = .white := fun n =>
    hall _ _ ((h.after n).current.color _ (Block.first_mem _))
  obtain ⟨k, hk, hbefore, hend⟩ := h.exists_departure (hcolor 0)
  have hle : k ≤ 11 := hk.trans h.patience_le
  obtain ⟨l, rfl, htakes⟩ := exists_takes_after fun j hj => (hbefore j hj).1
  obtain ⟨hsteps, hlimit', -⟩ := htakes.steps_eq
  obtain ⟨halt, hhalt⟩ : ∃ halt, (w.after l.length).step.2 = .halted halt := by
    rcases hend with hhalt | ⟨s, t, -, -, hshade⟩
    · exact hhalt
    · rw [← after_succ, hcolor] at hshade
      cases hshade
  obtain ⟨hstep, hreached⟩ := (h.after l.length).step_of_halted hhalt
  obtain rfl : halt = .finished := by
    cases halt with
    | finished => rfl
    | stepLimit => exact absurd (hreached.mp rfl) (by omega)
  obtain ⟨fuel, hfuel⟩ : ∃ fuel, w.limit - w.steps = l.length + (fuel + 1) :=
    ⟨w.limit - (l.length + 1), by omega⟩
  obtain ⟨notices, hrun⟩ := htakes.runFor_add (fuel + 1) #[]
  rw [run, hfuel, hrun, runFor_succ_of_ending hstep rfl]
  exact ⟨rfl, show (w.after l.length).steps ≤ 11 by omega⟩

/-- **No walk wanders about in white.**

* Of any twelve calls one after another there is one that does not take a step ending in white.
* After such steps, of which there are eleven at most, a call halts or enters a coloured block.
* On a picture that is white all over, of whatever size, a run with a limit above eleven finishes
  after eleven steps at most. -/
theorem leaves_white (g : Grid) (asked : List Pos) (m : Machine) (limit : ℕ) :
    (∀ w₀, start? ((Atlas.ofGrid g).consult asked) m limit = some w₀ → ∀ n,
      (∃ k < 12, ¬ (w₀.after (n + k)).Lingers) ∧
        ((w₀.after n).Lingers → ∃ k, 0 < k ∧ k ≤ 11 ∧ (∀ j < k, (w₀.after (n + j)).Lingers) ∧
          ((∃ halt, (w₀.after (n + k)).step.2 = .halted halt) ∨ (w₀.after (n + k)).Departs))) ∧
      ((∀ p c, g.get? p = some c → c = .white) → 11 < limit →
        (∀ w₀, start? ((Atlas.ofGrid g).consult asked) m limit = some w₀ →
          w₀.run.2.2 = .halted .finished ∧ w₀.run.1.steps ≤ 11) ∧
          ∀ input, (g.interpret input limit).ending = .halted .finished) := by
  refine ⟨fun w₀ hstart n => ?_, fun hall hlimit => ⟨fun w₀ hstart => ?_, fun input => ?_⟩⟩
  · have hregular : (w₀.after n).Regular g := (start?_consult_regular hstart).after n
    simp only [after_add]
    refine ⟨?_, hregular.exists_departure_of_lingers⟩
    by_cases hlingers : (w₀.after n).Lingers
    · obtain ⟨k, -, hk, -, hend⟩ := hregular.exists_departure_of_lingers hlingers
      exact ⟨k, Nat.lt_succ_of_le hk, not_lingers hend⟩
    · exact ⟨0, Nat.zero_lt_succ 11, hlingers⟩
  · have hbegin := (start?_spec (Atlas.sound_consult g asked) hstart).2.2
    refine (start?_consult_regular hstart).run_of_white hall ?_ ?_ <;> rw [hbegin]
    · rfl
    · exact hlimit
  · rw [Grid.interpret]
    rcases hstart : start? (Atlas.ofGrid g) (.start input) limit with _ | w₀
    · rfl
    · obtain ⟨-, -, hbegin⟩ := start?_spec (Atlas.sound_ofGrid g) hstart
      have hregular : w₀.Regular g := start?_regular (Atlas.sound_ofGrid g) hstart
      refine (hregular.run_of_white hall ?_ ?_).1 <;> rw [hbegin]
      · rfl
      · exact hlimit

/-- A large picture that is white all over. -/
def snow : Grid :=
  .filled 640 480 .white (by decide) (by decide)

/-- A way through white that turns to the right again and again, with a shade at its end. -/
def spiral : Grid :=
  (Grid.ofCells? 5 5 #[.white, .white, .white, .white, .white,
    .black, .black, .black, .black, .white,
    .white, .white, .shade (.ofInts 0 0), .black, .white,
    .white, .black, .black, .black, .white,
    .white, .white, .white, .white, .white]).get (by decide)

/-- A walk over it that has not taken a step. -/
def spiralWalk : Walk :=
  (start? ((Atlas.ofGrid spiral).consult []) (.start #[]) 12).get (by decide +kernel)

theorem start?_spiral :
    start? ((Atlas.ofGrid spiral).consult []) (.start #[]) 12 = some spiralWalk :=
  (Option.some_get _).symm

theorem leaves_white_spiral :
    (∀ p c, snow.get? p = some c → c = .white) ∧
      (snow.interpret #[] 12).ending = .halted .finished ∧
      (spiralWalk.after 3).Lingers ∧
      ∃ k, 0 < k ∧ k ≤ 11 ∧ (∀ j < k, (spiralWalk.after (3 + j)).Lingers) ∧
        ((∃ halt, (spiralWalk.after (3 + k)).step.2 = .halted halt) ∨
          (spiralWalk.after (3 + k)).Departs) := by
  have hall : ∀ p c, snow.get? p = some c → c = .white := fun p c hp => by
    rw [snow, Grid.get?_filled, Option.ite_none_right_eq_some] at hp
    exact (Option.some.inj hp.2).symm
  have hlingers : (spiralWalk.after 3).Lingers :=
    ⟨Event.exists_eq_continued (by decide +kernel), by decide +kernel⟩
  obtain ⟨-, hrun⟩ := (leaves_white snow [] (.start #[]) 12).2 hall (by decide)
  obtain ⟨-, hleaves⟩ :=
    (leaves_white spiral [] (.start #[]) 12).1 spiralWalk start?_spiral 3
  exact ⟨hall, hrun #[], hlingers, hleaves hlingers⟩

end Walk

end Piet
