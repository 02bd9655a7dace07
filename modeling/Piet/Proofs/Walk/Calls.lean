import Piet.Proofs.Block.Partition
import Piet.Proofs.Walk.Enter

/-!
# Calls for a step

A walk is made on an atlas that may already know some blocks, and is then called for a step again
and again, also after a call that could not write.  This module says what such calls lead to,
without any condition on the output.

* `Atlas.Sound.enter` says what the pointer enters at an open pixel, whatever the atlas knows.
* `Walk.Over` is what every walk over a picture keeps: its atlas is sound, and its two blocks show
  the picture.  It holds at the start (`Walk.start?_over`) and after every call
  (`Walk.Over.after`).
* `Walk.Over.step_cases` lists what one call can do; everything that is proved about calls goes
  through it.
-/

namespace Piet

/-! ### What is entered -/

/-- The pixels of a block are listed once each, and the picture shows its colour at all of them. -/
structure Block.Shown (b : Block) (g : Grid) : Prop where
  nodup : b.pixels.toList.Nodup
  color : ∀ p ∈ b.pixels, g.get? p = some b.color

theorem Block.Fills.shown {g : Grid} {b : Block} (h : b.Fills g.get?) : b.Shown g :=
  ⟨h.nodup, h.color⟩

theorem Block.shown_single {g : Grid} {c : Color} {p : Pos} (h : g.get? p = some c) :
    (Block.single c p).Shown g where
  nodup := List.nodup_singleton p
  color q hq := by rwa [Array.mem_singleton.mp hq]

theorem Grid.shown_whiteFrom {g : Grid} {p : Pos} (hp : g.get? p = some .white) (d : Direction) :
    (g.whiteFrom p d).Shown g := by
  obtain ⟨hstretch, hwhite, -⟩ := g.whiteFrom_spec hp d
  refine ⟨hstretch.nodup, fun q hq => ?_⟩
  rw [hstretch.color_eq]
  exact hwhite q hq

namespace Atlas

/-- What the pointer enters at a pixel, and where it looks ahead next: white is crossed to the end
of the stretch, and of a block it enters the whole region, to leave from the exit. -/
structure Entry (a : Atlas) (p : Pos) (dp : Direction) (cc : Chooser) (a' : Atlas) (b : Block)
    (q : Pos) : Prop where
  grid : a'.grid = a.grid
  sound : a'.Sound
  mem : p ∈ b.pixels
  shown : b.Shown a.grid
  color_ne_black : b.color ≠ .black
  white : b.color = .white → b = a.grid.whiteFrom p dp ∧ q = b.final
  region : b.color ≠ .white → b.Fills a.grid.get? ∧ q = b.exit dp cc

/-- A block that is not white is left from its exit. -/
theorem enter_of_ne_white {a a' : Atlas} {p : Pos} {c : Color} {b : Block}
    (hc : a.grid.get? p = some c) (hne : c ≠ .white) (hblock : a.blockAt p = (a', some b))
    (dp : Direction) (cc : Chooser) : a.enter p dp cc = (a', some (b, b.exit dp cc)) := by
  simp only [Atlas.enter, hblock]
  split
  · next hwhite => exact absurd (Option.some.inj (hc.symm.trans hwhite)) hne
  · rfl

/-- **Whatever an atlas knows, an open pixel can be entered.** -/
theorem Sound.enter {a : Atlas} (h : a.Sound) {p : Pos} (hp : a.grid.Open p) (dp : Direction)
    (cc : Chooser) :
    ∃ a' b q, a.enter p dp cc = (a', some (b, q)) ∧ a.Entry p dp cc a' b q := by
  obtain ⟨c, hc⟩ := Option.ne_none_iff_exists'.mp hp.1
  by_cases hwhite : c = .white
  · subst hwhite
    obtain ⟨hstretch, -, -⟩ := a.grid.whiteFrom_spec hc dp
    refine ⟨a, a.grid.whiteFrom p dp, _, by simp only [Atlas.enter, hc], rfl, h,
      hstretch.mem_first, Grid.shown_whiteFrom hc dp, ?_, fun _ => ⟨rfl, rfl⟩, fun hne => ?_⟩
    · rw [hstretch.color_eq]
      exact Color.white_ne_black
    · exact absurd hstretch.color_eq hne
  · obtain ⟨a', b, hblock, hgrid, hsound, hfills, hmem⟩ := h.blockAt hc
    have hcolor : b.color = c := Option.some.inj ((hfills.color p hmem).symm.trans hc)
    refine ⟨a', b, b.exit dp cc, enter_of_ne_white hc hwhite hblock dp cc, hgrid, hsound, hmem,
      hfills.shown, ?_, fun hw => ?_, fun _ => ⟨hfills, rfl⟩⟩
    · intro hblack
      exact hp.2 (hc.trans (congrArg some (hcolor.symm.trans hblack)))
    · exact absurd (hcolor.symm.trans hw) hwhite

end Atlas

/-! ### Calls one after another -/

/-- The pointer has entered what lies ahead.  It has done so even if the output was too full for
the instruction. -/
def Event.Enters : Event → Prop
  | continued s => s.blocked = false
  | sinkFull => True
  | halted _ => False

instance : DecidablePred Event.Enters
  | .continued s => inferInstanceAs (Decidable (s.blocked = false))
  | .sinkFull => .isTrue trivial
  | .halted _ => .isFalse id

namespace Walk

variable {w w' : Walk} {g : Grid} {a : Atlas} {m : Machine} {b : Block} {p q : Pos} {n : ℕ}

/-- The walk after a number of calls for a step. -/
def after (w : Walk) : ℕ → Walk
  | 0 => w
  | n + 1 => (w.after n).step.1

@[simp]
theorem after_zero (w : Walk) : w.after 0 = w := rfl

theorem after_succ (w : Walk) (n : ℕ) : w.after (n + 1) = (w.after n).step.1 := rfl

/-- What every call keeps holds after any number of calls. -/
theorem after_induction {P : Walk → Prop} (h : P w) (hstep : ∀ w, P w → P w.step.1) (n : ℕ) :
    P (w.after n) := by
  induction n with
  | zero => exact h
  | succ n ih => exact hstep _ ih

/-- What is kept by every walk over a picture. -/
structure Over (w : Walk) (g : Grid) : Prop where
  grid : w.atlas.grid = g
  sound : w.atlas.Sound
  last : w.last.Shown g
  current : w.current.Shown g

theorem reposition_frame (w : Walk) :
    w.reposition.atlas = w.atlas ∧ w.reposition.machine = w.machine ∧
      w.reposition.last = w.last ∧ w.reposition.current = w.current := by
  rw [reposition]
  split <;> exact ⟨rfl, rfl, rfl, rfl⟩

theorem flip_frame (w : Walk) :
    w.flip.atlas = w.atlas ∧ w.flip.machine = { w.machine with cc := w.machine.cc.flip 1 } ∧
      w.flip.last = w.last ∧ w.flip.current = w.current :=
  reposition_frame _

theorem turn_frame (w : Walk) :
    w.turn.atlas = w.atlas ∧ w.turn.machine = { w.machine with dp := w.machine.dp.rotate 1 } ∧
      w.turn.last = w.last ∧ w.turn.current = w.current :=
  reposition_frame _

theorem entered_frame (w : Walk) (a : Atlas) (b : Block) (next : Pos) :
    (w.entered a b next).atlas = a ∧
      (w.entered a b next).machine =
        (w.machine.execute (w.current.color.instructionTo b.color) w.current.size).1 ∧
      (w.entered a b next).last = w.current ∧ (w.entered a b next).current = b := by
  rw [entered]
  split
  · exact reposition_frame _
  · exact ⟨rfl, rfl, rfl, rfl⟩

/-- **What one call does.**  At the limit it does nothing; where the way is shut, it looks for
another one; otherwise the pointer enters what lies ahead. -/
theorem Over.step_cases (h : w.Over g) :
    (w.limit ≤ w.steps ∧ w.step = (w, .halted .stepLimit)) ∨
      (w.steps < w.limit ∧ g.ahead? w.position w.machine.dp = none ∧ w.step = w.detour) ∨
      (w.steps < w.limit ∧ ∃ p a b q, g.ahead? w.position w.machine.dp = some p ∧
        w.atlas.Entry p w.machine.dp w.machine.cc a b q ∧ w.step = w.arrive a b q) := by
  obtain ⟨rfl, hsound, -, -⟩ := h
  rw [step]
  rcases Nat.lt_or_ge w.steps w.limit with hlt | hle
  · rw [if_neg (Nat.not_le.mpr hlt)]
    rcases hahead : w.atlas.grid.ahead? w.position w.machine.dp with _ | p
    · exact .inr (.inl ⟨hlt, rfl, rfl⟩)
    · obtain ⟨-, hopen⟩ := Grid.ahead?_eq_some_iff.mp hahead
      obtain ⟨a, b, q, henter, hentry⟩ := hsound.enter hopen w.machine.dp w.machine.cc
      exact .inr (.inr ⟨hlt, p, a, b, q, rfl, hentry, enter_eq_arrive henter⟩)
  · exact .inl ⟨hle, if_pos hle⟩

/-- Looking for another way is a flip, a turn or the end. -/
theorem detour_cases (w : Walk) :
    w.detour = (w.flip.count, .continued (w.flip.report .noop true none)) ∨
      w.detour = (w.turn.count, .continued (w.turn.report .noop true none)) ∨
      w.detour = (w, .halted .finished) := by
  rcases hflipped : w.flipped with _ | _
  · exact .inl (detour_eq_flip hflipped)
  · rcases Nat.lt_or_ge w.flips 4 with hflips | hflips
    · exact .inr (.inl (detour_eq_turn hflipped hflips))
    · exact .inr (.inr (detour_eq_finished hflipped hflips))

/-- Looking for another way enters nothing.  It changes neither the atlas nor the blocks, and of
the machine only the heading. -/
theorem detour_frame (w : Walk) :
    w.detour.1.atlas = w.atlas ∧ w.detour.1.last = w.last ∧ w.detour.1.current = w.current ∧
      (∃ dp cc, w.detour.1.machine = { w.machine with dp, cc }) ∧ ¬ w.detour.2.Enters := by
  rcases w.detour_cases with hflip | hturn | hend
  · obtain ⟨hatlas, hmachine, hlast, hcurrent⟩ := w.flip_frame
    rw [hflip]
    exact ⟨hatlas, hlast, hcurrent, ⟨_, _, hmachine⟩, Bool.noConfusion⟩
  · obtain ⟨hatlas, hmachine, hlast, hcurrent⟩ := w.turn_frame
    rw [hturn]
    exact ⟨hatlas, hlast, hcurrent, ⟨_, _, hmachine⟩, Bool.noConfusion⟩
  · rw [hend]
    exact ⟨rfl, rfl, rfl, ⟨w.machine.dp, w.machine.cc, rfl⟩, id⟩

theorem arrive_frame (w : Walk) (a : Atlas) (b : Block) (next : Pos) :
    (w.arrive a b next).1.atlas = a ∧ (w.arrive a b next).1.last = w.current ∧
      (w.arrive a b next).1.current = b ∧ (w.arrive a b next).2.Enters := by
  obtain ⟨hatlas, -, hlast, hcurrent⟩ := w.entered_frame a b next
  rw [arrive]
  split
  · exact ⟨hatlas, hlast, hcurrent, trivial⟩
  · exact ⟨hatlas, hlast, hcurrent, rfl⟩

namespace Over

/-- Nothing but the atlas and the blocks matters. -/
theorem of_frame (h : w.Over g) (hatlas : w'.atlas = w.atlas) (hlast : w'.last = w.last)
    (hcurrent : w'.current = w.current) : w'.Over g :=
  ⟨hatlas ▸ h.grid, hatlas ▸ h.sound, hlast ▸ h.last, hcurrent ▸ h.current⟩

theorem flip (h : w.Over g) : w.flip.Over g := by
  obtain ⟨hatlas, -, hlast, hcurrent⟩ := w.flip_frame
  exact h.of_frame hatlas hlast hcurrent

theorem turn (h : w.Over g) : w.turn.Over g := by
  obtain ⟨hatlas, -, hlast, hcurrent⟩ := w.turn_frame
  exact h.of_frame hatlas hlast hcurrent

/-- An entry leads to the block that was entered, and remembers the one that was left. -/
theorem entered (h : w.Over g) (hentry : w.atlas.Entry p w.machine.dp w.machine.cc a b q) :
    (w.entered a b q).Over g := by
  obtain ⟨hatlas, -, hlast, hcurrent⟩ := w.entered_frame a b q
  refine ⟨?_, ?_, ?_, ?_⟩
  · rw [hatlas, hentry.grid, h.grid]
  · rw [hatlas]
    exact hentry.sound
  · rw [hlast]
    exact h.current
  · rw [hcurrent, ← h.grid]
    exact hentry.shown

theorem step (h : w.Over g) : w.step.1.Over g := by
  rcases h.step_cases with ⟨-, hstep⟩ | ⟨-, -, hstep⟩ | ⟨-, p, a, b, q, -, hentry, hstep⟩
  · rwa [hstep]
  · obtain ⟨hatlas, hlast, hcurrent, -⟩ := w.detour_frame
    rw [hstep]
    exact h.of_frame hatlas hlast hcurrent
  · -- The block has been entered whether or not the output was too full.
    rw [hstep, arrive]
    split
    · exact h.entered hentry
    · exact (h.entered hentry).of_frame rfl rfl rfl

theorem after (h : w.Over g) (n : ℕ) : (w.after n).Over g :=
  after_induction (P := (Over · g)) h (fun _ => step) n

end Over

/-! ### The start -/

/-- The walk at its start, in this block. -/
def begin (a : Atlas) (m : Machine) (limit : ℕ) (b : Block) : Walk :=
  ⟨a, m, limit, 0, 0, false, if b.color = .white then .origin else b.exit m.dp m.cc, b, b⟩

/-- A walk that does not start in white starts in a block. -/
theorem start?_of_ne_white {a' : Atlas} {c : Color} (hc : a.grid.get? .origin = some c)
    (hne : c ≠ .white) (hblock : a.blockAt .origin = (a', some b)) (m : Machine) (limit : ℕ) :
    start? a m limit = some (begin a' m limit b) := by
  simp only [start?, hblock]
  split
  · next hwhite => exact absurd (Option.some.inj (hc.symm.trans hwhite)) hne
  · rfl

/-- **A picture with a first pixel can be walked over**, whatever the atlas knows: from that pixel
alone if it is white, and otherwise from its region. -/
theorem start?_eq_some (h : a.Sound) (m : Machine) (limit : ℕ) {c : Color}
    (horigin : a.grid.get? .origin = some c) :
    ∃ a' b, start? a m limit = some (begin a' m limit b) ∧ a'.grid = a.grid ∧ a'.Sound ∧
      b.Shown a.grid ∧ .origin ∈ b.pixels ∧ (c = .white → b = .single .white .origin) ∧
      (c ≠ .white → b.Fills a.grid.get?) := by
  by_cases hwhite : c = .white
  · subst hwhite
    refine ⟨a, .single .white .origin, ?_, rfl, h, Block.shown_single horigin,
      Array.mem_singleton.mpr rfl, fun _ => rfl, fun hne => absurd rfl hne⟩
    simp only [start?, horigin, Option.map_some, begin]
  · obtain ⟨a', b, hblock, hgrid, hsound, hfills, hmem⟩ := h.blockAt horigin
    exact ⟨a', b, start?_of_ne_white horigin hwhite hblock m limit, hgrid, hsound, hfills.shown, hmem,
      fun hc => absurd hc hwhite, fun _ => hfills⟩

/-- A picture without a first pixel cannot be walked over. -/
theorem start?_eq_none (horigin : a.grid.get? .origin = none) (m : Machine) (limit : ℕ) :
    start? a m limit = none := by
  simp only [start?, Atlas.blockAt, horigin, Option.map_none]

/-- What is known of a walk at its start. -/
theorem start?_spec (h : a.Sound) {limit : ℕ} (hstart : start? a m limit = some w) :
    w.Over a.grid ∧ .origin ∈ w.current.pixels ∧ w = begin w.atlas m limit w.current := by
  rcases horigin : a.grid.get? .origin with _ | c
  · rw [start?_eq_none horigin] at hstart
    cases hstart
  · obtain ⟨a', b, heq, hgrid, hsound, hshown, hmem, -⟩ := start?_eq_some h m limit horigin
    obtain rfl := Option.some.inj (heq.symm.trans hstart)
    exact ⟨⟨hgrid, hsound, hshown, hshown⟩, hmem, rfl⟩

end Walk

end Piet
