import Piet.Paint.Canvas
import Piet.Proofs.Walk.Calls
import Piet.Proofs.Walk.Course

/-!
# A walk follows the course of its program

A walk finds blocks on demand and keeps them in its atlas.  `Walk.course` forgets all of that: of
its blocks it keeps the colours and the sets of pixels.  On a picture that can be held in memory
this commutes with every call for a step (`Walk.Over.course_step`), so a walk and the course of its
program agree call by call (`Walk.Over.course_after`) and in the whole run
(`Walk.Over.course_runFor`), whatever the atlas knew at the beginning: `Walk.follows_course`.

What has to be known of a block for this is that its pixels are listed once each and lie in the
picture.  Then its size is the number of its pixels and its exit is the one of the table, in
whatever order the pixels were found.
-/

namespace Piet

open Relation

/-! ### Pictures that can be held in memory -/

/-- A picture can be held in memory if its cells can, at one byte for each at the least. -/
def Grid.Storable (g : Grid) : Prop :=
  g.cells.size ≤ Canvas.maxMemory

instance (g : Grid) : Decidable g.Storable :=
  inferInstanceAs (Decidable (_ ≤ _))

namespace Grid.Storable

variable {g : Grid} {p : Pos}

/-- The coordinates of its pixels fit a signed word. -/
theorem near (hg : g.Storable) (hp : g.Inside p) : p.Near := by
  obtain ⟨hy, hx⟩ := hp
  have hcells : g.width * g.height < 2 ^ 63 :=
    (g.size_cells ▸ hg : g.width * g.height ≤ Canvas.maxMemory).trans_lt (by decide)
  have hwidth : g.width ≤ g.width * g.height := Nat.le_mul_of_pos_right _ (by omega)
  have hheight : g.height ≤ g.width * g.height := Nat.le_mul_of_pos_left _ (by omega)
  exact ⟨by omega, by omega⟩

end Grid.Storable

/-! ### Blocks as areas -/

/-- A block without the order in which its pixels were found. -/
def Block.area (b : Block) : Area :=
  ⟨b.color, {p | p ∈ b.pixels}⟩

namespace Block

variable {g : Grid} {b : Block} {p : Pos} {d : Direction}

theorem Shown.inside (h : b.Shown g) (hp : p ∈ b.pixels) : g.Inside p :=
  Grid.inside_of_get? (h.color p hp)

theorem Shown.near (hg : g.Storable) (h : b.Shown g) : b.Near := fun _ hp =>
  hg.near (h.inside hp)

/-- The size of a block is the number of its pixels. -/
theorem Shown.size_area (h : b.Shown g) : b.area.size = b.size := by
  have hset : b.area.pixels = ↑b.pixels.toList.toFinset := by
    ext p
    simp [area]
  rw [Area.size, hset, Set.ncard_coe_finset, List.toFinset_card_of_nodup h.nodup,
    Array.length_toList, size]

/-- No block has more pixels than its picture. -/
theorem Shown.size_le (h : b.Shown g) : b.size ≤ g.cells.size := by
  rw [size, ← Array.length_toList]
  exact Grid.length_le_size h.nodup fun p hp => h.inside (Array.mem_toList_iff.mp hp)

/-- The exit of a block is the pixel of the table. -/
theorem exit_area (hb : b.Near) (dp : Direction) (cc : Chooser) :
    b.area.exit dp cc = b.exit dp cc := by
  have hexit : ExitOf b.area.pixels (b.exit dp cc) dp cc := b.exitOf_exit hb dp cc
  have hspec : ExitOf b.area.pixels (b.area.exit dp cc) dp cc :=
    Classical.epsilon_spec (p := fun p => ExitOf b.area.pixels p dp cc) ⟨_, hexit⟩
  exact hspec.unique hexit

theorem Fills.area_eq (h : b.Fills g.get?) (hp : p ∈ b.pixels) :
    b.area = ⟨b.color, g.region p⟩ :=
  congrArg (Area.mk b.color) (h.eq_region hp)

end Block

/-! ### Stretches of white as areas -/

namespace Grid

variable {g : Grid} {p q : Pos} {d : Direction}

/-- The pixels of a slide are joined to its first one. -/
theorem mem_stretch_of_mem {b : Block} (h : b.Stretch d p)
    (hwhite : ∀ q ∈ b.pixels, g.get? q = some .white) : ∀ q ∈ b.pixels, q ∈ g.stretch d p := by
  induction h with
  | single =>
    intro q hq
    rw [Array.mem_singleton.mp hq]
    exact .refl
  | @push b r h hstep ih =>
    have hbefore := ih fun q hq => hwhite q (Block.mem_pixels_push.mpr (.inl hq))
    intro q hq
    rcases Block.mem_pixels_push.mp hq with hq | rfl
    · exact hbefore q hq
    · exact (hbefore _ b.final_mem).tail ⟨hstep, hwhite _ (Block.mem_pixels_push.mpr (.inr rfl))⟩

/-- **The pixels of a slide are the stretch of white.** -/
theorem area_whiteFrom (hp : g.get? p = some .white) (d : Direction) :
    (g.whiteFrom p d).area = ⟨.white, g.stretch d p⟩ := by
  obtain ⟨hstretch, hwhite, hend⟩ := g.whiteFrom_spec hp d
  rw [Block.area, hstretch.color_eq]
  refine congrArg (Area.mk .white) (Set.ext fun q => ⟨mem_stretch_of_mem hstretch hwhite q, ?_⟩)
  intro hq
  show q ∈ (g.whiteFrom p d).pixels
  induction hq with
  | refl => exact hstretch.mem_first
  | tail _ hstep ih =>
    obtain ⟨r, hr, hnext⟩ := hstretch.exists_next ih fun hlast =>
      hend _ (hlast ▸ hstep.1) hstep.2
    exact Option.some.inj (hnext.symm.trans hstep.1) ▸ hr

/-- A slide ends with the last pixel of the stretch. -/
theorem stretchEnd_eq (hp : g.get? p = some .white) (d : Direction) :
    g.stretchEnd d p = (g.whiteFrom p d).final := by
  obtain ⟨hstretch, hwhite, hend⟩ := g.whiteFrom_spec hp d
  have hfinal : (g.whiteFrom p d).final ∈ g.stretch d p ∧
      ∀ r, (g.whiteFrom p d).final.step d = some r → g.get? r ≠ some .white :=
    ⟨mem_stretch_of_mem hstretch hwhite _ (Block.final_mem _), hend⟩
  obtain ⟨hmem, hlast⟩ : g.stretchEnd d p ∈ g.stretch d p ∧
      ∀ r, (g.stretchEnd d p).step d = some r → g.get? r ≠ some .white :=
    Classical.epsilon_spec (p := fun q => q ∈ g.stretch d p ∧
      ∀ r, q.step d = some r → g.get? r ≠ some .white) ⟨_, hfinal⟩
  have hpixels : {q | q ∈ (g.whiteFrom p d).pixels} = g.stretch d p :=
    congrArg Area.pixels (g.area_whiteFrom hp d)
  have hpixel : g.stretchEnd d p ∈ (g.whiteFrom p d).pixels := (Set.ext_iff.mp hpixels _).mpr hmem
  -- A pixel of the slide that is not its last one is followed by white.
  by_contra hne
  obtain ⟨r, hr, hstep⟩ := hstretch.exists_next hpixel hne
  exact hlast r hstep (hwhite r hr)

end Grid

/-! ### The course of a walk -/

/-- A walk without its atlas and without the order of its pixels. -/
def Walk.course (w : Walk) : Course :=
  ⟨w.machine, w.limit, w.steps, w.flips, w.flipped, w.position, w.last.area, w.current.area⟩

/-- What a step tells of its blocks. -/
def Step.report (s : Step) : Course.Report :=
  ⟨s.iteration, s.position, s.instruction, s.blocked, s.flipped, (s.last.color, s.last.size),
    (s.current.color, s.current.size), s.ignored⟩

/-- What can be seen of a call from outside. -/
def Event.seen : Event → Course.Event
  | halted halt => .halted halt
  | continued s => .continued s.report
  | sinkFull => .sinkFull

namespace Walk

variable {w : Walk} {g : Grid} {a : Atlas} {b : Block} {p q : Pos} {n : ℕ}

namespace Over

theorem report (h : w.Over g) (i : Instruction) (blocked : Bool) (ignored : Option Fault) :
    (w.report i blocked ignored).report = w.course.report i blocked ignored := by
  rw [Course.report, course, h.last.size_area, h.current.size_area]
  rfl

theorem course_reposition (hg : g.Storable) (h : w.Over g) :
    w.reposition.course = w.course.atExit := by
  rw [reposition, Course.atExit]
  by_cases hwhite : w.current.color = .white
  · rw [if_pos hwhite, if_pos (by exact hwhite)]
  · rw [if_neg hwhite, if_neg (by exact hwhite)]
    have hexit := Block.exit_area (h.current.near hg) w.machine.dp w.machine.cc
    simp only [course, hexit]

theorem course_flip (hg : g.Storable) (h : w.Over g) : w.flip.course = w.course.flip :=
  course_reposition hg (h.of_frame rfl rfl rfl)

theorem course_turn (hg : g.Storable) (h : w.Over g) : w.turn.course = w.course.turn :=
  course_reposition hg (h.of_frame rfl rfl rfl)

/-- Looking for another way commutes with forgetting the atlas. -/
theorem course_detour (hg : g.Storable) (h : w.Over g) :
    (w.detour.1.course, w.detour.2.seen) = w.course.recover := by
  rcases hflipped : w.flipped with _ | _
  · have hrecover : w.course.recover =
        (w.course.flip.count, .continued (w.course.flip.report .noop true none)) := if_pos hflipped
    rw [detour_eq_flip hflipped, hrecover, ← h.course_flip hg, ← h.flip.report]
    rfl
  · have hne : ¬ w.course.flipped = false := (Bool.not_eq_false _).mpr hflipped
    rcases Nat.lt_or_ge w.flips 4 with hflips | hflips
    · have hrecover : w.course.recover =
          (w.course.turn.count, .continued (w.course.turn.report .noop true none)) :=
        (if_neg hne).trans (if_pos hflips)
      rw [detour_eq_turn hflipped hflips, hrecover, ← h.course_turn hg, ← h.turn.report]
      rfl
    · rw [detour_eq_finished hflipped hflips]
      exact ((if_neg hne).trans (if_neg (Nat.not_lt.mpr hflips))).symm

/-- What a walk enters is the area ahead, and it executes what the course does. -/
theorem course_entered (hg : g.Storable) (h : w.Over g)
    (hentry : w.atlas.Entry p w.machine.dp w.machine.cc a b q) :
    w.course.executed b.color =
        w.machine.execute (w.current.color.instructionTo b.color) w.current.size ∧
      (w.entered a b q).course = w.course.entered g b.color p := by
  have hexecuted : w.course.executed b.color =
      w.machine.execute (w.current.color.instructionTo b.color) w.current.size := by
    rw [Course.executed, course, h.current.size_area]
    rfl
  refine ⟨hexecuted, ?_⟩
  rw [Course.entered, hexecuted]
  obtain ⟨-, -, hmem, hshown, -, hwhite, hregion⟩ := hentry
  rw [h.grid] at hshown hwhite hregion
  by_cases hb : b.color = .white
  · obtain ⟨rfl, rfl⟩ := hwhite hb
    have hp : g.get? p = some .white := hb ▸ hshown.color p hmem
    have hnoop : w.current.color.instructionTo (g.whiteFrom p w.machine.dp).color = .noop := by
      rw [hb]
      cases w.current.color <;> rfl
    rw [entered_of_white hb, hnoop, Machine.execute_noop, if_pos hb]
    simp only [course, Grid.areaAt, if_pos hb, g.area_whiteFrom hp, g.stretchEnd_eq hp]
    rfl
  · obtain ⟨hfills, hq⟩ := hregion hb
    rw [entered_of_ne_white hb hq, if_neg hb]
    simp only [course, Grid.areaAt, if_neg hb, ← hfills.area_eq hmem,
      Block.exit_area (hshown.near hg)]
    rfl

/-- Entering commutes with forgetting the atlas. -/
theorem course_arrive (hg : g.Storable) (h : w.Over g)
    (hentry : w.atlas.Entry p w.machine.dp w.machine.cc a b q) :
    ((w.arrive a b q).1.course, (w.arrive a b q).2.seen) = w.course.enter g b.color p := by
  obtain ⟨hexecuted, hcourse⟩ := h.course_entered hg hentry
  rw [arrive, Course.enter, hexecuted, ← hcourse]
  by_cases hfull : (w.machine.execute (w.current.color.instructionTo b.color)
      w.current.size).2 = .sinkFull
  · rw [if_pos hfull, if_pos hfull]
    rfl
  · rw [if_neg hfull, if_neg hfull, ← (h.entered hentry).report]
    rfl

/-- **A call for a step commutes with forgetting the atlas.** -/
theorem course_step (hg : g.Storable) (h : w.Over g) :
    (w.step.1.course, w.step.2.seen) = w.course.step g := by
  rcases h.step_cases with ⟨hle, hstep⟩ | ⟨hlt, hahead, hstep⟩ |
    ⟨hlt, p, a, b, q, hahead, hentry, hstep⟩
  · rw [hstep]
    exact (if_pos hle).symm
  · rw [hstep, h.course_detour hg, w.course.step_of_shut hlt hahead]
  · have hp : g.get? p = some b.color := h.grid ▸ hentry.shown.color p hentry.mem
    rw [hstep, h.course_arrive hg hentry, w.course.step_of_open hlt hahead hp]

theorem course_after (hg : g.Storable) (h : w.Over g) (n : ℕ) :
    (w.after n).course = w.course.after g n := by
  induction n with
  | zero => rfl
  | succ n ih =>
    rw [after_succ, Course.after, ← ih, ← (h.after n).course_step hg]

/-- What is seen of a walk is what is seen of its course. -/
theorem seen_after (hg : g.Storable) (h : w.Over g) (n : ℕ) :
    (w.after n).step.2.seen = ((w.course.after g n).step g).2 := by
  rw [← h.course_after hg, ← (h.after n).course_step hg]

/-- A run of a walk is a run of its course. -/
theorem course_runFor (hg : g.Storable) (h : w.Over g) (fuel : ℕ) (notices : Array Notice) :
    ((w.runFor fuel notices).1.course, (w.runFor fuel notices).2) =
      Course.runFor g fuel w.course notices := by
  induction fuel generalizing w notices with
  | zero => rfl
  | succ fuel ih =>
    have hover := h.step
    rw [runFor, Course.runFor, ← h.course_step hg]
    rcases hstep : w.step with ⟨w', e⟩
    rw [hstep] at hover
    cases e with
    | halted halt => rfl
    | sinkFull => rfl
    | continued s =>
      have hnotice : s.report.notice? = s.notice? := rfl
      simp only [Event.seen, hnotice]
      cases s.notice? with
      | none => exact ih hover notices
      | some n => exact ih hover (notices.push n)

end Over

/-- **A walk starts where its course does**, and on the same pictures. -/
theorem map_course_start? (hg : a.grid.Storable) (h : a.Sound) (m : Machine) (limit : ℕ) :
    (start? a m limit).map course = Course.start? a.grid m limit := by
  rw [Course.start?]
  rcases horigin : a.grid.get? .origin with _ | color
  · rw [start?_eq_none horigin]
    rfl
  · obtain ⟨a', b, hstart, -, -, hshown, hmem, hsingle, hregion⟩ := start?_eq_some h m limit horigin
    obtain rfl : b.color = color := Option.some.inj ((hshown.color _ hmem).symm.trans horigin)
    have harea : (if b.color = .white then ⟨.white, {.origin}⟩
        else ⟨b.color, a.grid.region .origin⟩) = b.area := by
      by_cases hwhite : b.color = .white
      · rw [if_pos hwhite, hsingle hwhite]
        exact congrArg (Area.mk .white) (Set.ext fun q => Array.mem_singleton.symm)
      · rw [if_neg hwhite, (hregion hwhite).area_eq hmem]
    rw [hstart, Option.map_some, Option.map_some, harea, Course.begin,
      Block.exit_area (hshown.near hg)]
    rfl

/-- **A walk does what the course of its program does.**  On a picture that can be held in memory
and has a first pixel, take any machine and any limit.  Then there is a course that every walk over
the picture follows, whatever its atlas has been asked for before: after any number of calls the two
agree in their state, and the next call shows the same of both.  So they agree in the whole run as
well, which therefore does not depend on what the atlas knew.  The word that a push lays on the
stack stands for the number of pixels itself. -/
theorem follows_course {g : Grid} (hg : g.Storable) (horigin : g.Inside .origin) (m : Machine)
    (limit : ℕ) :
    ∃ c, Course.start? g m limit = some c ∧
      (∀ n, (Machine.sizeWord (c.after g n).current.size).toInt = (c.after g n).current.size) ∧
      ∀ asked, ∃ w, start? ((Atlas.ofGrid g).consult asked) m limit = some w ∧
        (∀ n, (w.after n).course = c.after g n ∧
          (w.after n).step.2.seen = ((c.after g n).step g).2) ∧
        (w.run.1.course, w.run.2) = c.run g := by
  obtain ⟨color, hcolor⟩ := Option.isSome_iff_exists.mp (Grid.isSome_get?.mpr horigin)
  -- The course is fixed before any walk: nothing in its definition knows of an atlas.
  obtain ⟨c, hc⟩ : ∃ c, Course.start? g m limit = some c := by
    rw [Course.start?, hcolor]
    exact ⟨_, rfl⟩
  have hwalk : ∀ asked, ∃ w, start? ((Atlas.ofGrid g).consult asked) m limit = some w ∧
      w.Over g ∧ w.course = c := by
    intro asked
    have hsound : ((Atlas.ofGrid g).consult asked).Sound := Atlas.sound_consult g asked
    have hgrid : ((Atlas.ofGrid g).consult asked).grid = g := Atlas.grid_consult g asked
    have hmap := map_course_start? (hgrid.symm ▸ hg) hsound m limit
    rw [hgrid, hc] at hmap
    obtain ⟨w, hw, hcourse⟩ := Option.map_eq_some_iff.mp hmap
    exact ⟨w, hw, hgrid ▸ (start?_spec hsound hw).1, hcourse⟩
  refine ⟨c, hc, fun n => ?_, fun asked => ?_⟩
  · -- Any walk will do to see that the areas of the course are no larger than the picture.
    obtain ⟨w, -, hover, rfl⟩ := hwalk []
    have hcurrent := (hover.after n).current
    rw [← hover.course_after hg]
    change (Machine.sizeWord (w.after n).current.area.size).toInt = (w.after n).current.area.size
    rw [hcurrent.size_area]
    exact Machine.toInt_sizeWord ((hcurrent.size_le.trans hg).trans_lt (by decide))
  · obtain ⟨w, hw, hover, rfl⟩ := hwalk asked
    exact ⟨w, hw, fun n => ⟨hover.course_after hg n, hover.seen_after hg n⟩,
      hover.course_runFor hg _ _⟩

/-- Two pixels in a row, a third one on whose entry their number is pushed, and a fourth one on
whose entry it is printed. -/
def tally : Grid :=
  ⟨4, 1, #[.shade (.ofInts 0 0), .shade (.ofInts 0 0), .shade (.ofInts 1 0), .shade (.ofInts 2 5)],
    rfl, by decide, by decide⟩

theorem follows_course_tally :
    tally.Storable ∧ tally.Inside .origin ∧
      ∃ c, Course.start? tally (.start #[]) 2 = some c ∧
        (c.run tally).1.machine.output.written = #[50] ∧
        (c.run tally).2 = (#[], .halted .stepLimit) ∧
        ∀ asked, ∃ w, start? ((Atlas.ofGrid tally).consult asked) (.start #[]) 2 = some w ∧
          (w.run.1.course, w.run.2) = c.run tally := by
  have hg : tally.Storable := by decide +kernel
  have horigin : tally.Inside .origin := by decide
  have hvalue : (start? ((Atlas.ofGrid tally).consult []) (.start #[]) 2).map
      (fun w => (w.run.1.machine.output.written, w.run.2)) =
        some (#[50], #[], .halted .stepLimit) := by decide +kernel
  obtain ⟨c, hc, -, hfollows⟩ := follows_course hg horigin (.start #[]) 2
  obtain ⟨w, hw, -, hrun⟩ := hfollows []
  rw [hw, Option.map_some, Option.some.injEq, Prod.mk.injEq] at hvalue
  refine ⟨hg, horigin, c, hc, ?_, ?_, fun asked => ?_⟩
  · rw [← hrun]
    exact hvalue.1
  · rw [← hrun]
    exact hvalue.2
  · obtain ⟨w', hw', -, hrun'⟩ := hfollows asked
    exact ⟨w', hw', hrun'⟩

end Walk

end Piet
