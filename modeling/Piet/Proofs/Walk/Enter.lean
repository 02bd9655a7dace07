import Piet.Proofs.Paint.Canvas
import Piet.Proofs.Walk.Takes

/-!
# Entering blocks and white

What one step does: a blocked one flips the chooser, turns the direction or ends the walk
(`Walk.detour_eq_flip`, `Walk.detour_eq_turn`, `Walk.detour_eq_finished`).  One that is not blocked
does the following, for a walk whose output has no bound.

* From wherever the pointer looks at a pixel of a coloured region, it enters that region, executes
  the instruction of the change of colour and then looks ahead from the exit of the region
  (`Walk.step_into_block`).
* From wherever it looks at white, it slides to the end of the stretch of white and executes
  nothing (`Walk.step_into_white`).  `Grid.whiteFrom_eq` says which stretch that is.

`Walk.InBlock` and `Walk.InWhite` are what is known of a walk between two such steps.  A block is
described by any block with the same pixels, since the order in which a fill finds them decides
neither its size nor its exits.
-/

namespace Piet

/-! ### Stretches of white -/

/-- A stretch of white cells one after another in a direction, from a first one on. -/
inductive Block.Stretch (d : Direction) (p : Pos) : Block → Prop
  | single : Stretch d p (.single .white p)
  | push {b : Block} {q : Pos} (h : Stretch d p b) (hstep : b.final.step d = some q) :
      Stretch d p (b.push q)

namespace Block.Stretch

variable {d : Direction} {p : Pos} {b : Block}

theorem color_eq (h : Stretch d p b) : b.color = .white := by
  induction h with
  | single => rfl
  | push _ _ ih => exact ih

theorem mem_first (h : Stretch d p b) : p ∈ b.pixels := by
  induction h with
  | single => exact Array.mem_singleton.mpr rfl
  | push _ _ ih => exact mem_pixels_push.mpr (.inl ih)

/-- The cells of a stretch are as many as the steps from its first to its last one, and one. -/
theorem reach_final (h : Stretch d p b) : d.reach b.final + 1 = d.reach p + b.size := by
  induction h with
  | single => rw [final_single]; rfl
  | @push b q h hstep ih =>
    rw [final_push, Pos.reach_step hstep, size, Block.push, Array.size_push]
    push_cast
    rw [size] at ih
    omega

/-- No cell of a stretch lies beyond its last one. -/
theorem reach_le_final (h : Stretch d p b) : ∀ q ∈ b.pixels, d.reach q ≤ d.reach b.final := by
  induction h with
  | single =>
    intro q hq
    rw [Array.mem_singleton.mp hq, final_single]
  | @push b r h hstep ih =>
    intro q hq
    rw [final_push, Pos.reach_step hstep]
    rcases mem_pixels_push.mp hq with hq | rfl
    · exact (ih q hq).trans (Int.le.intro 1 rfl)
    · exact (Pos.reach_step hstep).le

/-- A cell of a stretch that is not its last one is followed by another one. -/
theorem exists_next (h : Stretch d p b) {q : Pos} (hq : q ∈ b.pixels) (hne : q ≠ b.final) :
    ∃ r ∈ b.pixels, q.step d = some r := by
  induction h with
  | single => exact absurd (Array.mem_singleton.mp hq) hne
  | @push b s h hstep ih =>
    rcases mem_pixels_push.mp hq with hq | rfl
    · by_cases hlast : q = b.final
      · exact ⟨s, mem_pixels_push.mpr (.inr rfl), hlast ▸ hstep⟩
      · obtain ⟨r, hr, hqr⟩ := ih hq hlast
        exact ⟨r, mem_pixels_push.mpr (.inl hr), hqr⟩
    · exact absurd (final_push b q).symm hne

theorem nodup (h : Stretch d p b) : b.pixels.toList.Nodup := by
  induction h with
  | single => exact List.nodup_singleton _
  | @push b q h hstep ih =>
    have hnot : q ∉ b.pixels.toList := fun hq => by
      have hle := h.reach_le_final q (Array.mem_toList_iff.mp hq)
      rw [Pos.reach_step hstep] at hle
      omega
    rw [Block.push, Array.toList_push]
    exact List.nodup_append.mpr ⟨ih, List.nodup_singleton q, fun r hr s hs hrs =>
      hnot (List.mem_singleton.mp hs ▸ hrs ▸ hr)⟩

end Block.Stretch

namespace Grid

variable {g : Grid} {d : Direction} {p q : Pos} {b : Block}

/-- A slide first goes over the whole of a stretch of white. -/
theorem slide_stretch (h : b.Stretch d p) (hwhite : ∀ q ∈ b.pixels, g.get? q = some .white)
    {fuel : ℕ} (hfuel : b.size ≤ fuel + 1) :
    g.slide d fuel (.single .white p) = g.slide d (fuel + 1 - b.size) b := by
  induction h with
  | single => rfl
  | @push b q h hstep ih =>
    have hsize : (b.push q).size = b.size + 1 := Array.size_push _
    rw [hsize] at hfuel ⊢
    rw [ih (fun r hr => hwhite r (Block.mem_pixels_push.mpr (.inl hr))) (by omega),
      show fuel + 1 - b.size = fuel + 1 - (b.size + 1) + 1 by omega, slide, hstep]
    exact if_pos (hwhite q (Block.mem_pixels_push.mpr (.inr rfl)))

theorem color_whiteFrom (g : Grid) (p : Pos) (d : Direction) :
    (g.whiteFrom p d).color = .white := by
  suffices key : ∀ (fuel : ℕ) (b : Block), (g.slide d fuel b).color = b.color from key _ _
  intro fuel
  induction fuel with
  | zero => exact fun _ => rfl
  | succ fuel ih =>
    intro b
    rw [slide]
    split
    · rfl
    · split
      · exact ih _
      · rfl

/-- The distance between two pixels of a picture is less than its sides together. -/
theorem reach_sub_lt (hp : g.Inside p) (hq : g.Inside q) :
    d.reach q - d.reach p < g.width + g.height := by
  obtain ⟨hpy, hpx⟩ := hp
  obtain ⟨hqy, hqx⟩ := hq
  cases d <;> simp only [Direction.reach] <;> omega

/-- The slide from a pixel is the stretch of white that ends in front of something else. -/
theorem whiteFrom_eq (h : b.Stretch d p) (hwhite : ∀ q ∈ b.pixels, g.get? q = some .white)
    (hfirst : p ∈ b.pixels) (hend : ∀ q, b.final.step d = some q → g.get? q ≠ some .white) :
    g.whiteFrom p d = b := by
  have hreach := h.reach_final
  have hlt := reach_sub_lt (d := d) (inside_of_get? (hwhite p hfirst))
    (inside_of_get? (hwhite _ b.final_mem))
  rw [whiteFrom, slide_stretch h hwhite (by omega)]
  generalize g.width + g.height + 1 - b.size = fuel
  cases fuel with
  | zero => rfl
  | succ fuel =>
    rw [slide]
    split
    · rfl
    · next q hq => exact if_neg (hend q hq)

/-- A slide over white with enough fuel is a stretch of white that ends in front of something
else: a stretch that is longer than the picture cannot be. -/
theorem slide_spec (h : b.Stretch d p) (hwhite : ∀ q ∈ b.pixels, g.get? q = some .white)
    {fuel : ℕ} (hfuel : g.width + g.height < b.size + fuel) :
    (g.slide d fuel b).Stretch d p ∧
      (∀ q ∈ (g.slide d fuel b).pixels, g.get? q = some .white) ∧
      ∀ q, (g.slide d fuel b).final.step d = some q → g.get? q ≠ some .white := by
  induction fuel generalizing b with
  | zero =>
    have hreach := h.reach_final
    have hlt := reach_sub_lt (d := d) (inside_of_get? (hwhite p h.mem_first))
      (inside_of_get? (hwhite _ b.final_mem))
    omega
  | succ fuel ih =>
    rw [slide]
    split
    · next hnone =>
      refine ⟨h, hwhite, fun q hq => ?_⟩
      rw [hnone] at hq
      cases hq
    · next q hq =>
      split
      · next hqw =>
        have hsize : (b.push q).size = b.size + 1 := Array.size_push _
        refine ih (h.push hq) (fun r hr => ?_) (by omega)
        rcases Block.mem_pixels_push.mp hr with hr | rfl
        · exact hwhite r hr
        · exact hqw
      · next hqw =>
        refine ⟨h, hwhite, fun r hr => ?_⟩
        obtain rfl : q = r := Option.some.inj (hq.symm.trans hr)
        exact hqw

/-- **What a slide from a white pixel covers.** -/
theorem whiteFrom_spec (hp : g.get? p = some .white) (d : Direction) :
    (g.whiteFrom p d).Stretch d p ∧
      (∀ q ∈ (g.whiteFrom p d).pixels, g.get? q = some .white) ∧
      ∀ q, (g.whiteFrom p d).final.step d = some q → g.get? q ≠ some .white := by
  refine slide_spec .single (fun q hq => ?_) (Nat.lt_add_of_pos_left Nat.one_pos)
  rwa [Array.mem_singleton.mp hq]

theorem ahead?_eq_some_iff : g.ahead? p d = some q ↔ p.step d = some q ∧ g.Open q := by
  rw [ahead?, Option.filter_eq_some_iff, decide_eq_true_eq]

theorem open_of_get? {c : Color} (h : g.get? p = some c) (hc : c ≠ .black) : g.Open p := by
  rw [Open, h]
  exact ⟨Option.some_ne_none c, fun he => hc (Option.some.inj he)⟩

end Grid

/-- Why an instruction that ended in this way was ignored, if it was. -/
def Outcome.fault? : Outcome → Option Fault
  | ignored fault => some fault
  | _ => none

namespace Walk

variable {w : Walk} {g : Grid} {m : Machine} {b : Block} {p q : Pos} {a : Atlas}

/-! ### A blocked step -/

/-- Where the way is shut, a step looks for another one. -/
theorem step_of_shut (hlt : w.steps < w.limit)
    (hshut : w.atlas.grid.ahead? w.position w.machine.dp = none) : w.step = w.detour := by
  rw [step, if_neg (Nat.not_le.mpr hlt), hshut]

theorem detour_eq_flip (h : w.flipped = false) :
    w.detour = (w.flip.count, .continued (w.flip.report .noop true none)) :=
  if_neg (Bool.eq_false_iff.mp h)

theorem detour_eq_turn (h : w.flipped = true) (hflips : w.flips < 4) :
    w.detour = (w.turn.count, .continued (w.turn.report .noop true none)) :=
  (if_pos h).trans (if_neg (Nat.not_le.mpr hflips))

theorem detour_eq_finished (h : w.flipped = true) (hflips : 4 ≤ w.flips) :
    w.detour = (w, .halted .finished) :=
  (if_pos h).trans (if_pos hflips)

theorem reposition_of_ne_white (h : w.current.color ≠ .white) :
    w.reposition = { w with position := w.current.exit w.machine.dp w.machine.cc } :=
  if_neg h

/-- A flip of the chooser in a coloured block. -/
theorem flip_of_ne_white (h : w.current.color ≠ .white) :
    w.flip = { w with
      machine := { w.machine with cc := w.machine.cc.flip 1 }
      flips := w.flips + 1
      flipped := true
      position := w.current.exit w.machine.dp (w.machine.cc.flip 1) } :=
  reposition_of_ne_white h

/-- A turn of the direction in a coloured block. -/
theorem turn_of_ne_white (h : w.current.color ≠ .white) :
    w.turn = { w with
      machine := { w.machine with dp := w.machine.dp.rotate 1 }
      flipped := false
      position := w.current.exit (w.machine.dp.rotate 1) w.machine.cc } :=
  reposition_of_ne_white h

/-! ### One step -/

/-- The walk that has entered a block, before the step is counted. -/
def entered (w : Walk) (a : Atlas) (b : Block) (next : Pos) : Walk :=
  let i := w.current.color.instructionTo b.color
  let m := (w.machine.execute i w.current.size).1
  let w' : Walk := ⟨a, m, w.limit, w.steps, if w.current.color.Resets b.color then 0 else w.flips,
    false, next, w.current, b⟩
  if i = .pointer ∨ i = .switch then w'.reposition else w'

/-- What happens at the entry to a block: it is a step, unless the output is too full for the
instruction. -/
def arrive (w : Walk) (a : Atlas) (b : Block) (next : Pos) : Walk × Event :=
  let i := w.current.color.instructionTo b.color
  let outcome := (w.machine.execute i w.current.size).2
  if outcome = .sinkFull then (w.entered a b next, .sinkFull)
  else ((w.entered a b next).count, .continued ((w.entered a b next).report i false outcome.fault?))

theorem enter_eq_arrive (h : w.atlas.enter p w.machine.dp w.machine.cc = (a, some (b, q))) :
    w.enter p = w.arrive a b q := by
  -- What fills the output does not steer, so nothing is left out when the output is full.
  have hsteer : (w.machine.execute (w.current.color.instructionTo b.color) w.current.size).2 =
      .sinkFull → ¬ (w.current.color.instructionTo b.color = .pointer ∨
        w.current.color.instructionTo b.color = .switch) := Machine.not_steers_of_sinkFull
  obtain ⟨atlas, machine, limit, steps, flips, flipped, position, last, current⟩ := w
  simp only [enter, entered, arrive] at h hsteer ⊢
  rw [h]
  simp only [cross]
  cases ho : (machine.execute (current.color.instructionTo b.color) current.size).2 with
  | sinkFull => rw [if_pos rfl, if_neg (hsteer ho)]
  | done => rfl
  | ignored fault => rfl

/-- An output without a bound is never full. -/
theorem enter_eq (hout : w.machine.output.capacity = none)
    (h : w.atlas.enter p w.machine.dp w.machine.cc = (a, some (b, q))) :
    ∃ fault, w.enter p = ((w.entered a b q).count, .continued
      ((w.entered a b q).report (w.current.color.instructionTo b.color) false fault)) :=
  ⟨_, (enter_eq_arrive h).trans (if_neg (Machine.execute_unbounded hout).2)⟩

/-- A block that was entered at its exit is looked out of from its exit, also if the instruction
has changed the heading. -/
theorem entered_of_ne_white (h : b.color ≠ .white) (hq : q = b.exit w.machine.dp w.machine.cc) :
    let m := (w.machine.execute (w.current.color.instructionTo b.color) w.current.size).1
    w.entered a b q = ⟨a, m, w.limit, w.steps,
      if w.current.color.Resets b.color then 0 else w.flips, false, b.exit m.dp m.cc, w.current,
      b⟩ := by
  subst hq
  intro m
  by_cases hsteer : Machine.Steers (w.current.color.instructionTo b.color)
  · exact (if_pos hsteer).trans (reposition_of_ne_white h)
  · have hhead : m.dp = w.machine.dp ∧ m.cc = w.machine.cc := Machine.execute_heading hsteer
    rw [hhead.1, hhead.2]
    exact if_neg hsteer

/-- White is entered without executing anything. -/
theorem entered_of_white (h : b.color = .white) :
    w.entered a b q = ⟨a, w.machine, w.limit, w.steps,
      if w.current.color.Resets b.color then 0 else w.flips, false, q, w.current, b⟩ := by
  have hi : w.current.color.instructionTo b.color = .noop := by
    rw [h]
    cases w.current.color <;> rfl
  simp only [entered, hi]
  exact if_neg (by decide)

/-- What is known of a walk between two steps that were not blocked. -/
structure Standing (w : Walk) (g : Grid) (m : Machine) : Prop where
  grid : w.atlas.grid = g
  sound : w.atlas.Sound
  machine : w.machine = m
  flips : w.flips = 0
  flipped : w.flipped = false

/-- The walk is in the block with these pixels, at its exit. -/
structure InBlock (w : Walk) (g : Grid) (m : Machine) (b : Block) : Prop
    extends Standing w g m where
  fills : w.current.Fills g.get?
  color : w.current.color = b.color
  mem : ∀ q, q ∈ w.current.pixels ↔ q ∈ b.pixels
  position : w.position = b.exit m.dp m.cc

/-- The walk is in white, at this pixel. -/
structure InWhite (w : Walk) (g : Grid) (m : Machine) (p : Pos) : Prop
    extends Standing w g m where
  color : w.current.color = .white
  position : w.position = p

/-- A step towards an open pixel enters it. -/
theorem Standing.step_eq (h : w.Standing g m) (hlt : w.steps < w.limit)
    (hstep : w.position.step m.dp = some p) (hopen : g.Open p) : w.step = w.enter p := by
  have hahead : w.atlas.grid.ahead? w.position w.machine.dp = some p := by
    rw [h.grid, h.machine]
    exact Grid.ahead?_eq_some_iff.mpr ⟨hstep, hopen⟩
  rw [step, if_neg (Nat.not_le.mpr hlt), hahead]

/-- The step from a walk is taken, is not blocked and leads to such a walk. -/
def StepsTo (w : Walk) (P : Walk → Prop) : Prop :=
  ∃ w' s, w.step = (w', .continued s) ∧ s.blocked = false ∧ P w'

/-- **Entering a coloured region.** -/
theorem step_into_block (h : w.Standing g m) (hout : m.output.capacity = none)
    (hlt : w.steps < w.limit) (hstep : w.position.step m.dp = some p) (hb : b.Fills g.get?)
    (hnear : b.Near) (hp : p ∈ b.pixels) {t : Shade} (hcolor : b.color = .shade t) :
    w.StepsTo fun w' =>
      w'.InBlock g (m.execute (w.current.color.instructionTo b.color) w.current.size).1 b := by
  obtain ⟨hgrid, hsound, rfl, hflips, hflipped⟩ := h
  have hget : g.get? p = some (.shade t) := by rw [hb.color p hp, hcolor]
  obtain ⟨a, b', hblock, hgrid', hsound', hfills, hp'⟩ := hsound.blockAt (hgrid ▸ hget)
  rw [hgrid] at hfills hgrid'
  have hmem := hfills.mem_iff_mem g.bounded hb hp' hp
  have hcolor' : b'.color = b.color := hfills.color_eq hb hp' hp
  have hexit : ∀ dp cc, b'.exit dp cc = b.exit dp cc := fun dp cc =>
    (Block.exit_congr hnear (fun q => (hmem q).symm) dp cc).symm
  have henter : w.atlas.enter p w.machine.dp w.machine.cc =
      (a, some (b', b'.exit w.machine.dp w.machine.cc)) := by
    simp only [Atlas.enter, hgrid, hget, hblock]
  obtain ⟨fault, hentered⟩ := enter_eq hout henter
  have hopen := Grid.open_of_get? hget (Color.shade_ne_black t)
  have hwalk := (Standing.step_eq ⟨hgrid, hsound, rfl, hflips, hflipped⟩ hlt hstep hopen).trans
    hentered
  refine ⟨_, _, hwalk, rfl, ?_⟩
  have hwhite : b'.color ≠ .white := by
    rw [hcolor', hcolor]
    exact Color.shade_ne_white t
  rw [entered_of_ne_white hwhite rfl, hcolor', hflips, ite_self]
  exact ⟨⟨hgrid', hsound', rfl, rfl, rfl⟩, hfills, hcolor', hmem, hexit _ _⟩

/-- **Sliding over white.** -/
theorem step_into_white (h : w.Standing g m) (hout : m.output.capacity = none)
    (hlt : w.steps < w.limit) (hstep : w.position.step m.dp = some p)
    (hp : g.get? p = some .white) :
    w.StepsTo fun w' => w'.InWhite g m (g.whiteFrom p m.dp).final := by
  obtain ⟨hgrid, hsound, rfl, hflips, hflipped⟩ := h
  have henter : w.atlas.enter p w.machine.dp w.machine.cc =
      (w.atlas, some (g.whiteFrom p w.machine.dp, (g.whiteFrom p w.machine.dp).final)) := by
    simp only [Atlas.enter, hgrid, hp]
  obtain ⟨fault, hentered⟩ := enter_eq hout henter
  have hopen := Grid.open_of_get? hp Color.white_ne_black
  have hwalk := (Standing.step_eq ⟨hgrid, hsound, rfl, hflips, hflipped⟩ hlt hstep hopen).trans
    hentered
  refine ⟨_, _, hwalk, rfl, ?_⟩
  have hwhite : (g.whiteFrom p w.machine.dp).color = .white := g.color_whiteFrom p _
  rw [entered_of_white hwhite, hflips, ite_self]
  exact ⟨⟨hgrid, hsound, rfl, rfl, rfl⟩, hwhite, rfl⟩

/-! ### The first step -/

/-- A walk over a picture whose first pixel lies in a coloured region begins in that region. -/
theorem start?_inBlock (hb : b.Fills g.get?) (hnear : b.Near) (hp : .origin ∈ b.pixels)
    {t : Shade} (hcolor : b.color = .shade t) (m : Machine) (n : ℕ) :
    ∃ w, start? (.ofGrid g) m n = some w ∧ w.InBlock g m b ∧ w.steps = 0 ∧ w.limit = n := by
  have hget : g.get? .origin = some (.shade t) := by rw [hb.color _ hp, hcolor]
  obtain ⟨a, b', hblock, hgrid', hsound', hfills, hp'⟩ :=
    (Atlas.sound_ofGrid g).blockAt (p := .origin) hget
  have hmem := hfills.mem_iff_mem g.bounded hb hp' hp
  have hcolor' : b'.color = b.color := hfills.color_eq hb hp' hp
  have hwhite : ¬ b'.color = .white := by
    rw [hcolor', hcolor]
    exact Color.shade_ne_white t
  have hexit : b'.exit m.dp m.cc = b.exit m.dp m.cc :=
    (Block.exit_congr hnear (fun q => (hmem q).symm) _ _).symm
  have hget' : (Atlas.ofGrid g).grid.get? .origin = some (.shade t) := hget
  refine ⟨⟨a, m, n, 0, 0, false, b'.exit m.dp m.cc, b', b'⟩, ?_,
    ⟨⟨hgrid', hsound', rfl, rfl, rfl⟩, hfills, hcolor', hmem, hexit⟩, rfl, rfl⟩
  simp only [start?, hget', hblock, Option.map_some, if_neg hwhite]

end Walk

end Piet
