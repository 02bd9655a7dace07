import Piet.Proofs.Walk.Enter

/-!
# Trails and dead ends

A trail is a way through coloured blocks and stretches of white, laid down without a picture: it
lists the blocks in turn, says for each how the next one is reached from its exit, and keeps count
of the steps and of the machine.  `Trail.mono` and `Trail.grow` say how little it depends on what
is painted elsewhere.  On a picture in which its blocks are whole regions, a walk follows the trail
step by step and is never blocked (`Trail.follow`).

A walk in a block that no exit leads out of flips its chooser and turns its direction alternately.
It takes seven such steps, the last of which is the fourth flip, and then halts
(`Walk.Trapped.circle`, `Walk.Trapped.finished`).  So the run of a program that leads into such a
block in `n` steps is finished exactly if the limit allows more than `n + 7` steps, and cut off
otherwise (`Grid.interpret_of_trapped`).
-/

namespace Piet

/-- `Trail look input past n m b`: a pointer that starts with the machine for this input has come
through the blocks `past`, the last one first, and has entered `b` with its step number `n`, after
which the machine is `m`.  White on the way is seen by `look`. -/
inductive Trail (look : Pos → Option Color) (input : Array UInt8) :
    List Block → ℕ → Machine → Block → Prop
  | start {b : Block} {t : Shade} (hp : .origin ∈ b.pixels) (hcolor : b.color = .shade t) :
      Trail look input [] 0 (.start input) b
  | cross {past : List Block} {n : ℕ} {m : Machine} {b b' : Block} {p : Pos} {t : Shade}
      (h : Trail look input past n m b) (hstep : (b.exit m.dp m.cc).step m.dp = some p)
      (hp : p ∈ b'.pixels) (hcolor : b'.color = .shade t) :
      Trail look input (b :: past) (n + 1)
        (m.execute (b.color.instructionTo b'.color) b.size).1 b'
  | slide {past : List Block} {n : ℕ} {m : Machine} {b b' w : Block} {p q : Pos} {t : Shade}
      (h : Trail look input past n m b) (hstep : (b.exit m.dp m.cc).step m.dp = some p)
      (hw : w.Stretch m.dp p) (hwhite : ∀ r ∈ w.pixels, look r = some .white)
      (hend : w.final.step m.dp = some q) (hq : q ∈ b'.pixels) (hcolor : b'.color = .shade t) :
      Trail look input (b :: past) (n + 2) m b'

/-- A walk over the picture takes `n` steps, none of which is blocked, and is then such. -/
def Walk.Strides (g : Grid) (input : Array UInt8) (limit n : ℕ) (P : Walk → Prop) : Prop :=
  ∃ w₀ l w, Walk.start? (.ofGrid g) (.start input) limit = some w₀ ∧ Walk.Takes w₀ l w ∧
    l.length = n ∧ (∀ s ∈ l, s.blocked = false) ∧ w.steps = n ∧ w.limit = limit ∧ P w

theorem Walk.Strides.step {g : Grid} {input : Array UInt8} {limit n : ℕ} {P Q : Walk → Prop}
    (h : Walk.Strides g input limit n P)
    (hnext : ∀ w, w.steps = n → w.limit = limit → P w → w.StepsTo Q) :
    Walk.Strides g input limit (n + 1) Q := by
  obtain ⟨w₀, l, w, hstart, htakes, hlen, hfree, hsteps, hlimit, hP⟩ := h
  obtain ⟨w', s, hstep, hs, hQ⟩ := hnext w hsteps hlimit hP
  obtain ⟨-, hsteps', hlimit'⟩ := Walk.steps_of_step hstep
  refine ⟨w₀, l ++ [s], w', hstart, htakes.snoc hstep, by simp [hlen], fun s' hs' => ?_,
    by rw [hsteps', hsteps], hlimit'.trans hlimit, hQ⟩
  rcases List.mem_append.mp hs' with hs' | hs'
  · exact hfree s' hs'
  · rw [List.mem_singleton.mp hs', hs]

namespace Trail

variable {look look' : Pos → Option Color} {input : Array UInt8} {past : List Block} {n : ℕ}
  {m : Machine} {b b' : Block}

/-- A trail depends on what is painted only through the white it crosses. -/
theorem mono (h : Trail look input past n m b)
    (hlook : ∀ p, look p = some .white → look' p = some .white) : Trail look' input past n m b := by
  induction h with
  | start hp hcolor => exact .start hp hcolor
  | cross _ hstep hp hcolor ih => exact .cross ih hstep hp hcolor
  | slide _ hstep hw hwhite hend hq hcolor ih =>
    exact .slide ih hstep hw (fun r hr => hlook r (hwhite r hr)) hend hq hcolor

/-- The block that a trail has come to may be larger. -/
theorem grow (h : Trail look input past n m b) (hsub : ∀ p ∈ b.pixels, p ∈ b'.pixels)
    (heq : b'.color = b.color) : Trail look input past n m b' := by
  cases h with
  | start hp hcolor => exact .start (hsub _ hp) (heq.trans hcolor)
  | cross h hstep hp hcolor =>
    rw [← heq]
    exact .cross h hstep (hsub _ hp) (heq.trans hcolor)
  | slide h hstep hw hwhite hend hq hcolor =>
    exact .slide h hstep hw hwhite hend (hsub _ hq) (heq.trans hcolor)

/-- Every block of a trail is coloured. -/
theorem shades (h : Trail look input past n m b) : ∀ a ∈ b :: past, ∃ t, a.color = .shade t := by
  induction h with
  | start _ hcolor =>
    exact List.forall_mem_cons.mpr ⟨⟨_, hcolor⟩, fun a ha => absurd ha List.not_mem_nil⟩
  | cross _ _ _ hcolor ih => exact List.forall_mem_cons.mpr ⟨⟨_, hcolor⟩, ih⟩
  | slide _ _ _ _ _ _ hcolor ih => exact List.forall_mem_cons.mpr ⟨⟨_, hcolor⟩, ih⟩

theorem unbounded (h : Trail look input past n m b) : m.output.capacity = none := by
  induction h with
  | start => rfl
  | cross _ _ _ _ ih => exact (Machine.execute_unbounded ih).1
  | slide _ _ _ _ _ _ _ ih => exact ih

/-- **A walk follows the trail.**  If every block of it is a whole region of the picture, a walk
takes as many steps as the trail counts, is never blocked, and is then in its last block with its
machine. -/
theorem follow {g : Grid} (h : Trail look input past n m b)
    (hfills : ∀ a ∈ b :: past, a.Fills g.get? ∧ a.Near)
    (hlook : ∀ p, look p = some .white → g.get? p = some .white) {limit : ℕ} (hn : n ≤ limit) :
    Walk.Strides g input limit n fun w => w.InBlock g m b := by
  induction h with
  | start hp hcolor =>
    obtain ⟨hb, hnear⟩ := hfills _ List.mem_cons_self
    obtain ⟨w, hstart, hin, hsteps, hlimit⟩ :=
      Walk.start?_inBlock hb hnear hp hcolor (.start input) limit
    have hfree : ∀ s ∈ ([] : List Step), s.blocked = false := fun s hs => absurd hs List.not_mem_nil
    exact ⟨w, [], w, hstart, .done w, rfl, hfree, hsteps, hlimit, hin⟩
  | @cross past n m b b' p t h hstep hp hcolor ih =>
    obtain ⟨hb', hnear'⟩ := hfills _ List.mem_cons_self
    obtain ⟨hb, hnear⟩ := hfills b (List.mem_cons_of_mem _ List.mem_cons_self)
    have hbefore := ih (fun a ha => hfills a (List.mem_cons_of_mem _ ha)) (by omega)
    refine hbefore.step fun w hsteps hlimit hin => ?_
    have hsize : w.current.size = b.size := hin.fills.size_eq hb hin.mem
    rw [← hin.color, ← hsize]
    exact Walk.step_into_block hin.toStanding h.unbounded (by omega) (hin.position ▸ hstep) hb'
      hnear' hp hcolor
  | @slide past n m b b' w p q t h hstep hw hwhite hend hq hcolor ih =>
    obtain ⟨hb', hnear'⟩ := hfills _ List.mem_cons_self
    have hbefore := ih (fun a ha => hfills a (List.mem_cons_of_mem _ ha)) (by omega)
    have hgw : ∀ r ∈ w.pixels, g.get? r = some .white := fun r hr => hlook r (hwhite r hr)
    have hpw : p ∈ w.pixels := hw.mem_first
    -- The stretch ends in front of the next block, so the slide goes no further.
    have hslide : g.whiteFrom p m.dp = w := by
      refine Grid.whiteFrom_eq hw hgw hpw fun r hr hrw => ?_
      obtain rfl : q = r := Option.some.inj (hend.symm.trans hr)
      rw [hb'.color q hq, hcolor] at hrw
      cases hrw
    have hacross : Walk.Strides g input limit (n + 1) fun v => v.InWhite g m w.final := by
      refine hbefore.step fun v hsteps hlimit hin => ?_
      have hinto := Walk.step_into_white hin.toStanding h.unbounded (by omega)
        (hin.position ▸ hstep) (hgw p hpw)
      rwa [hslide] at hinto
    refine hacross.step fun v hsteps hlimit hin => ?_
    have hinto := Walk.step_into_block hin.toStanding h.unbounded (by omega)
      (hin.position ▸ hend) hb' hnear' hq hcolor
    have hnoop : v.current.color.instructionTo b'.color = .noop := by rw [hin.color]; rfl
    rwa [hnoop, Machine.execute_noop] at hinto

end Trail

/-! ### Running into a dead end -/

namespace Walk

variable {w : Walk} {g : Grid} {f k : ℕ}

/-- The walk is in a coloured block that it cannot leave, and has flipped its chooser `f` times
there. -/
structure Trapped (w : Walk) (g : Grid) (f : ℕ) (flipped : Bool) : Prop where
  grid : w.atlas.grid = g
  color : w.current.color ≠ .white
  position : w.position = w.current.exit w.machine.dp w.machine.cc
  dead : ∀ dp cc, g.ahead? (w.current.exit dp cc) dp = none
  flips : w.flips = f
  flipped : w.flipped = flipped

namespace Trapped

theorem step_eq {flipped : Bool} (h : w.Trapped g f flipped) (hlt : w.steps < w.limit) :
    w.step = w.detour := by
  have hahead : w.atlas.grid.ahead? w.position w.machine.dp = none := by
    rw [h.grid, h.position]
    exact h.dead _ _
  exact step_of_shut hlt hahead

/-- A step that flips the chooser. -/
theorem flip (h : w.Trapped g f false) (hlt : w.steps < w.limit) :
    ∃ w' s, w.step = (w', .continued s) ∧ w'.Trapped g (f + 1) true ∧
      w'.machine.output = w.machine.output := by
  refine ⟨_, _, (h.step_eq hlt).trans (detour_eq_flip h.flipped), ?_, ?_⟩
  · rw [flip_of_ne_white h.color]
    exact ⟨h.grid, h.color, rfl, h.dead, congrArg (· + 1) h.flips, rfl⟩
  · rw [flip_of_ne_white h.color]
    rfl

/-- A step that turns the direction. -/
theorem turn (h : w.Trapped g f true) (hf : f < 4) (hlt : w.steps < w.limit) :
    ∃ w' s, w.step = (w', .continued s) ∧ w'.Trapped g f false ∧
      w'.machine.output = w.machine.output := by
  have hflips : w.flips < 4 := h.flips.trans_lt hf
  refine ⟨_, _, (h.step_eq hlt).trans (detour_eq_turn h.flipped hflips), ?_, ?_⟩
  · rw [turn_of_ne_white h.color]
    exact ⟨h.grid, h.color, rfl, h.dead, h.flips, rfl⟩
  · rw [turn_of_ne_white h.color]
    rfl

/-- Flips and turns follow one another up to the fourth flip. -/
theorem circle (h : w.Trapped g f false) (hk : f + 1 + k = 4)
    (hle : w.steps + (1 + 2 * k) ≤ w.limit) :
    ∃ l w', Takes w l w' ∧ l.length = 1 + 2 * k ∧ w'.Trapped g 4 true ∧
      w'.machine.output = w.machine.output := by
  induction k generalizing w f with
  | zero =>
    obtain ⟨w₁, s₁, hstep₁, h₁, hout₁⟩ := h.flip (by omega)
    have hf : f + 1 = 4 := hk
    exact ⟨[s₁], w₁, .step hstep₁ (.done _), rfl, hf ▸ h₁, hout₁⟩
  | succ k ih =>
    obtain ⟨w₁, s₁, hstep₁, h₁, hout₁⟩ := h.flip (by omega)
    obtain ⟨-, hsteps₁, hlimit₁⟩ := steps_of_step hstep₁
    obtain ⟨w₂, s₂, hstep₂, h₂, hout₂⟩ := h₁.turn (by omega) (by omega)
    obtain ⟨-, hsteps₂, hlimit₂⟩ := steps_of_step hstep₂
    obtain ⟨l, w', htakes, hlen, h', hout'⟩ := ih h₂ (by omega) (by omega)
    refine ⟨s₁ :: s₂ :: l, w', .step hstep₁ (.step hstep₂ htakes), ?_, h', ?_⟩
    · rw [List.length_cons, List.length_cons, hlen]
      omega
    · rw [hout', hout₂, hout₁]

/-- After the fourth flip the walk halts. -/
theorem finished (h : w.Trapped g 4 true) (hlt : w.steps < w.limit) :
    w.step = (w, .halted .finished) :=
  (h.step_eq hlt).trans (detour_eq_finished h.flipped h.flips.ge)

end Trapped

/-- A walk in a block is trapped if no exit of the block leads to an open pixel. -/
theorem InBlock.trapped {m : Machine} {b : Block} (h : w.InBlock g m b) (hb : b.Near)
    (hcolor : b.color ≠ .white) (hdead : ∀ dp cc, g.ahead? (b.exit dp cc) dp = none) :
    w.Trapped g 0 false := by
  have hexit : ∀ dp cc, w.current.exit dp cc = b.exit dp cc := fun dp cc =>
    (Block.exit_congr hb (fun q => (h.mem q).symm) dp cc).symm
  refine ⟨h.grid, h.color ▸ hcolor, ?_, fun dp cc => ?_, h.flips, h.flipped⟩
  · rw [h.position, h.machine, hexit]
  · rw [hexit]
    exact hdead dp cc

end Walk

/-- What a run comes to does not depend on the limit with which its walk was made. -/
theorem Grid.interpret_eq_runFor {g : Grid} {input : Array UInt8} {n : ℕ} {w₀ : Walk}
    (hstart : Walk.start? (.ofGrid g) (.start input) n = some w₀) (hzero : w₀.steps = 0)
    (limit : ℕ) :
    (g.interpret input limit).output =
        ((w₀.withLimit limit).runFor limit #[]).1.machine.output.written ∧
      (g.interpret input limit).ending = ((w₀.withLimit limit).runFor limit #[]).2.2 := by
  have hstart' : Walk.start? (.ofGrid g) (.start input) limit = some (w₀.withLimit limit) := by
    rw [Walk.start?_withLimit, hstart, Option.map_some]
  have hfuel : (w₀.withLimit limit).limit - (w₀.withLimit limit).steps = limit := by
    rw [Walk.withLimit, hzero]
    rfl
  rw [Grid.interpret, hstart']
  simp only [Walk.run, hfuel]
  exact ⟨trivial, trivial⟩

/-- **The run of a program that ends in a dead end.**  It is finished if the limit allows more
steps than lead into the dead end and around its exits, and its output is what was written on the
way; otherwise it is cut off. -/
theorem Grid.interpret_of_trapped {g : Grid} {input : Array UInt8} {m : Machine} {b : Block}
    {n : ℕ} (hway : Walk.Strides g input (n + 8) n fun w => w.InBlock g m b) (hb : b.Near)
    (hcolor : b.color ≠ .white) (hdead : ∀ dp cc, g.ahead? (b.exit dp cc) dp = none)
    (limit : ℕ) :
    (n + 7 < limit → (g.interpret input limit).output = m.output.written ∧
        (g.interpret input limit).ending = .halted .finished) ∧
      (limit ≤ n + 7 → (g.interpret input limit).ending = .halted .stepLimit) := by
  obtain ⟨w₀, l, w, hstart, htakes, hlen, -, hsteps, hlimit, hin⟩ := hway
  obtain ⟨l', w', htakes', hlen', htrapped, hout⟩ :=
    (hin.trapped hb hcolor hdead).circle (k := 3) rfl (by omega)
  have hall : Walk.Takes w₀ (l ++ l') w' := htakes.append htakes'
  have hlen : (l ++ l').length = n + 7 := by
    rw [List.length_append, hlen, hlen']
  obtain ⟨hcount, hlim, -⟩ := hall.steps_eq
  have hzero : w₀.steps = 0 := by
    obtain ⟨hcount', -, -⟩ := htakes.steps_eq
    omega
  have hrun := Grid.interpret_eq_runFor hstart hzero limit
  refine ⟨fun hlt => ?_, fun hle => ?_⟩
  · have htakes := hall.withLimit (n := limit) (by omega)
    obtain ⟨fuel, hfuel⟩ : ∃ fuel, limit = (l ++ l').length + (fuel + 1) :=
      ⟨limit - (n + 8), by omega⟩
    obtain ⟨notices, hgoes⟩ := htakes.runFor_add (fuel + 1) #[]
    have htrapped' : (w'.withLimit limit).Trapped g 4 true :=
      ⟨htrapped.grid, htrapped.color, htrapped.position, htrapped.dead, htrapped.flips,
        htrapped.flipped⟩
    have hbelow : (w'.withLimit limit).steps < (w'.withLimit limit).limit := by
      show w'.steps < limit
      omega
    have hend : (w'.withLimit limit).runFor (fuel + 1) notices =
        (w'.withLimit limit, notices, .halted .finished) := by
      rw [Walk.runFor, htrapped'.finished hbelow]
    rw [← hfuel, hend] at hgoes
    rw [hgoes] at hrun
    refine ⟨hrun.1.trans ?_, hrun.2⟩
    show w'.machine.output.written = m.output.written
    rw [hout, hin.machine]
  · obtain ⟨w₁, htake⟩ := hall.take limit
    have hlength : ((l ++ l').take limit).length = limit := by
      rw [List.length_take]
      omega
    have htake' := htake.withLimit (n := limit) (by omega)
    rw [hrun.2]
    exact htake'.runFor_of_le hlength.ge #[]

end Piet
