import Piet.Proofs.Walk.Invariant
import Piet.Proofs.Walk.Trail

/-!
# The step limit only cuts a run off

A run takes steps until a call does not take one, or until the limit is reached
(`Walk.exists_takes_runFor`).  Below the limit its steps are those of a run under any larger limit,
and the output only grows from call to call (`Walk.Over.written_step`), so the run under the larger
limit goes on from where the other one was cut off (`Walk.runFor_withLimit_of_le`).

A call that halts touches nothing (`Walk.Over.step_of_halted`), so it can be made again, and so can
the run that has come to it (`Walk.Over.halted_of_run`).  `Walk.limit_truncates` puts this together.
-/

namespace Piet

/-- How a run ends with what a call has led to, if it does. -/
def Event.ending? : Event → Option Ending
  | halted halt => some (.halted halt)
  | continued _ => none
  | sinkFull => some .sinkFull

/-- What does not end a run is a step. -/
theorem Event.exists_eq_continued {e : Event} (h : e.ending? = none) : ∃ s, e = .continued s := by
  cases e with
  | halted halt => cases h
  | continued s => exact ⟨s, rfl⟩
  | sinkFull => cases h

namespace Walk

variable {w w' w₀ : Walk} {g : Grid} {a : Atlas} {b : Block} {q : Pos} {halt : Halt} {l : List Step}
  {n fuel : ℕ} {notices : Array Notice}

theorem after_add (w : Walk) (m n : ℕ) : w.after (m + n) = (w.after m).after n := by
  induction n with
  | zero => rfl
  | succ n ih => rw [← Nat.add_assoc, after_succ, after_succ, ih]

theorem after_step (w : Walk) (n : ℕ) : w.step.1.after n = w.after (n + 1) := by
  rw [Nat.add_comm, after_add]
  rfl

/-! ### A call -/

theorem entered_count (w : Walk) (a : Atlas) (b : Block) (q : Pos) :
    (w.entered a b q).steps = w.steps ∧ (w.entered a b q).limit = w.limit := by
  rw [entered]
  split
  · exact reposition_count _
  · exact ⟨rfl, rfl⟩

theorem written_entered (w : Walk) (a : Atlas) (b : Block) (q : Pos) :
    w.machine.output.written.toList <+: (w.entered a b q).machine.output.written.toList := by
  rw [(w.entered_frame a b q).2.1]
  exact Machine.written_execute _ _ _

namespace Over

/-- Where a call halts: at the limit, or where the way is shut after the fourth flip. -/
theorem halted_cases (h : w.Over g) (hhalt : w.step.2 = .halted halt) :
    (halt = .stepLimit ∧ w.limit ≤ w.steps ∧ w.step = (w, .halted .stepLimit)) ∨
      (halt = .finished ∧ w.steps < w.limit ∧ w.flipped = true ∧ 4 ≤ w.flips ∧
        w.step = (w, .halted .finished)) := by
  rcases h.step_cases with ⟨hle, hstep⟩ | ⟨hlt, -, hstep⟩ | ⟨-, p, a, b, q, -, -, hstep⟩
  · rw [hstep] at hhalt
    exact .inl ⟨(Event.halted.inj hhalt).symm, hle, hstep⟩
  · rw [hstep] at hhalt
    rcases w.detour_spec with ⟨-, hd⟩ | ⟨-, -, hd⟩ | ⟨hflipped, hflips, hd⟩
    · rw [hd] at hhalt
      cases hhalt
    · rw [hd] at hhalt
      cases hhalt
    · rw [hd] at hhalt
      exact .inr ⟨(Event.halted.inj hhalt).symm, hlt, hflipped, hflips, hstep.trans hd⟩
  · have henters := (w.arrive_frame a b q).2.2.2
    rw [← hstep, hhalt] at henters
    exact henters.elim

/-- **A call that halts touches nothing**, and it halts for the limit exactly where that has been
reached. -/
theorem step_of_halted (h : w.Over g) (hhalt : w.step.2 = .halted halt) :
    w.step = (w, .halted halt) ∧ (halt = .stepLimit ↔ w.limit ≤ w.steps) := by
  rcases h.halted_cases hhalt with ⟨rfl, hle, hstep⟩ | ⟨rfl, hlt, -, -, hstep⟩
  · exact ⟨hstep, fun _ => hle, fun _ => rfl⟩
  · exact ⟨hstep, Halt.noConfusion, fun hle => absurd hle (Nat.not_le.mpr hlt)⟩

/-- No call takes a walk beyond its limit. -/
theorem steps_step_le (h : w.Over g) (hle : w.steps ≤ w.limit) :
    w.step.1.limit = w.limit ∧ w.step.1.steps ≤ w.limit := by
  rcases h.step_cases with ⟨-, hstep⟩ | ⟨hlt, -, hstep⟩ | ⟨hlt, p, a, b, q, -, -, hstep⟩
  · rw [hstep]
    exact ⟨rfl, hle⟩
  · rw [hstep]
    rcases w.detour_cases with hd | hd | hd
    · rw [hd]
      exact ⟨(reposition_count _).2, (congrArg (· + 1) (reposition_count _).1).trans_le hlt⟩
    · rw [hd]
      exact ⟨(reposition_count _).2, (congrArg (· + 1) (reposition_count _).1).trans_le hlt⟩
    · rw [hd]
      exact ⟨rfl, hle⟩
  · rw [hstep]
    obtain ⟨hsteps, hlimit⟩ := w.entered_count a b q
    rcases w.arrive_eq_entered a b q with he | he
    · rw [he]
      exact ⟨hlimit, hsteps.trans_le hle⟩
    · rw [he]
      exact ⟨hlimit, (congrArg (· + 1) hsteps).trans_le hlt⟩

/-- **A call only adds to the output.** -/
theorem written_step (h : w.Over g) :
    w.machine.output.written.toList <+: w.step.1.machine.output.written.toList := by
  rcases h.step_cases with ⟨-, hstep⟩ | ⟨-, -, hstep⟩ | ⟨-, p, a, b, q, -, -, hstep⟩
  · exact hstep ▸ List.prefix_rfl
  · obtain ⟨-, -, -, ⟨dp, cc, hmachine⟩, -⟩ := w.detour_frame
    have houtput : w.detour.1.machine.output = w.machine.output := congrArg (·.output) hmachine
    exact hstep ▸ houtput ▸ List.prefix_rfl
  · rw [hstep]
    have hentered := w.written_entered a b q
    rcases w.arrive_eq_entered a b q with he | he
    · rwa [he]
    · rwa [he]

theorem written_after (h : w.Over g) (n : ℕ) :
    w.machine.output.written.toList <+: (w.after n).machine.output.written.toList := by
  induction n with
  | zero => exact List.prefix_rfl
  | succ n ih => exact ih.trans (h.after n).written_step

end Over

/-- Whatever is done to a walk, its limit stays and its steps do not go beyond it. -/
theorem Placed.steps_acts_le (h : w.Placed g) (hle : w.steps ≤ w.limit) (actions : List Action) :
    (w.acts actions).limit = w.limit ∧ (w.acts actions).steps ≤ w.limit := by
  induction actions using List.reverseRecOn with
  | nil => exact ⟨rfl, hle⟩
  | append_singleton actions x ih =>
    obtain ⟨hlimit, hsteps⟩ := ih
    rw [acts_snoc]
    cases x with
    | step =>
      obtain ⟨hlimit', hsteps'⟩ := (h.acts actions).steps_step_le (hlimit ▸ hsteps)
      exact ⟨hlimit'.trans hlimit, hlimit ▸ hsteps'⟩
    | poke m => exact ⟨hlimit, hsteps⟩

/-! ### A run -/

theorem Takes.eq_after (h : Takes w l w') : w' = w.after l.length := by
  induction h with
  | done => rfl
  | @step w w₁ w₂ s l hstep _ ih =>
    have hfirst : w₁ = w.after 1 := by rw [after_succ, after_zero, hstep]
    rw [ih, hfirst, ← after_add, List.length_cons, Nat.add_comm]

/-- Steps that are taken one after another. -/
theorem exists_takes_after {k : ℕ} (h : ∀ j < k, ∃ s, (w.after j).step.2 = .continued s) :
    ∃ l, l.length = k ∧ Takes w l (w.after k) := by
  induction k with
  | zero => exact ⟨[], rfl, .done w⟩
  | succ k ih =>
    obtain ⟨l, hlen, htakes⟩ := ih fun j hj => h j (Nat.lt_succ_of_lt hj)
    obtain ⟨s, hs⟩ := h k (Nat.lt_succ_self k)
    exact ⟨l ++ [s], by rw [List.length_append, hlen]; rfl, htakes.snoc (Prod.ext rfl hs)⟩

/-- A step that is taken is the first one of a run. -/
theorem runFor_succ_of_continued {s : Step} (hstep : w.step = (w', .continued s)) (fuel : ℕ)
    (notices : Array Notice) :
    ∃ notices', w.runFor (fuel + 1) notices = w'.runFor fuel notices' := by
  obtain ⟨notices', hgoes⟩ := (Takes.step hstep (.done _)).runFor_add fuel notices
  rw [List.length_singleton, Nat.add_comm] at hgoes
  exact ⟨notices', hgoes⟩

/-- A call that takes no step is the last one of a run. -/
theorem runFor_succ_of_ending {e : Event} {ending : Ending} (hstep : w.step = (w', e))
    (hend : e.ending? = some ending) (fuel : ℕ) (notices : Array Notice) :
    w.runFor (fuel + 1) notices = (w', notices, ending) := by
  cases e with
  | halted halt =>
    obtain rfl := Option.some.inj hend
    rw [runFor, hstep]
  | continued s => cases hend
  | sinkFull =>
    obtain rfl := Option.some.inj hend
    rw [runFor, hstep]

/-- **What a run is.**  It takes as many steps as it has fuel for and is cut off, or it takes fewer
and ends with a call that takes none. -/
theorem exists_takes_runFor (w : Walk) (fuel : ℕ) (notices : Array Notice) :
    ∃ l w', Takes w l w' ∧
      (l.length = fuel ∧ (w.runFor fuel notices).1 = w' ∧
          (w.runFor fuel notices).2.2 = .halted .stepLimit ∨
        l.length < fuel ∧ ∃ e, w'.step = ((w.runFor fuel notices).1, e) ∧
          e.ending? = some (w.runFor fuel notices).2.2) := by
  induction fuel generalizing w notices with
  | zero => exact ⟨[], w, .done w, .inl ⟨rfl, rfl, rfl⟩⟩
  | succ fuel ih =>
    rcases hstep : w.step with ⟨w₁, e⟩
    rcases hend : e.ending? with _ | ending
    · obtain ⟨s, rfl⟩ := Event.exists_eq_continued hend
      obtain ⟨notices', hgoes⟩ := runFor_succ_of_continued hstep fuel notices
      rw [hgoes]
      obtain ⟨l, w', htakes, hcases⟩ := ih w₁ notices'
      refine ⟨s :: l, w', .step hstep htakes, hcases.imp ?_ ?_⟩
      · exact And.imp_left (congrArg (· + 1))
      · exact And.imp_left Nat.succ_lt_succ
    · rw [runFor_succ_of_ending hstep hend]
      exact ⟨[], w, .done w, .inr ⟨Nat.succ_pos fuel, e, hstep, hend⟩⟩

/-- A run is a number of calls. -/
theorem exists_runFor_eq_after (w : Walk) (fuel : ℕ) (notices : Array Notice) :
    ∃ n, (w.runFor fuel notices).1 = w.after n := by
  obtain ⟨l, w', htakes, ⟨-, hrun, -⟩ | ⟨-, e, hstep, -⟩⟩ := w.exists_takes_runFor fuel notices
  · exact ⟨l.length, hrun.trans htakes.eq_after⟩
  · exact ⟨l.length + 1, by rw [after_succ, ← htakes.eq_after, hstep]⟩

namespace Over

/-- A run from where a call halts is that call. -/
theorem run_of_halted (h : w.Over g) (hstep : w.step = (w, .halted halt)) :
    w.run = (w, #[], .halted halt) := by
  obtain ⟨-, hlimit⟩ := h.step_of_halted (congrArg Prod.snd hstep)
  rw [run]
  rcases hfuel : w.limit - w.steps with _ | fuel
  · rw [hlimit.mpr (Nat.sub_eq_zero_iff_le.mp hfuel)]
    rfl
  · exact runFor_succ_of_ending hstep rfl fuel #[]

/-- **Where a run has halted, the next call halts for the same reason.**  It halts for the limit
only if it has taken all steps up to it. -/
theorem halted_of_run (h : w.Over g) (hle : w.steps ≤ w.limit)
    (hrun : w.run = (w', notices, .halted halt)) :
    w'.step = (w', .halted halt) ∧ (halt = .stepLimit → w'.steps = w.limit) := by
  have hspec := w.exists_takes_runFor (w.limit - w.steps) #[]
  rw [← run, hrun] at hspec
  obtain ⟨l, w'', htakes, hcases⟩ := hspec
  obtain ⟨hsteps, hlimit, -⟩ := htakes.steps_eq
  have hover : w''.Over g := htakes.eq_after ▸ h.after l.length
  rcases hcases with ⟨hlen, hw', hending⟩ | ⟨hlen, e, hstep, hending⟩
  · -- All steps up to the limit have been taken.
    obtain rfl : w' = w'' := hw'
    obtain rfl := Ending.halted.inj hending
    have hfull : w'.steps = w.limit := by omega
    exact ⟨by rw [Walk.step, if_pos (hlimit.trans hfull.symm).le], fun _ => hfull⟩
  · have he : e = .halted halt := by
      cases e with
      | halted halt' => rw [Ending.halted.inj (Option.some.inj hending)]
      | continued s => cases hending
      | sinkFull => cases hending
    subst he
    obtain ⟨hsame, hreached⟩ := hover.step_of_halted (congrArg Prod.snd hstep)
    obtain rfl : w' = w'' := congrArg Prod.fst (hstep.symm.trans hsame)
    exact ⟨hsame, fun hhalt => absurd (hreached.mp hhalt) (by omega)⟩

/-- After a call that has halted, a call or a run comes to the same. -/
theorem again_of_step (h : w.Over g) (hstep : w.step = (w', .halted halt)) :
    w'.step = (w', .halted halt) ∧ w'.run = (w', #[], .halted halt) := by
  obtain ⟨hsame, -⟩ := h.step_of_halted (congrArg Prod.snd hstep)
  obtain rfl : w' = w := congrArg Prod.fst (hstep.symm.trans hsame)
  exact ⟨hsame, h.run_of_halted hsame⟩

/-- After a run that has halted, a call or a run comes to the same. -/
theorem again_of_run (h : w.Over g) (hle : w.steps ≤ w.limit)
    (hrun : w.run = (w', notices, .halted halt)) :
    w'.step = (w', .halted halt) ∧ w'.run = (w', #[], .halted halt) := by
  obtain ⟨n, hn⟩ : ∃ n, w.run.1 = w.after n := w.exists_runFor_eq_after _ _
  have hover : w'.Over g := by
    rw [show w' = w.after n by rw [← hn, hrun]]
    exact h.after n
  exact hover.again_of_step (h.halted_of_run hle hrun).1

end Over

/-! ### Two limits -/

/-- **A run under a larger limit goes on** where the one under the smaller limit was cut off, and is
the same run if that was not cut off. -/
theorem runFor_withLimit_of_le (h : w.Over g) (hzero : w.steps = 0) {m : ℕ} (hle : n ≤ m) :
    let short := (w.withLimit n).runFor n #[]
    let long := (w.withLimit m).runFor m #[]
    short.1.machine.output.written.toList <+: long.1.machine.output.written.toList ∧
      (short.2.2 ≠ .halted .stepLimit →
        long.1.machine.output = short.1.machine.output ∧ long.2.2 = short.2.2) := by
  intro short long
  obtain ⟨l, w', htakes, hcases⟩ := (w.withLimit n).exists_takes_runFor n #[]
  obtain ⟨hsteps, hlimit, -⟩ := htakes.steps_eq
  have hcount : w'.steps = l.length := by
    rw [hsteps, withLimit, hzero, Nat.zero_add]
  have hlen : l.length ≤ n := by
    rcases hcases with ⟨hlen, -⟩ | ⟨hlen, -⟩ <;> omega
  have htakes' : Takes (w.withLimit m) l (w'.withLimit m) :=
    htakes.withLimit (show w.steps + l.length ≤ m by omega)
  obtain ⟨fuel, rfl⟩ := Nat.exists_eq_add_of_le (hlen.trans hle)
  obtain ⟨notices, hlong⟩ := htakes'.runFor_add fuel #[]
  have hover : (w.withLimit (l.length + fuel)).Over g := h.of_frame rfl rfl rfl
  rcases hcases with ⟨-, hshort, hending⟩ | ⟨hlt, e, hstep, hending⟩
  · -- The short run was cut off, and the long one goes on from there.
    refine ⟨?_, fun hne => absurd hending hne⟩
    have hover' : (w'.withLimit (l.length + fuel)).Over g :=
      htakes'.eq_after ▸ hover.after l.length
    obtain ⟨k, hk⟩ := exists_runFor_eq_after (w'.withLimit (l.length + fuel)) fuel notices
    have hwritten := hover'.written_after k
    rw [← hk, ← hlong] at hwritten
    rw [show short.1 = w' from hshort]
    exact hwritten
  · -- The call that ended the short run also ends the long one.
    have hstep' : (w'.withLimit (l.length + fuel)).step =
        (short.1.withLimit (l.length + fuel), e) := by
      rw [step_withLimit (by rw [hcount, hlimit]; exact hlt) (by omega), hstep]
    obtain ⟨fuel, rfl⟩ : ∃ k, fuel = k + 1 := ⟨fuel - 1, by omega⟩
    have hsame : long = (short.1.withLimit _, notices, short.2.2) :=
      hlong.trans (runFor_succ_of_ending hstep' hending fuel notices)
    rw [hsame]
    exact ⟨List.prefix_rfl, fun _ => ⟨rfl, rfl⟩⟩

/-- The output under a larger limit begins with the one under the smaller limit, and a run that was
not cut off stays the same. -/
theorem interpret_of_le (g : Grid) (input : Array UInt8) {m : ℕ} (hle : n ≤ m) :
    (g.interpret input n).output.toList <+: (g.interpret input m).output.toList ∧
      ((g.interpret input n).ending ≠ .halted .stepLimit →
        (g.interpret input m).output = (g.interpret input n).output ∧
          (g.interpret input m).ending = (g.interpret input n).ending) := by
  rcases hstart : start? (Atlas.ofGrid g) (.start input) n with _ | w₀
  · have hempty : ∀ k, g.interpret input k = ⟨#[], .halted .finished, #[]⟩ := fun k => by
      rw [Grid.interpret, start?_withLimit _ _ n, hstart]
      rfl
    rw [hempty n, hempty m]
    exact ⟨List.prefix_rfl, fun _ => ⟨rfl, rfl⟩⟩
  · obtain ⟨hover, -, hbegin⟩ := start?_spec (Atlas.sound_ofGrid g) hstart
    have hzero : w₀.steps = 0 := by
      rw [hbegin]
      rfl
    obtain ⟨hgrown, hsame⟩ := runFor_withLimit_of_le hover hzero hle
    obtain ⟨hout, hend⟩ := Grid.interpret_eq_runFor hstart hzero n
    obtain ⟨hout', hend'⟩ := Grid.interpret_eq_runFor hstart hzero m
    rw [hout, hout', hend, hend']
    exact ⟨hgrown, fun hne => (hsame hne).imp_left (congrArg Sink.written)⟩

/-- **The step limit only cuts a run off.**

* Under a larger limit the output of a program goes on from the output under a smaller one.  If that
  run finished, the two are the same.
* A run that halts for the limit has taken all steps up to it, whatever was done to the walk before.
* A call that halts touches nothing.  After a call or a run that has halted, another call or run
  halts for the same reason and touches nothing.  A run is no more than a number of calls. -/
theorem limit_truncates (g : Grid) :
    (∀ input n m, n ≤ m →
      (g.interpret input n).output.toList <+: (g.interpret input m).output.toList ∧
        ((g.interpret input n).ending = .halted .finished →
          (g.interpret input m).output = (g.interpret input n).output ∧
            (g.interpret input m).ending = .halted .finished)) ∧
      ∀ asked machine limit w₀,
        start? ((Atlas.ofGrid g).consult asked) machine limit = some w₀ → ∀ actions,
          let w := w₀.acts actions
          (w.run.2.2 = .halted .stepLimit → w.run.1.steps = limit) ∧
            (∀ w' halt, w.step = (w', .halted halt) → w' = w) ∧
            (∀ w' halt, (w.step = (w', .halted halt) ∨
                ∃ notices, w.run = (w', notices, .halted halt)) →
              w'.step = (w', .halted halt) ∧ w'.run = (w', #[], .halted halt)) ∧
            ∃ n, w.run.1 = w.after n := by
  refine ⟨fun input n m hle => ?_, fun asked machine limit w₀ hstart actions => ?_⟩
  · obtain ⟨hgrown, hsame⟩ := interpret_of_le g input hle
    refine ⟨hgrown, fun hfinished => ?_⟩
    obtain ⟨hout, hend⟩ := hsame (by rw [hfinished]; exact fun h => by cases h)
    exact ⟨hout, hend.trans hfinished⟩
  · intro w
    have hplaced₀ : w₀.Placed g := (start?_consult_regular hstart).toPlaced
    have hbegin := (start?_spec (Atlas.sound_consult g asked) hstart).2.2
    have hcount : w₀.steps ≤ w₀.limit ∧ w₀.limit = limit := by
      rw [hbegin]
      exact ⟨Nat.zero_le _, rfl⟩
    obtain ⟨hlimit, hsteps⟩ := hplaced₀.steps_acts_le hcount.1 actions
    have hover : w.Over g := (hplaced₀.acts actions).toOver
    have hle : w.steps ≤ w.limit := hsteps.trans hlimit.ge
    refine ⟨fun hend => ?_, fun w' halt hstep => ?_, fun w' halt hhalted => ?_,
      w.exists_runFor_eq_after _ _⟩
    · have hrun : w.run = (w.run.1, w.run.2.1, .halted .stepLimit) := by rw [← hend]
      rw [(hover.halted_of_run hle hrun).2 rfl, hlimit, hcount.2]
    · have hsame := (hover.step_of_halted (congrArg Prod.snd hstep)).1
      exact congrArg Prod.fst (hstep.symm.trans hsame)
    · rcases hhalted with hstep | ⟨notices, hrun⟩
      · exact hover.again_of_step hstep
      · exact hover.again_of_run hle hrun

/-- Two pixels that push and print their number, and a block that no exit leads out of. -/
def lastWord : Grid :=
  (Grid.ofCells? 3 2 #[.shade (.ofInts 0 0), .shade (.ofInts 1 0), .shade (.ofInts 2 5),
    .black, .shade (.ofInts 2 5), .shade (.ofInts 2 5)]).get (by decide)

/-- A walk over it that may take two steps. -/
def shortWalk : Walk :=
  (start? ((Atlas.ofGrid lastWord).consult []) (.start #[]) 2).get (by decide +kernel)

theorem limit_truncates_lastWord :
    ((lastWord.interpret #[] 2).output = #[49] ∧
      [49] <+: (lastWord.interpret #[] 1000000).output.toList) ∧
    ((lastWord.interpret #[] 10).ending = .halted .finished ∧
      (lastWord.interpret #[] 1000000).output = #[49] ∧
      (lastWord.interpret #[] 1000000).ending = .halted .finished) ∧
    start? ((Atlas.ofGrid lastWord).consult []) (.start #[]) 2 = some shortWalk ∧
      shortWalk.run.2.2 = .halted .stepLimit ∧ shortWalk.run.1.steps = 2 ∧
      shortWalk.run.1.run = (shortWalk.run.1, #[], .halted .stepLimit) := by
  have hstart : start? ((Atlas.ofGrid lastWord).consult []) (.start #[]) 2 = some shortWalk :=
    (Option.some_get _).symm
  have hshort : (lastWord.interpret #[] 2).output = #[49] := by decide +kernel
  have hten : (lastWord.interpret #[] 10).output = #[49] ∧
      (lastWord.interpret #[] 10).ending = .halted .finished := by decide +kernel
  have hrun : shortWalk.run.2 = (#[], .halted .stepLimit) := by decide +kernel
  obtain ⟨hlimits, hwalks⟩ := limit_truncates lastWord
  obtain ⟨hgrown, -⟩ := hlimits #[] 2 1000000 (by decide)
  obtain ⟨hout, hend⟩ := (hlimits #[] 10 1000000 (by decide)).2 hten.2
  obtain ⟨hsteps, -, hagain, -⟩ := hwalks [] (.start #[]) 2 shortWalk hstart []
  obtain ⟨-, hrun'⟩ := hagain shortWalk.run.1 .stepLimit
    (.inr ⟨#[], Prod.ext rfl hrun⟩)
  rw [hshort] at hgrown
  exact ⟨⟨hshort, hgrown⟩, ⟨hten.2, hout.trans hten.1, hend⟩, hstart, congrArg Prod.snd hrun,
    hsteps (congrArg Prod.snd hrun), hrun'⟩

end Walk

end Piet
