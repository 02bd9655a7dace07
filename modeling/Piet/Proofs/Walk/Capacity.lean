import Piet.Proofs.Machine.Execute
import Piet.Proofs.Walk.Limit

/-!
# A full output does not lead astray

A walk whose output takes a bounded number of bytes is called for a step again and again, also after
calls that could not write.  It goes the way of the walk without such a bound: a call that could not
write has entered the block and taken the word off the stack, and all that is missing is that the
step is counted.

`Walk.capped` is the walk with the bounded output as a function of the other one.
`Walk.Over.echoes` compares one call of the two, and `Walk.Over.after_capped` any number of them;
`Walk.full_output` says it for walks from their start.
-/

namespace Piet

/-- The call could not write all that belongs to its step. -/
def Event.Fails : Event → Prop
  | sinkFull => True
  | halted _ | continued _ => False

instance : DecidablePred Event.Fails
  | .sinkFull => .isTrue trivial
  | .halted _ | .continued _ => .isFalse id

instance (e : Event) (halt : Halt) : Decidable (e = .halted halt) :=
  match e with
  | .halted halt' => decidable_of_iff (halt' = halt) ⟨congrArg _, Event.halted.inj⟩
  | .continued _ => .isFalse Event.noConfusion
  | .sinkFull => .isFalse Event.noConfusion

namespace Walk

variable {w w' w₀ : Walk} {g : Grid} {a : Atlas} {m : Machine} {limit n k : ℕ}

/-- The walk whose output takes `n` bytes in all, and which has counted `k` steps. -/
def capped (w : Walk) (n k : ℕ) : Walk :=
  { w with machine := w.machine.capped n, steps := k }

/-- Bytes have been written between two walks that are not all among the first `n`. -/
def Spills (n : ℕ) (w w' : Walk) : Prop :=
  Sink.Spills n w.machine.output w'.machine.output

instance (n : ℕ) (w w' : Walk) : Decidable (Spills n w w') :=
  inferInstanceAs (Decidable (Sink.Spills _ _ _))

/-- How many of the first calls for a step could not write. -/
def failures (w : Walk) : ℕ → ℕ
  | 0 => 0
  | k + 1 => failures w k + if (w.after k).step.2.Fails then 1 else 0

theorem failures_succ_of_fails (h : (w.after k).step.2.Fails) :
    w.failures (k + 1) = w.failures k + 1 :=
  congrArg (w.failures k + ·) (if_pos h)

theorem failures_succ_of_not_fails (h : ¬ (w.after k).step.2.Fails) :
    w.failures (k + 1) = w.failures k :=
  congrArg (w.failures k + ·) (if_neg h)

/-! ### A call -/

theorem reposition_capped (w : Walk) (n k : ℕ) :
    (w.capped n k).reposition = w.reposition.capped n k := by
  by_cases hc : w.current.color = .white
  · rw [reposition_of_white hc]
    exact reposition_of_white (w := w.capped n k) hc
  · rw [reposition_of_ne_white hc]
    exact reposition_of_ne_white (w := w.capped n k) hc

theorem flip_capped (w : Walk) (n k : ℕ) : (w.capped n k).flip = w.flip.capped n k := by
  rw [flip, flip, ← reposition_capped]
  rfl

theorem turn_capped (w : Walk) (n k : ℕ) : (w.capped n k).turn = w.turn.capped n k := by
  rw [turn, turn, ← reposition_capped]
  rfl

theorem entered_capped (hcap : w.machine.output.capacity = none) (n k : ℕ) (a : Atlas) (b : Block)
    (q : Pos) : (w.capped n k).entered a b q = (w.entered a b q).capped n k := by
  have hexecute : ((w.capped n k).machine.execute (w.current.color.instructionTo b.color)
      w.current.size).1 = ((w.machine.execute (w.current.color.instructionTo b.color)
        w.current.size).1).capped n := congrArg Prod.fst (Machine.execute_capped hcap n _ _)
  have hcurrent : (w.capped n k).current = w.current := rfl
  simp only [entered, hcurrent, hexecute]
  split
  · rw [← reposition_capped]
    rfl
  · rfl

/-- What one call comes to with a bounded output, next to what it comes to without the bound: both
are at their end, or both take the same step, or one takes a step and the other cannot write all
that belongs to it. -/
inductive Echoes (n k : ℕ) (w : Walk) : Prop
  | finished (h : w.step = (w, .halted .finished))
      (h' : (w.capped n k).step = (w.capped n k, .halted .finished))
  | taken (w' : Walk) (s : Step) (h : w.step = (w', .continued s)) (hfits : ¬ Spills n w w')
      (h' : (w.capped n k).step = (w'.capped n (k + 1), .continued { s with iteration := k }))
  | failed (w' : Walk) (s : Step) (h : w.step = (w', .continued s)) (hspills : Spills n w w')
      (h' : (w.capped n k).step = (w'.capped n k, .sinkFull))

/-- Where the way is shut, nothing is written. -/
theorem echoes_of_detour (h : w.step = w.detour)
    (h' : (w.capped n k).step = (w.capped n k).detour) : Echoes n k w := by
  have hstays : ∀ w' : Walk, w'.machine.output = w.machine.output → ¬ Spills n w w' := by
    intro w' houtput hspills
    rw [Spills, houtput] at hspills
    exact Sink.not_spills_self n _ hspills
  rcases w.detour_spec with ⟨hflipped, hd⟩ | ⟨hflipped, hflips, hd⟩ | ⟨hflipped, hflips, hd⟩
  · refine .taken _ _ (h.trans hd) (hstays _ (congrArg (·.output) w.flip_frame.2.1)) ?_
    rw [h', detour_eq_flip (w := w.capped n k) hflipped, flip_capped]
    rfl
  · refine .taken _ _ (h.trans hd) (hstays _ (congrArg (·.output) w.turn_frame.2.1)) ?_
    rw [h', detour_eq_turn (w := w.capped n k) hflipped hflips, turn_capped]
    rfl
  · exact .finished (h.trans hd) (h'.trans (detour_eq_finished (w := w.capped n k) hflipped hflips))

/-- What is entered is entered with either output. -/
theorem echoes_of_arrive (hcap : w.machine.output.capacity = none) {b : Block} {q : Pos}
    (h : w.step = w.arrive a b q) (h' : (w.capped n k).step = (w.capped n k).arrive a b q) :
    Echoes n k w := by
  have hspills_iff : Spills n w (w.entered a b q) ↔ Sink.Spills n w.machine.output
      (w.machine.execute (w.current.color.instructionTo b.color) w.current.size).1.output := by
    rw [Spills, (w.entered_frame a b q).2.1]
  have houtcome : ((w.capped n k).machine.execute (w.current.color.instructionTo b.color)
      w.current.size).2 = if Spills n w (w.entered a b q) then .sinkFull
        else (w.machine.execute (w.current.color.instructionTo b.color) w.current.size).2 :=
    (congrArg Prod.snd (Machine.execute_capped hcap n _ _)).trans
      (if_congr hspills_iff.symm rfl rfl)
  have hunbounded : (w.machine.execute (w.current.color.instructionTo b.color)
      w.current.size).2 ≠ .sinkFull :=
    (Machine.execute_unbounded hcap).2
  have hstep := h.trans (if_neg hunbounded)
  have hcurrent : (w.capped n k).current = w.current := rfl
  rw [arrive, entered_capped hcap] at h'
  simp only [hcurrent, houtcome] at h'
  by_cases hspills : Spills n w (w.entered a b q)
  · simp only [if_pos hspills, if_true] at h'
    exact .failed _ _ hstep hspills h'
  · simp only [if_neg hspills, if_neg hunbounded] at h'
    exact .taken _ _ hstep hspills h'

theorem step_eq_arrive (hlt : w.steps < w.limit) {p : Pos} {b : Block} {q : Pos}
    (hahead : w.atlas.grid.ahead? w.position w.machine.dp = some p)
    (henter : w.atlas.enter p w.machine.dp w.machine.cc = (a, some (b, q))) :
    w.step = w.arrive a b q := by
  rw [step, if_neg (Nat.not_le.mpr hlt), hahead]
  exact enter_eq_arrive henter

/-- **A call with a bounded output** echoes the call without the bound. -/
theorem Over.echoes (h : w.Over g) (hcap : w.machine.output.capacity = none)
    (hlt : w.steps < w.limit) (hk : k ≤ w.steps) (n : ℕ) : Echoes n k w := by
  have hlt' : (w.capped n k).steps < (w.capped n k).limit := hk.trans_lt hlt
  rcases hahead : w.atlas.grid.ahead? w.position w.machine.dp with _ | p
  · exact echoes_of_detour (step_of_shut hlt hahead) (step_of_shut hlt' hahead)
  · obtain ⟨-, hopen⟩ := Grid.ahead?_eq_some_iff.mp hahead
    obtain ⟨a, b, q, henter, -⟩ := h.sound.enter hopen w.machine.dp w.machine.cc
    exact echoes_of_arrive hcap (step_eq_arrive hlt hahead henter)
      (step_eq_arrive (w := w.capped n k) hlt' hahead henter)

/-! ### Any number of calls -/

/-- A walk without a bound on its output stays one. -/
theorem Over.unbounded_step (h : w.Over g) (hcap : w.machine.output.capacity = none) :
    w.step.1.machine.output.capacity = none := by
  rcases h.step_cases with ⟨-, hstep⟩ | ⟨-, -, hstep⟩ | ⟨-, p, a, b, q, -, -, hstep⟩
  · rwa [hstep]
  · obtain ⟨-, -, -, ⟨dp, cc, hmachine⟩, -⟩ := w.detour_frame
    rw [hstep, hmachine]
    exact hcap
  · have hentered : (w.entered a b q).machine.output.capacity = none := by
      rw [(w.entered_frame a b q).2.1]
      exact (Machine.execute_unbounded hcap).1
    rw [hstep]
    rcases w.arrive_eq_entered a b q with he | he <;> rw [he]
    · exact hentered
    · exact hentered

theorem Over.unbounded_after (h : w.Over g) (hcap : w.machine.output.capacity = none) (k : ℕ) :
    (w.after k).machine.output.capacity = none := by
  induction k with
  | zero => exact hcap
  | succ k ih => exact (h.after k).unbounded_step ih

/-- A call that does not halt for the limit is made below it. -/
theorem lt_limit_of_ne (h : w.step.2 ≠ .halted .stepLimit) : w.steps < w.limit := by
  refine Nat.lt_of_not_le fun hle => h ?_
  rw [step, if_pos hle]

/-- **After any number of calls** within the limit, the walk with a bounded output is where the other
one is, with all that fits into the output; it is behind in its count by the calls that failed. -/
theorem Over.after_capped (h : w.Over g) (hcap : w.machine.output.capacity = none) (n : ℕ) {k : ℕ}
    (hlimit : ∀ j < k, (w.after j).step.2 ≠ .halted .stepLimit) :
    ∃ counted, counted + (w.capped n w.steps).failures k = (w.after k).steps ∧
      (w.capped n w.steps).after k = (w.after k).capped n counted := by
  induction k with
  | zero => exact ⟨w.steps, rfl, rfl⟩
  | succ k ih =>
    obtain ⟨counted, hcounted, hafter⟩ := ih fun j hj => hlimit j (Nat.lt_succ_of_lt hj)
    have hlt := lt_limit_of_ne (hlimit k (Nat.lt_succ_self k))
    have hle : counted ≤ (w.after k).steps := Nat.le_of_add_right_le hcounted.le
    rcases (h.after k).echoes (h.unbounded_after hcap k) hlt hle n with
      ⟨hstep, hstep'⟩ | ⟨w', s, hstep, -, hstep'⟩ | ⟨w', s, hstep, -, hstep'⟩
    · have hfails : ¬ ((w.capped n w.steps).after k).step.2.Fails := by
        rw [hafter, hstep']
        exact id
      rw [failures_succ_of_not_fails hfails, after_succ, after_succ, hafter, hstep, hstep']
      exact ⟨counted, hcounted, rfl⟩
    · have hfails : ¬ ((w.capped n w.steps).after k).step.2.Fails := by
        rw [hafter, hstep']
        exact id
      obtain ⟨-, hsteps, -⟩ := steps_of_step hstep
      rw [failures_succ_of_not_fails hfails, after_succ, after_succ, hafter, hstep, hstep', hsteps]
      exact ⟨counted + 1, by omega, rfl⟩
    · have hfails : ((w.capped n w.steps).after k).step.2.Fails := by
        rw [hafter, hstep']
        trivial
      obtain ⟨-, hsteps, -⟩ := steps_of_step hstep
      rw [failures_succ_of_fails hfails, after_succ, after_succ, hafter, hstep, hstep', hsteps]
      exact ⟨counted, by omega, rfl⟩

/-! ### From the start -/

theorem start?_capped (a : Atlas) (m : Machine) (limit n : ℕ) :
    start? a (m.capped n) limit = (start? a m limit).map (·.capped n 0) := by
  simp only [start?, Option.map_map]
  rfl

/-- **A full output does not lead astray.**  Let a walk over a picture be made with any machine, on an
atlas that may know some blocks, once with an output without a bound and once with one that takes `n`
bytes in all.  Both can be made or neither.  After the same number of calls for a step, of which none
halts for the limit without the bound:

* the two are in the same block at the same position, and so are their machines in the same state;
* what has been written under the bound are the first `n` bytes of the output;
* under the bound only those steps have been counted whose calls have not failed;
* unless the next call halts for the limit without the bound, it finishes under the bound exactly if
  it does without, and fails exactly if it writes bytes that are not all among the first `n`. -/
theorem full_output (g : Grid) (asked : List Pos) (m : Machine) (limit n : ℕ) :
    let free := start? ((Atlas.ofGrid g).consult asked) { m with output := .unbounded } limit
    let full := start? ((Atlas.ofGrid g).consult asked) { m with output := ⟨#[], some n⟩ } limit
    free.isSome = full.isSome ∧ ∀ w₀ w₀', free = some w₀ → full = some w₀' →
      ∀ k, (∀ j < k, (w₀.after j).step.2 ≠ .halted .stepLimit) →
        let w := w₀.after k
        let w' := w₀'.after k
        (w'.position = w.position ∧ w'.current = w.current ∧ w'.flips = w.flips ∧
            w'.machine.dp = w.machine.dp ∧ w'.machine.cc = w.machine.cc ∧
            w'.machine.stack = w.machine.stack ∧ w'.machine.input = w.machine.input) ∧
          w'.machine.output.written = w.machine.output.written.take n ∧
          w'.steps + w₀'.failures k = w.steps ∧
          (w.step.2 ≠ .halted .stepLimit →
            (w'.step.2 = .halted .finished ↔ w.step.2 = .halted .finished) ∧
              (w'.step.2 = .sinkFull ↔ Spills n w w.step.1)) := by
  intro free full
  have hempty : Sink.unbounded.capped n = ⟨#[], some n⟩ := by simp [Sink.capped, Sink.unbounded]
  have hfull : full = free.map (·.capped n 0) := by
    rw [← start?_capped, Machine.capped, hempty]
  refine ⟨by rw [hfull, Option.isSome_map], fun w₀ w₀' hfree hw₀' k hlimit => ?_⟩
  obtain rfl : w₀.capped n 0 = w₀' := by
    rw [hfull, hfree, Option.map_some] at hw₀'
    exact Option.some.inj hw₀'
  have hover : w₀.Over g := (start?_consult_regular hfree).toOver
  have hbegin := (start?_spec (Atlas.sound_consult g asked) hfree).2.2
  have hzero : w₀.steps = 0 := by
    rw [hbegin]
    rfl
  have hcap : w₀.machine.output.capacity = none := by
    rw [hbegin]
    rfl
  obtain ⟨counted, hcounted, hafter⟩ := hover.after_capped hcap n hlimit
  rw [hzero] at hcounted hafter
  intro w w'
  have hw' : w' = w.capped n counted := hafter
  rw [hw']
  refine ⟨⟨rfl, rfl, rfl, rfl, rfl, rfl, rfl⟩, rfl, hcounted, fun hne => ?_⟩
  have hle : counted ≤ w.steps := Nat.le_of_add_right_le hcounted.le
  rcases (hover.after k).echoes (hover.unbounded_after hcap k) (lt_limit_of_ne hne) hle n with
    ⟨hstep, hstep'⟩ | ⟨w₁, s, hstep, hfits, hstep'⟩ | ⟨w₁, s, hstep, hspills, hstep'⟩
  · rw [hstep, hstep']
    exact ⟨Iff.rfl, by simp, fun h => absurd h (Sink.not_spills_self n _)⟩
  · rw [hstep, hstep']
    exact ⟨by simp, by simp, fun h => absurd h hfits⟩
  · rw [hstep, hstep']
    exact ⟨by simp, fun _ => hspills, fun _ => rfl⟩

/-- Ten pixels that push and print their number, and a block that no exit leads out of. -/
def longWord : Grid :=
  (Grid.ofCells? 12 2 (Array.replicate 10 (.shade (.ofInts 0 0)) ++
    #[.shade (.ofInts 1 0), .shade (.ofInts 2 5)] ++ Array.replicate 10 .black ++
    #[.shade (.ofInts 2 5), .shade (.ofInts 2 5)])).get (by decide)

/-- A walk over it, without a bound on its output. -/
def freeWalk : Walk :=
  (start? ((Atlas.ofGrid longWord).consult []) { Machine.start #[] with output := .unbounded } 9).get
    (by decide +kernel)

/-- A walk over it, with an output that takes one byte. -/
def fullWalk : Walk :=
  (start? ((Atlas.ofGrid longWord).consult []) { Machine.start #[] with output := ⟨#[], some 1⟩ }
    9).get (by decide +kernel)

theorem full_output_longWord :
    (∀ j < 2, (freeWalk.after j).step.2 ≠ .halted .stepLimit) ∧
      (freeWalk.after 2).machine.output.written = #[49, 48] ∧
      (fullWalk.after 2).machine.output.written = #[49] ∧
      (fullWalk.after 1).step.2 = .sinkFull ∧
      (fullWalk.after 2).steps + fullWalk.failures 2 = 2 ∧
      (fullWalk.after 2).position = (freeWalk.after 2).position ∧
      (fullWalk.after 2).machine.stack = (freeWalk.after 2).machine.stack := by
  have hlimit : ∀ j < 2, (freeWalk.after j).step.2 ≠ .halted .stepLimit := by decide +kernel
  have hword : (freeWalk.after 2).machine.output.written = #[49, 48] := by decide +kernel
  have hsteps : (freeWalk.after 2).steps = 2 := by decide +kernel
  have hspills : Spills 1 (freeWalk.after 1) (freeWalk.after 1).step.1 := by decide +kernel
  have hboth := (full_output longWord [] (.start #[]) 9 1).2 freeWalk fullWalk
    (Option.some_get _).symm (Option.some_get _).symm
  obtain ⟨-, -, -, hevents⟩ := hboth 1 fun j hj => hlimit j (by omega)
  obtain ⟨⟨hposition, -, -, -, -, hstack, -⟩, hwritten, hcounted, -⟩ := hboth 2 hlimit
  rw [hword] at hwritten
  exact ⟨hlimit, hword, hwritten, (hevents (hlimit 1 (by decide))).2.mpr hspills,
    hcounted.trans hsteps, hposition, hstack⟩

end Walk

end Piet
