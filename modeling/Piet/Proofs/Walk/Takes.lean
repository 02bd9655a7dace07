import Mathlib.Tactic.Common
import Piet.Proofs.Machine.Execute
import Piet.Walk.Run

/-!
# Steps and runs

`Walk.Takes w l w'` says that the walk `w` takes the steps `l` one after another and is then at
`w'`.  A run with fuel for these steps goes on from `w'` (`Walk.Takes.runFor_add`), and a run with
no fuel beyond them ends at the step limit (`Walk.Takes.runFor_of_le`).

The step limit decides nothing but where a run is cut off: below it, a step is the same under any
other limit (`Walk.step_withLimit`), so what a short run does can be read off a longer one.
-/

namespace Piet

namespace Walk

variable {w w' w'' : Walk} {s : Step} {l l' : List Step}

/-- The walk takes these steps and is then there. -/
inductive Takes : Walk → List Step → Walk → Prop
  | done (w : Walk) : Takes w [] w
  | step {w w' w'' : Walk} {s : Step} {l : List Step} (h : w.step = (w', .continued s))
      (rest : Takes w' l w'') : Takes w (s :: l) w''

namespace Takes

theorem append (h : Takes w l w') (h' : Takes w' l' w'') : Takes w (l ++ l') w'' := by
  induction h with
  | done => exact h'
  | step hstep _ ih => exact .step hstep (ih h')

theorem snoc (h : Takes w l w') (hstep : w'.step = (w'', .continued s)) :
    Takes w (l ++ [s]) w'' :=
  h.append (.step hstep (.done _))

/-- A run goes on from where its first steps lead. -/
theorem runFor_add (h : Takes w l w') (fuel : ℕ) (notices : Array Notice) :
    ∃ notices', w.runFor (l.length + fuel) notices = w'.runFor fuel notices' := by
  induction h generalizing notices with
  | done => exact ⟨notices, by rw [List.length_nil, Nat.zero_add]⟩
  | step hstep _ ih =>
    rw [List.length_cons, Nat.add_right_comm, runFor, hstep]
    dsimp only
    split
    · exact ih _
    · exact ih _

/-- A run whose fuel does not last beyond some steps is cut off at the limit. -/
theorem runFor_of_le (h : Takes w l w') {fuel : ℕ} (hle : fuel ≤ l.length)
    (notices : Array Notice) : (w.runFor fuel notices).2.2 = .halted .stepLimit := by
  induction h generalizing fuel notices with
  | done =>
    obtain rfl : fuel = 0 := Nat.le_zero.mp hle
    rfl
  | step hstep _ ih =>
    cases fuel with
    | zero => rfl
    | succ fuel =>
      have hle' := Nat.succ_le_succ_iff.mp hle
      rw [runFor, hstep]
      dsimp only
      split
      · exact ih hle' _
      · exact ih hle' _

end Takes

/-! ### The step limit -/

/-- The same walk under another step limit. -/
def withLimit (w : Walk) (n : ℕ) : Walk :=
  { w with limit := n }

theorem start?_withLimit (a : Atlas) (m : Machine) (n n' : ℕ) :
    start? a m n' = (start? a m n).map (withLimit · n') := by
  simp only [start?, Option.map_map]
  rfl

theorem reposition_withLimit (w : Walk) (n : ℕ) :
    (w.withLimit n).reposition = w.reposition.withLimit n := by
  by_cases hc : w.current.color = .white
  · rw [reposition, reposition, if_pos hc, if_pos (by exact hc)]
  · rw [reposition, reposition, if_neg hc, if_neg (by exact hc)]
    rfl

theorem detour_withLimit (w : Walk) (n : ℕ) :
    (w.withLimit n).detour = (w.detour.1.withLimit n, w.detour.2) := by
  have hturn : (w.withLimit n).turn = w.turn.withLimit n := by
    rw [turn, turn, ← reposition_withLimit]
    rfl
  have hflip : (w.withLimit n).flip = w.flip.withLimit n := by
    rw [flip, flip, ← reposition_withLimit]
    rfl
  have hflipped : (w.withLimit n).flipped = w.flipped := rfl
  have hflips : (w.withLimit n).flips = w.flips := rfl
  rw [detour, detour, hturn, hflip, hflipped, hflips]
  split
  · split <;> rfl
  · rfl

theorem enter_withLimit (w : Walk) (p : Pos) (n : ℕ) :
    (w.withLimit n).enter p = ((w.enter p).1.withLimit n, (w.enter p).2) := by
  obtain ⟨atlas, machine, limit, steps, flips, flipped, position, last, current⟩ := w
  simp only [enter, withLimit]
  obtain ⟨a, _ | ⟨b, next⟩⟩ := atlas.enter p machine.dp machine.cc
  · rfl
  · simp only [cross]
    obtain ⟨m, o⟩ := machine.execute (current.color.instructionTo b.color) current.size
    -- The outcome decides the event, and neither depends on the limit.
    cases o with
    | sinkFull => rfl
    | done | ignored _ =>
      dsimp only
      split
      · simp only [reposition]
        split <;> rfl
      · rfl

/-- **Below the limit a step does not depend on it.** -/
theorem step_withLimit {n : ℕ} (hlimit : w.steps < w.limit) (hn : w.steps < n) :
    (w.withLimit n).step = (w.step.1.withLimit n, w.step.2) := by
  have hsteps : ¬ (w.withLimit n).limit ≤ (w.withLimit n).steps := Nat.not_le.mpr hn
  have hahead : (w.withLimit n).atlas.grid.ahead? (w.withLimit n).position
      (w.withLimit n).machine.dp = w.atlas.grid.ahead? w.position w.machine.dp := rfl
  rw [step, step, if_neg hsteps, if_neg (Nat.not_le.mpr hlimit), hahead]
  cases w.atlas.grid.ahead? w.position w.machine.dp with
  | none => exact detour_withLimit w n
  | some p => exact enter_withLimit w p n

/-! ### Counting -/

theorem reposition_count (w : Walk) :
    w.reposition.steps = w.steps ∧ w.reposition.limit = w.limit := by
  rw [reposition]
  split <;> exact ⟨rfl, rfl⟩

/-- A step that is taken is taken below the limit, and counted. -/
theorem steps_of_step (h : w.step = (w', .continued s)) :
    w.steps < w.limit ∧ w'.steps = w.steps + 1 ∧ w'.limit = w.limit := by
  rw [step] at h
  split at h
  · cases h
  next hlimit =>
  refine ⟨Nat.not_le.mp hlimit, ?_⟩
  split at h
  · simp only [detour] at h
    split at h
    · split at h
      · cases h
      · cases h
        exact ⟨congrArg (· + 1) (reposition_count _).1, (reposition_count _).2⟩
    · cases h
      exact ⟨congrArg (· + 1) (reposition_count _).1, (reposition_count _).2⟩
  · obtain ⟨atlas, machine, limit, steps, flips, flipped, position, last, current⟩ := w
    simp only [enter] at h
    split at h
    · cases h
    · simp only [cross] at h
      split at h
      · cases h
      · next heq =>
        simp only [Prod.mk.injEq] at heq
        obtain ⟨rfl, -, -⟩ := heq
        cases h
        split
        · exact ⟨congrArg (· + 1) (reposition_count _).1, (reposition_count _).2⟩
        · exact ⟨rfl, rfl⟩

namespace Takes

theorem steps_eq (h : Takes w l w') :
    w'.steps = w.steps + l.length ∧ w'.limit = w.limit ∧ (l ≠ [] → w'.steps ≤ w.limit) := by
  induction h with
  | done => exact ⟨rfl, rfl, fun hne => absurd rfl hne⟩
  | @step w w₁ w₂ s l hstep hrest ih =>
    obtain ⟨hlt, hsteps, hlim⟩ := steps_of_step hstep
    obtain ⟨ihs, ihl, ihle⟩ := ih
    refine ⟨by rw [ihs, hsteps, List.length_cons]; omega, ihl.trans hlim, fun _ => ?_⟩
    cases l with
    | nil => rw [ihs, hsteps]; exact hlt
    | cons => exact hlim ▸ ihle (List.cons_ne_nil _ _)

/-- Steps taken under one limit are taken under any other that is not below their number. -/
theorem withLimit (h : Takes w l w') {n : ℕ} (hn : w.steps + l.length ≤ n) :
    Takes (w.withLimit n) l (w'.withLimit n) := by
  induction h with
  | done => exact .done _
  | step hstep _ ih =>
    obtain ⟨hlt, hsteps, -⟩ := steps_of_step hstep
    rw [List.length_cons] at hn
    refine .step ?_ (ih (by omega))
    rw [step_withLimit hlt (by omega), hstep]

/-- The first of some steps can be taken alone. -/
theorem take (h : Takes w l w') (n : ℕ) : ∃ w₁, Takes w (l.take n) w₁ := by
  induction h generalizing n with
  | done w => exact ⟨w, by rw [List.take_nil]; exact .done w⟩
  | step hstep _ ih =>
    cases n with
    | zero => exact ⟨_, .done _⟩
    | succ n =>
      obtain ⟨w₁, h₁⟩ := ih n
      exact ⟨w₁, .step hstep h₁⟩

end Takes

end Walk

end Piet
