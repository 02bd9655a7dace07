import Piet.Proofs.Walk.White

/-!
# Finishing in white

Within a coloured block a walk finishes where all ways out are shut.  Within white the search for a
way out goes on while the pointer slides from place to place, since a slide from white to white does
not begin it again.

* So a walk that finishes in white has found each direction shut, but each from the place where it
  was at that time (`Walk.Regular.tried`).
* The way back from its last slide is open (`Walk.Regular.exists_open`).  Hence the four ways from
  the place where it finishes are shut exactly if it has not moved there, or only from black, where
  it began (`Walk.finished_in_white`).
* In `Walk.spiral` a walk finishes with the way open to a shade it has not been to
  (`Walk.spiral_way_open`).
-/

namespace Piet

namespace Direction

/-- Every direction is had from another one by fewer than four turns back. -/
theorem exists_rotate_neg (d e : Direction) : ∃ k < 4, d.rotate (-(k : ℕ)) = e := by
  cases d <;> cases e <;> decide

end Direction

namespace Grid

variable {g : Grid} {p q r : Pos} {d : Direction}

/-- The way from a pixel in a direction is shut: it leads off the picture or into black. -/
def Shut (g : Grid) (p : Pos) (d : Direction) : Prop :=
  ∀ q, p.step d = some q → g.get? q = none ∨ g.get? q = some .black

theorem shut_iff : g.Shut p d ↔ g.ahead? p d = none := by
  have hopen : ∀ q, (g.get? q = none ∨ g.get? q = some .black) ↔ ¬ g.Open q := fun q => by
    rw [Open, not_and_or, not_not, not_not]
  simp only [Shut, hopen, ahead?, Option.filter_eq_none_iff, decide_eq_true_eq]

/-- **The way back from the end of a slide is open**, if the slide came from an open pixel. -/
theorem open_behind (hr : g.Open r) (hstep : r.step d = some p) (hp : g.get? p = some .white) :
    ¬ g.Shut (g.whiteFrom p d).final d.back := by
  obtain ⟨hstretch, hwhite, -⟩ := g.whiteFrom_spec hp d
  -- Behind the last pixel lies the one before it or, if there is none, the one it came from.
  obtain ⟨s, hopen, hback⟩ : ∃ s, g.Open s ∧ (g.whiteFrom p d).final.step d.back = some s := by
    generalize g.whiteFrom p d = b at hstretch hwhite
    cases hstretch with
    | single =>
      obtain ⟨c, hc⟩ := Option.ne_none_iff_exists'.mp hr.1
      exact ⟨r, hr, Pos.step_back (g.bounded r c hc) hstep⟩
    | @push b q _ hnext =>
      have hlast : g.get? b.final = some .white :=
        hwhite _ (Block.mem_pixels_push.mpr (.inl b.final_mem))
      rw [Block.final_push]
      exact ⟨b.final, open_of_get? hlast Color.white_ne_black,
        Pos.step_back (g.bounded _ _ hlast) hnext⟩
  rw [shut_iff, ahead?_eq_some_iff.mpr ⟨hback, hopen⟩]
  exact Option.some_ne_none s

end Grid

namespace Walk

variable {w w₀ : Walk} {g : Grid} {d : Direction} {n : ℕ}

/-! ### The directions that have been tried -/

/-- The direction in which the way was shut at a flip of the chooser, counted back from the last
one. -/
def attempt (w : Walk) (k : ℕ) : Direction :=
  w.machine.dp.rotate (-(if w.flipped then k else k + 1 : ℕ))

/-- The way in a direction was shut at an earlier time, from where the pointer was then, and it has
been in white since. -/
def Tried (w₀ : Walk) (g : Grid) (n : ℕ) (d : Direction) : Prop :=
  ∃ i ≤ n, (∀ j, i ≤ j → j ≤ n → (w₀.after j).current.color = .white) ∧
    (w₀.after i).machine.dp = d ∧ g.Shut (w₀.after i).position d

theorem tried_now (hwhite : (w₀.after n).current.color = .white)
    (hshut : g.ahead? (w₀.after n).position (w₀.after n).machine.dp = none) :
    w₀.Tried g n (w₀.after n).machine.dp :=
  ⟨n, le_rfl, fun _ hle hge => Nat.le_antisymm hle hge ▸ hwhite, rfl, Grid.shut_iff.mpr hshut⟩

theorem Tried.succ (h : w₀.Tried g n d) (hwhite : (w₀.after (n + 1)).current.color = .white) :
    w₀.Tried g (n + 1) d := by
  obtain ⟨i, hi, hsince, hshut⟩ := h
  refine ⟨i, hi.trans (Nat.le_succ n), fun j hij hj => ?_, hshut⟩
  rcases Nat.le_or_eq_of_le_succ hj with hle | rfl
  · exact hsince j hij hle
  · exact hwhite

/-- A call that ends in white adds the direction it has found shut to the earlier ones, if it flips
the chooser, and otherwise none. -/
theorem Regular.attempt_step (h : w.Regular g) (hwhite : w.step.1.current.color = .white) {k : ℕ}
    (hk : k < w.step.1.flips) :
    w.current.color = .white ∧
      ((w.step.1.attempt k = w.machine.dp ∧ g.ahead? w.position w.machine.dp = none) ∨
        ∃ j < w.flips, w.step.1.attempt k = w.attempt j) := by
  rcases h.step_cases with ⟨-, hstep⟩ | ⟨-, hshut, hstep⟩ | ⟨-, p, a, b, q, hahead, hentry, hstep⟩
  · rw [hstep] at hwhite hk ⊢
    exact ⟨hwhite, .inr ⟨k, hk, rfl⟩⟩
  · rw [hstep] at hwhite hk ⊢
    rw [w.detour_frame.2.2.1] at hwhite
    refine ⟨hwhite, ?_⟩
    rcases w.detour_spec with ⟨hflipped, hd⟩ | ⟨hflipped, -, hd⟩ | ⟨-, -, hd⟩
    · rw [hd, flip_of_white hwhite] at hk ⊢
      cases k with
      | zero => exact .inl ⟨rfl, hshut⟩
      | succ k =>
        refine .inr ⟨k, Nat.lt_of_succ_lt_succ hk, ?_⟩
        rw [attempt, attempt, hflipped]
        rfl
    · rw [hd, turn_of_white hwhite] at hk ⊢
      refine .inr ⟨k, hk, ?_⟩
      rw [attempt, attempt, hflipped]
      show (w.machine.dp.rotate 1).rotate (-(k + 1 : ℕ)) = w.machine.dp.rotate (-(k : ℕ))
      rw [← Direction.rotate_add]
      congr 1
      omega
    · rw [hd] at hk ⊢
      exact .inr ⟨k, hk, rfl⟩
  · rw [hstep] at hwhite hk ⊢
    rw [(w.arrive_frame a b q).2.2.1] at hwhite
    obtain ⟨hrest, hflips, hmachine, -⟩ := h.toOver.arrive_in_white hentry hwhite
    rw [hflips] at hk
    by_cases hcurrent : w.current.color = .white
    · rw [if_pos hcurrent] at hk
      refine ⟨hcurrent, .inr ⟨k, hk, ?_⟩⟩
      rw [attempt, attempt, hrest, hmachine, h.unflipped_of_open hcurrent hahead]
    · rw [if_neg hcurrent] at hk
      exact absurd hk (Nat.not_lt_zero k)

/-- **Each flip within white belongs to a direction that was tried there.** -/
theorem Regular.tried (h : w₀.Regular g) (hflips : w₀.flips = 0) :
    (w₀.after n).current.color = .white → ∀ k < (w₀.after n).flips,
      w₀.Tried g n ((w₀.after n).attempt k) := by
  induction n with
  | zero =>
    intro _ k hk
    rw [after_zero, hflips] at hk
    exact absurd hk (Nat.not_lt_zero k)
  | succ n ih =>
    intro hwhite k hk
    obtain ⟨hbefore, ⟨hdp, hshut⟩ | ⟨j, hj, hattempt⟩⟩ := (h.after n).attempt_step hwhite hk
    · rw [after_succ, hdp]
      exact (tried_now hbefore hshut).succ hwhite
    · rw [after_succ, hattempt]
      exact (ih hbefore j hj).succ hwhite

/-! ### Where a walk finishes -/

/-- Within white the pointer moves only by an entry. -/
theorem Over.position_after (h : w.Over g) (hwhite : w.current.color = .white)
    (hstay : ∀ j < n, ¬ (w.after j).step.2.Enters) :
    (w.after n).current.color = .white ∧ (w.after n).position = w.position := by
  induction n with
  | zero => exact ⟨hwhite, rfl⟩
  | succ n ih =>
    obtain ⟨hbefore, hposition⟩ := ih fun j hj => hstay j (Nat.lt_succ_of_lt hj)
    obtain ⟨hcurrent, hsame⟩ := (h.after n).step_of_not_enters (hstay n (Nat.lt_succ_self n))
    exact ⟨(congrArg Block.color hcurrent).trans hbefore, (hsame hbefore).trans hposition⟩

/-- A walk that is in white and has moved, though not from black, can go back. -/
theorem Regular.exists_open (h : w₀.Regular g) {i : ℕ} (hi : i < n)
    (henters : (w₀.after i).step.2.Enters) (hne : (w₀.after i).current.color ≠ .black)
    (hwhite : (w₀.after n).current.color = .white) : ∃ d, ¬ g.Shut (w₀.after n).position d := by
  induction n with
  | zero => exact absurd hi (Nat.not_lt_zero i)
  | succ n ih =>
    have hregular := h.after n
    by_cases hlast : (w₀.after n).step.2.Enters
    · -- It is at the end of the slide it has just made.
      have hcolor : (w₀.after n).current.color ≠ .black := by
        obtain ⟨k, rfl⟩ := Nat.exists_eq_add_of_le (Nat.le_of_lt_succ hi)
        rw [after_add]
        exact (h.after i).toOver.ne_black_after hne k
      obtain ⟨p, a, b, q, hahead, hentry, hstep⟩ := hregular.step_of_enters hlast
      rw [after_succ, hstep] at hwhite ⊢
      rw [((w₀.after n).arrive_frame a b q).2.2.1] at hwhite
      obtain ⟨-, -, -, hposition, hp, -⟩ := hregular.toOver.arrive_in_white hentry hwhite
      rw [hposition]
      exact ⟨_, Grid.open_behind
        (Grid.open_of_get? (hregular.current.color _ hregular.mem) hcolor)
        (Grid.ahead?_eq_some_iff.mp hahead).1 hp⟩
    · have hlt : i < n := Nat.lt_of_le_of_ne (Nat.le_of_lt_succ hi) fun heq =>
        hlast (heq ▸ henters)
      obtain ⟨hcurrent, hsame⟩ := hregular.step_of_not_enters hlast
      rw [after_succ, hcurrent] at hwhite
      rw [after_succ, hsame hwhite]
      exact ih hlt hwhite

/-- **What it takes to finish in white.**  Let a walk over a picture finish in white.

* Since it has been in white, each of the four directions was shut once, from the place where the
  pointer was at that time.
* From the place where it finishes all four are shut if and only if it has not moved before, or only
  from black. -/
theorem finished_in_white (g : Grid) (asked : List Pos) (m : Machine) (limit : ℕ) {w₀ : Walk}
    (hstart : start? ((Atlas.ofGrid g).consult asked) m limit = some w₀) {n : ℕ}
    (hwhite : (w₀.after n).current.color = .white)
    (hend : (w₀.after n).step.2 = .halted .finished) :
    (∀ d, w₀.Tried g n d) ∧
      ((∀ d, g.Shut (w₀.after n).position d) ↔
        ∀ i < n, (w₀.after i).step.2.Enters → (w₀.after i).current.color = .black) := by
  have hregular : w₀.Regular g := start?_consult_regular hstart
  have hflips : w₀.flips = 0 := by
    rw [(start?_spec (Atlas.sound_consult g asked) hstart).2.2]
    rfl
  obtain ⟨hflipped, hle⟩ : (w₀.after n).flipped = true ∧ 4 ≤ (w₀.after n).flips := by
    rcases (hregular.after n).halted_cases hend with ⟨hlimit, -⟩ | ⟨-, -, hflipped, hle, -⟩
    · cases hlimit
    · exact ⟨hflipped, hle⟩
  have htried : ∀ d, w₀.Tried g n d := fun d => by
    obtain ⟨k, hk, rfl⟩ := Direction.exists_rotate_neg (w₀.after n).machine.dp d
    have hattempt := hregular.tried hflips hwhite k (hk.trans_le hle)
    rwa [attempt, if_pos hflipped] at hattempt
  refine ⟨htried, fun hshut i hi henters => ?_, fun hblack d => ?_⟩
  · by_contra hne
    obtain ⟨d, hopen⟩ := hregular.exists_open hi henters hne hwhite
    exact hopen (hshut d)
  · obtain ⟨i, hi, hsince, -, hshut⟩ := htried d
    obtain ⟨k, rfl⟩ := Nat.exists_eq_add_of_le hi
    -- It has been in white since it tried this direction, so it has not moved.
    have hstay : ∀ j < k, ¬ ((w₀.after i).after j).step.2.Enters := fun j hj henters => by
      rw [← after_add] at henters
      have hcolor := hblack (i + j) (Nat.add_lt_add_left hj i) henters
      rw [hsince (i + j) (Nat.le_add_right i j) (Nat.add_le_add_left hj.le i)] at hcolor
      cases hcolor
    have hposition := ((hregular.after i).toOver.position_after
      (hsince i le_rfl (Nat.le_add_right i k)) hstay).2
    rw [after_add, hposition]
    exact hshut

/-- The walk through the spiral finishes before it has got round the last corner. -/
theorem spiral_finished :
    (spiralWalk.after 11).current.color = .white ∧
      (spiralWalk.after 11).step.2 = .halted .finished := by
  have hstep := step_of_shut (w := spiralWalk.after 11) (by decide +kernel) (by decide +kernel)
  rw [hstep, detour_eq_finished (by decide +kernel) (by decide +kernel)]
  exact ⟨by decide +kernel, rfl⟩

theorem finished_in_white_spiral :
    start? ((Atlas.ofGrid spiral).consult []) (.start #[]) 12 = some spiralWalk ∧
      (spiralWalk.after 11).current.color = .white ∧
      (spiralWalk.after 11).step.2 = .halted .finished ∧
      (∀ d, spiralWalk.Tried spiral 11 d) ∧
      ((∀ d, spiral.Shut (spiralWalk.after 11).position d) ↔
        ∀ i < 11, (spiralWalk.after i).step.2.Enters →
          (spiralWalk.after i).current.color = .black) := by
  obtain ⟨hwhite, hend⟩ := spiral_finished
  exact ⟨start?_spiral, hwhite, hend,
    finished_in_white spiral [] (.start #[]) 12 start?_spiral hwhite hend⟩

/-- **A walk can finish in white with a way open**: from there the pointer could slide on to the
shade. -/
theorem spiral_way_open :
    start? ((Atlas.ofGrid spiral).consult []) (.start #[]) 12 = some spiralWalk ∧
      (spiralWalk.after 11).current.color = .white ∧
      (spiralWalk.after 11).step.2 = .halted .finished ∧
      ¬ ∀ d, spiral.Shut (spiralWalk.after 11).position d := by
  obtain ⟨hwhite, hend⟩ := spiral_finished
  refine ⟨start?_spiral, hwhite, hend, fun hshut => ?_⟩
  have hopen : spiral.ahead? (spiralWalk.after 11).position .right ≠ none := by decide +kernel
  exact hopen (Grid.shut_iff.mp (hshut .right))

end Walk

end Piet
