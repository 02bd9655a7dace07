import Piet.Proofs.Walk.Calls

/-!
# The search for a way out of a block

A pointer that has come into a coloured block tries to leave it with eight headings, in an order
that is fixed by the heading it came with (`searchOrder`): flips of the chooser and turns of the
direction alternate.

`Walk.searching w k` is the walk `w` after `k` of these tries have failed, written down outright.
One failed try leads from `searching k` to `searching (k + 1)` (`Walk.searching_step`), so `k` of
them lead there from a walk that has just come in (`Walk.Fresh.after_eq_searching`), and the eighth
ends the walk (`Walk.searching_finished`).  `Walk.recovery` puts this together for any walk over a
picture: it leaves through the first try that is open, and if none is, it halts.
-/

namespace Piet

/-! ### The order of the tries -/

/-- The headings with which a pointer tries to leave a block, if it came with the direction `d` and
the chooser `c`. -/
def searchOrder (d : Direction) (c : Chooser) : List (Direction × Chooser) :=
  [(d, c), (d, c.opposite), (d.rotate 1, c.opposite), (d.rotate 1, c),
    (d.rotate 2, c), (d.rotate 2, c.opposite), (d.rotate 3, c.opposite), (d.rotate 3, c)]

/-- The heading after `k` failed tries, of which every second one has turned the direction and the
others have flipped the chooser. -/
def headingAfter (d : Direction) (c : Chooser) (k : ℕ) : Direction × Chooser :=
  (d.rotate (k / 2 : ℕ), c.flip ((k + 1) / 2 : ℕ))

/-- The headings of the search are all those that turns and flips lead to. -/
theorem searchOrder_eq_map (d : Direction) (c : Chooser) :
    searchOrder d c = (List.range 8).map (headingAfter d c) := rfl

/-- The try with number `k` is the one after `k` failed ones. -/
theorem getElem?_searchOrder {d : Direction} {c : Chooser} {k : ℕ}
    {heading : Direction × Chooser} :
    (searchOrder d c)[k]? = some heading ↔ k < 8 ∧ headingAfter d c k = heading := by
  rw [searchOrder_eq_map, List.getElem?_map, Option.map_eq_some_iff]
  simp only [List.getElem?_eq_some_iff, List.length_range, List.getElem_range, exists_prop]
  constructor
  · rintro ⟨_, ⟨hk, rfl⟩, hheading⟩
    exact ⟨hk, hheading⟩
  · rintro ⟨hk, hheading⟩
    exact ⟨k, ⟨hk, rfl⟩, hheading⟩

theorem headingAfter_mem_take (d : Direction) (c : Chooser) {j k : ℕ} (hj : j < k) (hk : k ≤ 8) :
    headingAfter d c j ∈ (searchOrder d c).take k := by
  rw [searchOrder_eq_map, ← List.map_take, List.take_range]
  exact List.mem_map_of_mem (List.mem_range.mpr (by omega))

theorem headingAfter_two_mul (d : Direction) (c : Chooser) (j : ℕ) :
    headingAfter d c (2 * j) = (d.rotate j, c.flip j) := by
  have hturns : 2 * j / 2 = j := by omega
  have hflips : (2 * j + 1) / 2 = j := by omega
  rw [headingAfter, hturns, hflips]

theorem headingAfter_two_mul_add_one (d : Direction) (c : Chooser) (j : ℕ) :
    headingAfter d c (2 * j + 1) = (d.rotate j, (c.flip j).flip 1) := by
  have hturns : (2 * j + 1) / 2 = j := by omega
  have hflips : (2 * j + 1 + 1) / 2 = j + 1 := by omega
  rw [headingAfter, hturns, hflips, Int.natCast_add_one, Chooser.flip_add]

/-- The open pixel that a heading leads to from a block. -/
def Grid.wayOut? (g : Grid) (b : Block) (heading : Direction × Chooser) : Option Pos :=
  g.ahead? (b.exit heading.1 heading.2) heading.1

namespace Walk

variable {w w' : Walk} {g : Grid} {k n : ℕ} {p : Pos}

/-! ### One try after another -/

/-- The walk has just come into its block: it looks ahead from the exit, and has not flipped its
chooser since. -/
structure Fresh (w : Walk) : Prop where
  flips : w.flips = 0
  flipped : w.flipped = false
  position : w.position = w.current.exit w.machine.dp w.machine.cc

/-- The walk after some more failed tries to leave its block. -/
def searching (w : Walk) (k : ℕ) : Walk :=
  let heading := headingAfter w.machine.dp w.machine.cc k
  { w with
    machine := { w.machine with dp := heading.1, cc := heading.2 }
    steps := w.steps + k
    flips := (k + 1) / 2
    flipped := decide (k % 2 = 1)
    position := w.current.exit heading.1 heading.2 }

theorem Fresh.searching_zero (h : w.Fresh) : w.searching 0 = w := by
  obtain ⟨hflips, hflipped, hposition⟩ := h
  obtain ⟨atlas, machine, limit, steps, flips, flipped, position, last, current⟩ := w
  simp only at hflips hflipped hposition
  rw [hflips, hflipped, hposition]
  rfl

/-- After an even number of failed tries the chooser is flipped. -/
theorem searching_flip (hcolor : w.current.color ≠ .white) (j : ℕ) :
    (w.searching (2 * j)).flip.count = w.searching (2 * j + 1) := by
  have hflips : (2 * j + 1) / 2 = j := by omega
  have hflips' : (2 * j + 1 + 1) / 2 = j + 1 := by omega
  have hparity : decide ((2 * j + 1) % 2 = 1) = true := decide_eq_true (by omega)
  rw [flip_of_ne_white (w := w.searching (2 * j)) hcolor]
  simp only [searching, count, headingAfter_two_mul, headingAfter_two_mul_add_one, hflips, hflips',
    hparity, Nat.add_assoc]

/-- After an odd number of failed tries the direction is turned. -/
theorem searching_turn (hcolor : w.current.color ≠ .white) (j : ℕ) :
    (w.searching (2 * j + 1)).turn.count = w.searching (2 * (j + 1)) := by
  have hflips : (2 * j + 1 + 1) / 2 = j + 1 := by omega
  have hflips' : (2 * (j + 1) + 1) / 2 = j + 1 := by omega
  have hparity : decide (2 * (j + 1) % 2 = 1) = false := decide_eq_false (by omega)
  have hturn : w.machine.dp.rotate (j + 1 : ℕ) = (w.machine.dp.rotate j).rotate 1 := by
    rw [Int.natCast_add_one, Direction.rotate_add]
  have hflip : w.machine.cc.flip (j + 1 : ℕ) = (w.machine.cc.flip j).flip 1 := by
    rw [Int.natCast_add_one, Chooser.flip_add]
  rw [turn_of_ne_white (w := w.searching (2 * j + 1)) hcolor]
  simp only [searching, count, headingAfter_two_mul, headingAfter_two_mul_add_one, hflips, hflips',
    hparity, hturn, hflip, Nat.add_assoc]
  rfl

/-- A try fails if its exit does not lead to an open pixel. -/
theorem searching_eq_detour (hlt : w.steps + k < w.limit)
    (hshut : w.atlas.grid.wayOut? w.current (headingAfter w.machine.dp w.machine.cc k) = none) :
    (w.searching k).step = (w.searching k).detour :=
  step_of_shut hlt hshut

/-- **One failed try.**  It is a step that is blocked, and leads to the next try. -/
theorem searching_step (hcolor : w.current.color ≠ .white) (hk : k < 7)
    (hlt : w.steps + k < w.limit)
    (hshut : w.atlas.grid.wayOut? w.current (headingAfter w.machine.dp w.machine.cc k) = none) :
    ∃ s, (w.searching k).step = (w.searching (k + 1), .continued s) ∧ s.blocked = true := by
  rw [searching_eq_detour hlt hshut]
  obtain ⟨j, rfl | rfl⟩ : ∃ j, k = 2 * j ∨ k = 2 * j + 1 := ⟨k / 2, by omega⟩
  · have hflipped : (w.searching (2 * j)).flipped = false := by
      show decide (2 * j % 2 = 1) = false
      simp
    refine ⟨(w.searching (2 * j)).flip.report .noop true none, ?_, rfl⟩
    rw [detour_eq_flip hflipped, searching_flip hcolor]
  · have hflipped : (w.searching (2 * j + 1)).flipped = true := by
      show decide ((2 * j + 1) % 2 = 1) = true
      exact decide_eq_true (by omega)
    have hflips : (w.searching (2 * j + 1)).flips < 4 := by
      show (2 * j + 1 + 1) / 2 < 4
      omega
    refine ⟨(w.searching (2 * j + 1)).turn.report .noop true none, ?_, rfl⟩
    rw [detour_eq_turn hflipped hflips, searching_turn hcolor, Nat.mul_succ]

/-- After the eighth try, which follows the fourth flip, the walk halts. -/
theorem searching_finished (hlt : w.steps + 7 < w.limit)
    (hshut : w.atlas.grid.wayOut? w.current (headingAfter w.machine.dp w.machine.cc 7) = none) :
    (w.searching 7).step = (w.searching 7, .halted .finished) := by
  rw [searching_eq_detour hlt hshut, detour_eq_finished rfl (Nat.le_refl 4)]

/-- Failed tries follow one another. -/
theorem Fresh.after_eq_searching (h : w.Fresh) (hcolor : w.current.color ≠ .white) (hk : k ≤ 7)
    (hle : w.steps + k ≤ w.limit)
    (hshut : ∀ j < k,
      w.atlas.grid.wayOut? w.current (headingAfter w.machine.dp w.machine.cc j) = none) :
    w.after k = w.searching k := by
  induction k with
  | zero => rw [after_zero, h.searching_zero]
  | succ k ih =>
    obtain ⟨s, hstep, -⟩ := searching_step hcolor (by omega) (by omega) (hshut k (by omega))
    rw [after_succ, ih (by omega) (by omega) fun j hj => hshut j (by omega), hstep]

/-! ### Coming into a block -/

/-- Whatever happens at the entry to a block that is neither white nor black, the search for a way
out of it begins anew. -/
theorem fresh_arrive {a : Atlas} {b : Block} {q : Pos} (hwhite : b.color ≠ .white)
    (hblack : b.color ≠ .black) (hq : q = b.exit w.machine.dp w.machine.cc) :
    (w.arrive a b q).1.Fresh := by
  have hresets : w.current.color.Resets b.color := by
    obtain ⟨t, ht⟩ : ∃ t, b.color = .shade t := by
      cases hc : b.color with
      | white => exact absurd hc hwhite
      | black => exact absurd hc hblack
      | shade t => exact ⟨t, rfl⟩
    cases hc : w.current.color with
    | white | black =>
      rw [ht]
      exact .inr Color.noConfusion
    | shade s =>
      rw [ht]
      exact .inl ⟨rfl, rfl⟩
  have hentered := entered_of_ne_white (w := w) (a := a) hwhite hq
  rw [if_pos hresets] at hentered
  rw [arrive]
  split
  · rw [hentered]
    exact ⟨rfl, rfl, rfl⟩
  · rw [hentered]
    exact ⟨rfl, rfl, rfl⟩

/-- A walk that has just entered a coloured block is fresh there. -/
theorem Over.fresh_of_enters (h : w.Over g) (henters : w.step.2.Enters)
    (hcolor : w.step.1.current.color ≠ .white) : w.step.1.Fresh := by
  rcases h.step_cases with ⟨-, hstep⟩ | ⟨-, -, hstep⟩ | ⟨-, p, a, b, q, -, hentry, hstep⟩
  · rw [hstep] at henters
    exact henters.elim
  · rw [hstep] at henters
    exact absurd henters w.detour_frame.2.2.2.2
  · rw [hstep] at hcolor ⊢
    rw [(w.arrive_frame a b q).2.2.1] at hcolor
    exact fresh_arrive hcolor hentry.color_ne_black (hentry.region hcolor).2

/-- At its start a walk is fresh. -/
theorem start?_fresh {a : Atlas} (h : a.Sound) {m : Machine} {limit : ℕ}
    (hstart : start? a m limit = some w) (hcolor : w.current.color ≠ .white) : w.Fresh := by
  obtain ⟨-, -, hbegin⟩ := start?_spec h hstart
  rw [hbegin]
  exact ⟨rfl, rfl, if_neg hcolor⟩

/-- Where the way is open, a call leaves the block for what lies ahead. -/
theorem Over.step_of_open (h : w.Over g) (hlt : w.steps < w.limit)
    (hopen : g.ahead? w.position w.machine.dp = some p) :
    w.step.2.Enters ∧ w.step.1.last = w.current ∧ p ∈ w.step.1.current.pixels := by
  rcases h.step_cases with ⟨hle, -⟩ | ⟨-, hshut, -⟩ | ⟨-, p', a, b, q, hahead, hentry, hstep⟩
  · exact absurd hlt (Nat.not_lt.mpr hle)
  · rw [hopen] at hshut
    cases hshut
  · obtain rfl : p = p' := Option.some.inj (hopen.symm.trans hahead)
    obtain ⟨-, hlast, hcurrent, henters⟩ := w.arrive_frame a b q
    rw [hstep, hcurrent]
    exact ⟨henters, hlast, hentry.mem⟩

/-! ### The whole search -/

/-- **The search for a way out is exact and exhaustive.**  Let a walk over a picture have just
entered a coloured block, or start in one.  As long as its tries are shut it takes one blocked step
for each, which changes nothing but the heading, the counters and the exit it looks out of.  With
the first try that is open it leaves the block.  If all eight are shut, it halts after seven
steps. -/
theorem recovery (g : Grid) (asked : List Pos) (m : Machine) (limit : ℕ) {w₀ : Walk}
    (hstart : start? ((Atlas.ofGrid g).consult asked) m limit = some w₀) {n : ℕ}
    (hentered : n = 0 ∨ ∃ i, n = i + 1 ∧ (w₀.after i).step.2.Enters)
    (hcolor : (w₀.after n).current.color ≠ .white) :
    let w := w₀.after n
    let tries := searchOrder w.machine.dp w.machine.cc
    (∀ (k : ℕ) (heading : Direction × Chooser), tries[k]? = some heading →
      (∀ t ∈ tries.take k, g.wayOut? w.current t = none) → w.steps + k ≤ w.limit →
        (∀ j < k, ∃ s, (w.after j).step = (w.after (j + 1), .continued s) ∧ s.blocked = true) ∧
        (w.after k).machine = { w.machine with dp := heading.1, cc := heading.2 } ∧
        (w.after k).current = w.current ∧
        (w.after k).position = w.current.exit heading.1 heading.2 ∧
        (w.after k).steps = w.steps + k ∧
        (w.steps + k < w.limit → ∀ p, g.wayOut? w.current heading = some p →
          (w.after k).step.2.Enters ∧ (w.after (k + 1)).last = w.current ∧
            p ∈ (w.after (k + 1)).current.pixels)) ∧
      ((∀ t ∈ tries, g.wayOut? w.current t = none) → w.steps + 7 < w.limit →
        (w.after 7).flips = 4 ∧ (w.after 7).step = (w.after 7, .halted .finished)) := by
  intro w tries
  have hsound : ((Atlas.ofGrid g).consult asked).Sound := Atlas.sound_consult g asked
  have hover₀ : w₀.Over g := Atlas.grid_consult g asked ▸ (start?_spec hsound hstart).1
  have hover : w.Over g := hover₀.after n
  have hgrid : w.atlas.grid = g := hover.grid
  have hfresh : w.Fresh := by
    rcases hentered with rfl | ⟨i, rfl, henters⟩
    · exact start?_fresh hsound hstart hcolor
    · exact (hover₀.after i).fresh_of_enters henters hcolor
  have htried : ∀ k ≤ 8, (∀ t ∈ tries.take k, g.wayOut? w.current t = none) → ∀ j < k,
      w.atlas.grid.wayOut? w.current (headingAfter w.machine.dp w.machine.cc j) = none := by
    intro k hk hshut j hj
    rw [hgrid]
    exact hshut _ (headingAfter_mem_take _ _ hj hk)
  refine ⟨fun k heading hheading hshut hle => ?_, fun hshut hlt => ?_⟩
  · obtain ⟨hk, rfl⟩ := getElem?_searchOrder.mp hheading
    have hshut' := htried k hk.le hshut
    -- All tries before this one are shut, so the walk is known outright up to here.
    have hafter : ∀ j ≤ k, w.after j = w.searching j := fun j hj =>
      hfresh.after_eq_searching hcolor (by omega) (by omega) fun i hi => hshut' i (by omega)
    have hblocked : ∀ j < k, ∃ s, (w.after j).step = (w.after (j + 1), .continued s) ∧
        s.blocked = true := by
      intro j hj
      rw [hafter j (by omega), hafter (j + 1) (by omega)]
      exact searching_step hcolor (by omega) (by omega) (hshut' j hj)
    have hoverₖ : (w.searching k).Over g := hafter k le_rfl ▸ hover.after k
    refine ⟨hblocked, ?_⟩
    rw [after_succ, hafter k le_rfl]
    exact ⟨rfl, rfl, rfl, rfl, fun hlt p hopen => hoverₖ.step_of_open hlt hopen⟩
  · have hshut' := htried 8 le_rfl fun t ht => hshut t (List.mem_of_mem_take ht)
    have hafter : w.after 7 = w.searching 7 :=
      hfresh.after_eq_searching hcolor le_rfl hlt.le fun j hj => hshut' j (by omega)
    rw [hafter]
    exact ⟨rfl, searching_finished hlt (hshut' 7 (by decide))⟩

/-- Three shades on black: the middle one is entered to the right and left downward. -/
def bend : Grid :=
  ⟨3, 3, #[.shade (.ofInts 0 0), .shade (.ofInts 1 0), .black,
    .black, .shade (.ofInts 0 1), .black,
    .black, .black, .black], rfl, by decide, by decide⟩

/-- A walk over it that has not taken a step. -/
def bendWalk : Walk :=
  (start? ((Atlas.ofGrid bend).consult [⟨1, 1⟩]) (.start #[]) 9).get (by decide +kernel)

/-- A walk over a picture whose first block has white next to it, but ahead of none of its
exits. -/
def cornerWalk : Walk :=
  (start? ((Atlas.ofGrid Atlas.corner).consult []) (.start #[]) 9).get (by decide +kernel)

theorem recovery_bend :
    (start? ((Atlas.ofGrid bend).consult [⟨1, 1⟩]) (.start #[]) 9 = some bendWalk ∧
      (bendWalk.after 0).step.2.Enters ∧ (bendWalk.after 1).current.color ≠ .white ∧
      let w := bendWalk.after 1
      (∀ j < 2, ∃ s, (w.after j).step = (w.after (j + 1), .continued s) ∧ s.blocked = true) ∧
      (w.after 2).machine = { w.machine with dp := .down, cc := .right } ∧
      (w.after 2).step.2.Enters ∧ (w.after 3).last = w.current ∧
      ⟨1, 1⟩ ∈ (w.after 3).current.pixels) ∧
    start? ((Atlas.ofGrid Atlas.corner).consult []) (.start #[]) 9 = some cornerWalk ∧
      (cornerWalk.after 7).flips = 4 ∧
      (cornerWalk.after 7).step = (cornerWalk.after 7, .halted .finished) := by
  constructor
  · have hstart : start? ((Atlas.ofGrid bend).consult [⟨1, 1⟩]) (.start #[]) 9 = some bendWalk :=
      (Option.some_get _).symm
    have hentered : (bendWalk.after 0).step.2.Enters := by decide +kernel
    have hcolor : (bendWalk.after 1).current.color ≠ .white := by decide +kernel
    have hshut : ∀ t ∈ (searchOrder (bendWalk.after 1).machine.dp
        (bendWalk.after 1).machine.cc).take 2,
        bend.wayOut? (bendWalk.after 1).current t = none := by decide +kernel
    have hopen : bend.wayOut? (bendWalk.after 1).current (.down, .right) = some ⟨1, 1⟩ := by
      decide +kernel
    obtain ⟨hsearch, -⟩ := recovery bend [⟨1, 1⟩] (.start #[]) 9 hstart (n := 1)
      (.inr ⟨0, rfl, hentered⟩) hcolor
    obtain ⟨hblocked, hmachine, -, -, -, hleave⟩ :=
      hsearch 2 (.down, .right) (by decide +kernel) hshut (by decide +kernel)
    exact ⟨hstart, hentered, hcolor, hblocked, hmachine, hleave (by decide +kernel) ⟨1, 1⟩ hopen⟩
  · have hstart : start? ((Atlas.ofGrid Atlas.corner).consult []) (.start #[]) 9 =
        some cornerWalk :=
      (Option.some_get _).symm
    have hshut : ∀ t ∈ searchOrder (cornerWalk.after 0).machine.dp (cornerWalk.after 0).machine.cc,
        Atlas.corner.wayOut? (cornerWalk.after 0).current t = none := by decide +kernel
    obtain ⟨-, hend⟩ := recovery Atlas.corner [] (.start #[]) 9 hstart (n := 0) (.inl rfl)
      (by decide +kernel)
    exact ⟨hstart, hend hshut (by decide +kernel)⟩

end Walk

end Piet
