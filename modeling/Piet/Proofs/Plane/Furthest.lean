import Mathlib.Algebra.Ring.Int.Defs
import Mathlib.Algebra.Ring.Nat
import Mathlib.Data.Prod.Lex
import Mathlib.Data.Set.Basic
import Piet.Block.Atlas

/-!
# The exit pixel does not depend on the order of the pixels

Distances are compared as signed words, but on positions whose coordinates fit such a word they
order pixels as integers do.  The pixel a pointer leaves from is then the greatest one for a
linear order that tells all positions apart (`Heading.rank_injective`), so it is determined by
the *set* of pixels:

* `Heading.rank_le_furthestFrom` and `Heading.furthestFrom_mem` say that the result is the
  greatest one;
* `Block.exit_congr` says that blocks with the same pixels have the same exits, however those
  pixels were found;
* `ExitOf` is the table of exits, with one row for each heading, and `Block.exitOf_exit` says that
  a block is left from the pixel of its row, which is the only one (`ExitOf.unique`);
* `Heading.furthest?_in_table` says the same of any array of pixels, whatever their order.

The module also collects how a step changes the distances along and across its direction.
-/

namespace Piet

/-! ### Distances as integers -/

/-- How far a position lies towards a direction, as an integer. -/
def Direction.reach (d : Direction) (p : Pos) : ℤ :=
  match d with
  | .right => p.x
  | .down => p.y
  | .left => -p.x
  | .up => -p.y

/-- Both coordinates fit a signed word. -/
def Pos.Near (p : Pos) : Prop :=
  p.y < 2 ^ 63 ∧ p.x < 2 ^ 63

theorem Pos.Near.lt_limit {p : Pos} (h : p.Near) : p.y < Pos.limit ∧ p.x < Pos.limit :=
  ⟨h.1.trans (by decide), h.2.trans (by decide)⟩

namespace Direction

/-- On near positions the distance as a word is the distance as an integer. -/
theorem toInt_extent {p : Pos} (hp : p.Near) (d : Direction) :
    (d.extent p).toInt = d.reach p := by
  have hy : (Int64.ofNat p.y).toInt = p.y := Int64.toInt_ofNat_of_lt hp.1
  have hx : (Int64.ofNat p.x).toInt = p.x := Int64.toInt_ofNat_of_lt hp.2
  cases d with
  | right => exact hx
  | down => exact hy
  | left => exact Int64.toInt_neg_ofNat_of_le hp.2.le
  | up => exact Int64.toInt_neg_ofNat_of_le hp.1.le

theorem extent_lt_iff {p q : Pos} (hp : p.Near) (hq : q.Near) (d : Direction) :
    d.extent p < d.extent q ↔ d.reach p < d.reach q := by
  rw [Int64.lt_iff_toInt_lt, toInt_extent hp, toInt_extent hq]

/-- A quarter turn apart, on either side. -/
def Across (d e : Direction) : Prop :=
  e = d.clockwise ∨ e = d.clockwise.clockwise.clockwise

theorem across_rotate_turns (d : Direction) (cc : Chooser) : d.Across (d.rotate cc.turns) := by
  cases cc with
  | left => exact .inr (by cases d <;> rfl)
  | right => exact .inl (by cases d <;> rfl)

/-- The direction behind. -/
def back (d : Direction) : Direction :=
  d.clockwise.clockwise

@[simp]
theorem rotate_two (d : Direction) : d.rotate 2 = d.back := rfl

@[simp]
theorem reach_back (d : Direction) (p : Pos) : d.back.reach p = -d.reach p := by
  cases d <;> simp [back, clockwise, reach]

theorem Across.symm {d e : Direction} (h : d.Across e) : e.Across d := by
  rcases h with rfl | rfl
  · exact .inr (by simp)
  · exact .inl (by simp)

theorem Across.back {d e : Direction} (h : d.Across e) : d.Across e.back := by
  rcases h with rfl | rfl
  · exact .inr rfl
  · exact .inl (by simp [Direction.back])

/-- Only two directions, opposite to one another, lie across a third. -/
theorem Across.eq_or {d e f : Direction} (h : d.Across e) (hf : d.Across f) :
    f = e ∨ f = e.back := by
  rcases h with rfl | rfl <;> rcases hf with rfl | rfl
  · exact .inl rfl
  · exact .inr rfl
  · exact .inr (by simp [Direction.back])
  · exact .inl rfl

/-- Each direction lies along one of two that are a quarter turn apart. -/
theorem Across.cases {d e : Direction} (h : d.Across e) (f : Direction) :
    f = d ∨ f = e ∨ f = d.back ∨ f = e.back := by
  rcases h with rfl | rfl <;> cases d <;> cases f <;> simp [Direction.back, clockwise]

/-- Two directions that are not a quarter turn apart lie in one line. -/
theorem eq_or_across (d e : Direction) : e = d ∨ e = d.back ∨ d.Across e := by
  cases d <;> cases e <;> simp [Across, back, clockwise]

/-- Two distances a quarter turn apart tell positions apart. -/
theorem Across.ext {d e : Direction} (h : d.Across e) {p q : Pos} (hd : d.reach p = d.reach q)
    (he : e.reach p = e.reach q) : p = q := by
  obtain ⟨py, px⟩ := p
  obtain ⟨qy, qx⟩ := q
  rw [Pos.mk.injEq]
  rcases h with rfl | rfl <;> cases d <;> simp only [clockwise, reach] at hd he <;> omega

end Direction

/-! ### Steps -/

namespace Pos

variable {p q : Pos} {d e : Direction}

/-- A step leads one further in its own direction. -/
theorem reach_step (h : p.step d = some q) : d.reach q = d.reach p + 1 := by
  cases d <;> simp only [step, Option.ite_none_right_eq_some, Option.some.injEq] at h <;>
    obtain ⟨hlt, rfl⟩ := h <;> simp only [Direction.reach] <;> omega

/-- A step leads no further to either side. -/
theorem reach_step_across (h : p.step d = some q) (hde : d.Across e) :
    e.reach q = e.reach p := by
  rcases hde with rfl | rfl <;> cases d <;>
    simp only [step, Option.ite_none_right_eq_some, Option.some.injEq] at h <;>
    obtain ⟨hlt, rfl⟩ := h <;> rfl

/-- A step leads nowhere but one further. -/
theorem ne_of_step (h : p.step d = some q) {r : Pos} (hne : d.reach r ≠ d.reach p + 1) : q ≠ r := by
  rintro rfl
  exact hne (reach_step h)

theorem step_ne_self (h : p.step d = some q) : q ≠ p :=
  ne_of_step h (by omega)

/-- A step can be taken back. -/
theorem step_back (hp : p.y < limit ∧ p.x < limit) (h : p.step d = some q) :
    q.step d.back = some p := by
  obtain ⟨py, px⟩ := p
  cases d <;> simp only [step, Option.ite_none_right_eq_some, Option.some.injEq] at h <;>
    obtain ⟨hlt, rfl⟩ := h <;>
    simp only [Direction.back, Direction.clockwise, step, Option.ite_none_right_eq_some,
      Option.some.injEq, Pos.mk.injEq, true_and, and_true] at hp hlt ⊢ <;> omega

/-- Two steps across one another can be taken in either order. -/
theorem step_comm (hde : d.Across e) {r s : Pos} (h : p.step d = some q) (hr : q.step e = some r)
    (hs : p.step e = some s) : s.step d = some r := by
  obtain ⟨py, px⟩ := p
  rcases hde with rfl | rfl <;> cases d <;>
    simp only [Direction.clockwise, step, Option.ite_none_right_eq_some, Option.some.injEq]
      at h hs <;>
    obtain ⟨hlt, rfl⟩ := h <;> obtain ⟨hlt', rfl⟩ := hs <;>
    simp only [Direction.clockwise, step, Option.ite_none_right_eq_some, Option.some.injEq]
      at hr ⊢ <;> exact ⟨hlt, hr.2⟩

/-- A step changes a coordinate by one at most. -/
theorem step_le (h : p.step d = some q) : q.y ≤ p.y + 1 ∧ q.x ≤ p.x + 1 := by
  cases d <;> simp only [step, Option.ite_none_right_eq_some, Option.some.injEq] at h <;>
    obtain ⟨hlt, rfl⟩ := h <;> constructor <;> simp only <;> omega

end Pos

/-! ### The order of exits -/

namespace Heading

/-- Positions as a heading compares them: first by the distance ahead, then by the distance to
the side. -/
def rank (h : Heading) (p : Pos) : ℤ ×ₗ ℤ :=
  toLex (h.ahead.reach p, h.side.reach p)

/-- The further one of two near positions is the one of greater rank. -/
theorem rank_further (h : Heading) {p q : Pos} (hp : p.Near) (hq : q.Near) :
    h.rank (h.further p q) = max (h.rank p) (h.rank q) := by
  have hle : h.rank q ≤ h.rank p ↔ h.ahead.reach q < h.ahead.reach p ∨
      h.ahead.reach q = h.ahead.reach p ∧ h.side.reach q ≤ h.side.reach p :=
    Prod.Lex.toLex_le_toLex
  have hle' : h.rank p ≤ h.rank q ↔ h.ahead.reach p < h.ahead.reach q ∨
      h.ahead.reach p = h.ahead.reach q ∧ h.side.reach p ≤ h.side.reach q :=
    Prod.Lex.toLex_le_toLex
  simp only [further, Direction.extent_lt_iff hp hq, Direction.extent_lt_iff hq hp]
  split
  · exact (max_eq_left (hle.mpr (by omega))).symm
  · split
    · exact (max_eq_right (hle'.mpr (by omega))).symm
    · split
      · exact (max_eq_left (hle.mpr (by omega))).symm
      · exact (max_eq_right (hle'.mpr (by omega))).symm

theorem near_further (h : Heading) {p q : Pos} (hp : p.Near) (hq : q.Near) :
    (h.further p q).Near := by
  rcases h.further_eq_or p q with he | he <;> rw [he] <;> assumption

/-- No position that was compared has a greater rank than the result. -/
theorem rank_le_furthestFrom (h : Heading) {first : Pos} {pixels : Array Pos}
    (hfirst : first.Near) (hp : ∀ p ∈ pixels, p.Near) :
    h.rank first ≤ h.rank (h.furthestFrom first pixels) ∧
      ∀ p ∈ pixels, h.rank p ≤ h.rank (h.furthestFrom first pixels) := by
  obtain ⟨l⟩ := pixels
  simp only [furthestFrom, List.foldl_toArray', List.mem_toArray] at hp ⊢
  induction l generalizing first with
  | nil => exact ⟨le_rfl, fun p hmem => absurd hmem List.not_mem_nil⟩
  | cons q l ih =>
    have hq : q.Near := hp q List.mem_cons_self
    have hmax := h.rank_further hfirst hq
    obtain ⟨hhead, htail⟩ :=
      ih (h.near_further hfirst hq) fun p hmem => hp p (List.mem_cons_of_mem _ hmem)
    rw [List.foldl_cons]
    refine ⟨(le_max_left _ _).trans (hmax.symm.le.trans hhead), fun p hmem => ?_⟩
    rcases List.mem_cons.mp hmem with rfl | hmem
    · exact (le_max_right _ _).trans (hmax.symm.le.trans hhead)
    · exact htail p hmem

/-- The rank for a direction and the side of a chooser tells positions apart. -/
theorem rank_injective (dp : Direction) (cc : Chooser) {p q : Pos}
    (h : (of dp cc).rank p = (of dp cc).rank q) : p = q := by
  rw [rank, rank, toLex_inj, Prod.mk.injEq] at h
  exact (Direction.across_rotate_turns dp cc).ext h.1 h.2

end Heading

namespace Block

/-- Every pixel of a block is near. -/
def Near (b : Block) : Prop :=
  ∀ p ∈ b.pixels, p.Near

theorem rank_le_exit {b : Block} (hb : b.Near) (dp : Direction) (cc : Chooser) {p : Pos}
    (hp : p ∈ b.pixels) : (Heading.of dp cc).rank p ≤ (Heading.of dp cc).rank (b.exit dp cc) :=
  (Heading.rank_le_furthestFrom _ (hb _ b.first_mem) hb).2 p hp

/-- No pixel of a block lies further ahead than its exit. -/
theorem reach_le_exit {b : Block} (hb : b.Near) (dp : Direction) (cc : Chooser) {p : Pos}
    (hp : p ∈ b.pixels) : dp.reach p ≤ dp.reach (b.exit dp cc) := by
  have h := Prod.Lex.toLex_le_toLex.mp (b.rank_le_exit hb dp cc hp)
  simp only [Heading.of] at h
  omega

/-- The pixel ahead of an exit is not in the block. -/
theorem not_mem_of_step_exit {b : Block} (hb : b.Near) {dp : Direction} {cc : Chooser} {q : Pos}
    (h : (b.exit dp cc).step dp = some q) : q ∉ b.pixels := by
  intro hq
  have hle := b.reach_le_exit hb dp cc hq
  have hstep := Pos.reach_step h
  omega

/-- **The exit is determined by the set of pixels.**  Blocks with the same pixels are left from
the same one, in whatever order and however often these were listed. -/
theorem exit_congr {b b' : Block} (hb : b.Near) (hmem : ∀ p, p ∈ b.pixels ↔ p ∈ b'.pixels)
    (dp : Direction) (cc : Chooser) : b.exit dp cc = b'.exit dp cc := by
  have hb' : b'.Near := fun p hp => hb p ((hmem p).mpr hp)
  apply Heading.rank_injective dp cc
  apply le_antisymm
  · exact b'.rank_le_exit hb' dp cc ((hmem _).mp (b.exit_mem dp cc))
  · exact b.rank_le_exit hb dp cc ((hmem _).mpr (b'.exit_mem dp cc))

end Block

/-! ### The table of exits -/

/-- The pixel of a set from which the pointer leaves.  Each row of the table first asks for the
extreme distance in the direction of the pointer and then, among the pixels at this distance, for
the extreme one towards the side of the chooser. -/
def ExitOf (s : Set Pos) (p : Pos) (dp : Direction) (cc : Chooser) : Prop :=
  p ∈ s ∧ match dp, cc with
    | .right, .left => (∀ q ∈ s, q.x ≤ p.x) ∧ ∀ q ∈ s, q.x = p.x → p.y ≤ q.y
    | .right, .right => (∀ q ∈ s, q.x ≤ p.x) ∧ ∀ q ∈ s, q.x = p.x → q.y ≤ p.y
    | .down, .left => (∀ q ∈ s, q.y ≤ p.y) ∧ ∀ q ∈ s, q.y = p.y → q.x ≤ p.x
    | .down, .right => (∀ q ∈ s, q.y ≤ p.y) ∧ ∀ q ∈ s, q.y = p.y → p.x ≤ q.x
    | .left, .left => (∀ q ∈ s, p.x ≤ q.x) ∧ ∀ q ∈ s, q.x = p.x → q.y ≤ p.y
    | .left, .right => (∀ q ∈ s, p.x ≤ q.x) ∧ ∀ q ∈ s, q.x = p.x → p.y ≤ q.y
    | .up, .left => (∀ q ∈ s, p.y ≤ q.y) ∧ ∀ q ∈ s, q.y = p.y → p.x ≤ q.x
    | .up, .right => (∀ q ∈ s, p.y ≤ q.y) ∧ ∀ q ∈ s, q.y = p.y → q.x ≤ p.x

/-- To be greatest by two distances in turn is to be extreme by the first one and, among those at
the same distance, by the second one. -/
theorem forall_lex_iff {s : Set Pos} {p : Pos} (f h : Pos → ℤ) :
    (∀ q ∈ s, f q < f p ∨ f q = f p ∧ h q ≤ h p) ↔
      (∀ q ∈ s, f q ≤ f p) ∧ ∀ q ∈ s, f q = f p → h q ≤ h p := by
  constructor
  · intro hmax
    refine ⟨fun q hq => ?_, fun q hq heq => ?_⟩
    · rcases hmax q hq with hlt | ⟨heq, -⟩
      · exact hlt.le
      · exact heq.le
    · rcases hmax q hq with hlt | ⟨-, hle⟩
      · exact absurd heq hlt.ne
      · exact hle
  · rintro ⟨hfirst, hsecond⟩ q hq
    rcases (hfirst q hq).lt_or_eq with hlt | heq
    · exact .inl hlt
    · exact .inr ⟨heq, hsecond q hq heq⟩

/-- **The table of exits lists the greatest pixels.** -/
theorem exitOf_iff_rank {s : Set Pos} {p : Pos} {dp : Direction} {cc : Chooser} :
    ExitOf s p dp cc ↔
      p ∈ s ∧ ∀ q ∈ s, (Heading.of dp cc).rank q ≤ (Heading.of dp cc).rank p := by
  have hrank : (∀ q ∈ s, (Heading.of dp cc).rank q ≤ (Heading.of dp cc).rank p) ↔
      (∀ q ∈ s, dp.reach q ≤ dp.reach p) ∧
        ∀ q ∈ s, dp.reach q = dp.reach p →
          (dp.rotate cc.turns).reach q ≤ (dp.rotate cc.turns).reach p := by
    rw [← forall_lex_iff]
    exact forall₂_congr fun q _ => Prod.Lex.toLex_le_toLex
  rw [hrank]
  refine and_congr_right fun _ => ?_
  cases dp <;> cases cc <;>
    simp [Chooser.turns, Direction.rotate, Direction.reach, Direction.clockwise]

/-- There is at most one exit for each heading. -/
theorem ExitOf.unique {s : Set Pos} {p q : Pos} {dp : Direction} {cc : Chooser}
    (hp : ExitOf s p dp cc) (hq : ExitOf s q dp cc) : p = q := by
  obtain ⟨hps, hpmax⟩ := exitOf_iff_rank.mp hp
  obtain ⟨hqs, hqmax⟩ := exitOf_iff_rank.mp hq
  exact Heading.rank_injective dp cc (le_antisymm (hqmax p hps) (hpmax q hqs))

namespace Heading

variable {pixels : Array Pos} {dp : Direction} {cc : Chooser} {p : Pos}

theorem furthest?_eq_none_iff (h : Heading) : h.furthest? pixels = none ↔ pixels = #[] := by
  rw [furthest?, Option.map_eq_none_iff, Array.getElem?_eq_none_iff, Nat.le_zero,
    Array.size_eq_zero_iff]

/-- The pixel found is the one of the table. -/
theorem exitOf_furthest? (hnear : ∀ p ∈ pixels, p.Near)
    (h : (of dp cc).furthest? pixels = some p) : ExitOf {q | q ∈ pixels} p dp cc := by
  obtain ⟨first, hfirst, rfl⟩ := Option.map_eq_some_iff.mp h
  have hmem : first ∈ pixels := Array.mem_of_getElem? hfirst
  refine exitOf_iff_rank.mpr ⟨?_, (rank_le_furthestFrom _ (hnear _ hmem) hnear).2⟩
  rcases (of dp cc).furthestFrom_mem first pixels with heq | hfound
  · rwa [heq]
  · exact hfound

/-- **A pixel is found exactly where the table has one.** -/
theorem furthest?_eq_some_iff (hnear : ∀ p ∈ pixels, p.Near) :
    (of dp cc).furthest? pixels = some p ↔ ExitOf {q | q ∈ pixels} p dp cc := by
  constructor
  · exact exitOf_furthest? hnear
  · intro h
    -- There is a pixel, so one is found, and the table has no other one.
    have hfound : (of dp cc).furthest? pixels ≠ none := by
      rw [ne_eq, furthest?_eq_none_iff]
      exact Array.ne_empty_of_mem h.1
    obtain ⟨q, hq⟩ := Option.ne_none_iff_exists'.mp hfound
    rw [hq, (exitOf_furthest? hnear hq).unique h]

end Heading

/-- The comparison of all pixels of a block has a result, which is the exit. -/
theorem Block.furthest?_pixels (b : Block) (dp : Direction) (cc : Chooser) :
    (Heading.of dp cc).furthest? b.pixels = some (b.exit dp cc) := by
  rw [Heading.furthest?, Array.getElem?_eq_getElem b.nonempty]
  rfl

/-- A block is left from the pixel of the table. -/
theorem Block.exitOf_exit {b : Block} (hb : b.Near) (dp : Direction) (cc : Chooser) :
    ExitOf {p | p ∈ b.pixels} (b.exit dp cc) dp cc :=
  Heading.exitOf_furthest? hb (b.furthest?_pixels dp cc)

/-- Coordinates that fit a signed word have a distance in every direction. -/
theorem Pos.Near.measurable {p : Pos} (h : p.Near) : p.Measurable := by
  have hleast : ∀ n < 2 ^ 63, Int64.ofNat n ≠ Int64.minValue := by
    intro n hn heq
    have hint := congrArg Int64.toInt heq
    rw [Int64.toInt_ofNat_of_lt hn, Int64.toInt_minValue] at hint
    omega
  exact ⟨hleast _ h.1, hleast _ h.2⟩

/-- **The exit of some pixels is the one of the table, whatever their order.**  Let all coordinates fit
a signed word.  Then all distances can be measured.  If there are pixels, the exit is the one of the
table, which is the only one there, and otherwise none is found.  So the same pixels in another order,
or with some of them repeated, have the same exit. -/
theorem Heading.furthest?_in_table {pixels : Array Pos} (hnear : ∀ p ∈ pixels, p.Near)
    (dp : Direction) (cc : Chooser) :
    exits? pixels = some (all.map fun h => h.furthest? pixels) ∧
    ((of dp cc).furthest? pixels = none ↔ pixels = #[]) ∧
    (∀ p, (of dp cc).furthest? pixels = some p ↔ ExitOf {q | q ∈ pixels} p dp cc) ∧
    (pixels ≠ #[] → ∃! p, ExitOf {q | q ∈ pixels} p dp cc) ∧
    ∀ pixels' : Array Pos, (∀ p, p ∈ pixels' ↔ p ∈ pixels) →
      (of dp cc).furthest? pixels' = (of dp cc).furthest? pixels := by
  refine ⟨if_pos ?_, furthest?_eq_none_iff _, fun p => furthest?_eq_some_iff hnear, ?_, ?_⟩
  · rw [Array.all_eq_true_iff_forall_mem]
    intro p hp
    exact decide_eq_true (hnear p hp).measurable
  · intro hne
    obtain ⟨p, hp⟩ := Option.ne_none_iff_exists'.mp (mt (furthest?_eq_none_iff (of dp cc)).mp hne)
    have hexit := (furthest?_eq_some_iff hnear).mp hp
    exact ⟨p, hexit, fun q hq => hq.unique hexit⟩
  · intro pixels' hmem
    have hnear' : ∀ p ∈ pixels', p.Near := fun p hp => hnear p ((hmem p).mp hp)
    have hset : {q | q ∈ pixels'} = {q | q ∈ pixels} := Set.ext hmem
    refine Option.ext fun p => ?_
    rw [furthest?_eq_some_iff hnear, furthest?_eq_some_iff hnear', hset]

/-- Three pixels round a corner, two of them furthest to the right. -/
def hook : Array Pos :=
  #[⟨0, 1⟩, ⟨1, 1⟩, ⟨1, 0⟩]

/-- The upper one of the two is the exit, also in another order and with a pixel repeated. -/
theorem Heading.furthest?_in_table_hook :
    (∀ p ∈ hook, p.Near) ∧ (of .right .left).furthest? hook = some ⟨0, 1⟩ ∧
      ExitOf {q | q ∈ hook} ⟨0, 1⟩ .right .left ∧
      (of .right .left).furthest? #[⟨1, 0⟩, ⟨1, 1⟩, ⟨0, 1⟩, ⟨1, 0⟩] = some ⟨0, 1⟩ := by
  have hnear : ∀ p ∈ hook, p.Near := by simp [hook, Pos.Near]
  obtain ⟨-, -, htable, -, horder⟩ := furthest?_in_table hnear .right .left
  have hfound : (of .right .left).furthest? hook = some ⟨0, 1⟩ := by decide
  have hsame : ∀ p, p ∈ #[⟨1, 0⟩, ⟨1, 1⟩, ⟨0, 1⟩, ⟨1, 0⟩] ↔ p ∈ hook := by grind [hook]
  exact ⟨hnear, hfound, (htable _).mp hfound, (horder _ hsame).trans hfound⟩

end Piet
