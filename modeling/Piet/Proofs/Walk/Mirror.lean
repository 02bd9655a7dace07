import Piet.Proofs.Block.Mirror
import Piet.Proofs.Walk.Calls
import Piet.Walk.Run

/-!
# Walks that mirror each other

On a picture that mirrors another one the pointer finds the same ways open and slides as far over
white, so a walk over the one does step by step what a walk over the other does: `Walk.rename` puts
another atlas under a walk and renames its two blocks, and if the atlases know the same, this commutes
with a call for a step (`Walk.step_rename`), hence with any number of calls and with a whole run.

`Grid.Mirrors.walks_alike` says so for walks from the start, and `Grid.Mirrors.interpret_eq` for what
a program leaves behind.
-/

namespace Piet

namespace Renaming

variable (f : Renaming) {k k' : Color}

/-- Shades stay shades. -/
theorem isSome_shade? (k : Color) : (f k).shade?.isSome ↔ k.shade?.isSome := by
  have hshade : ∀ k : Color, k.shade?.isSome ↔ k ≠ .white ∧ k ≠ .black := by
    intro k
    cases k <;> simp [Color.shade?]
  rw [hshade, hshade, Ne, Ne, eq_white_iff, eq_black_iff]

/-- Moving between renamed colours ends the search for a way out where it did before. -/
theorem resets_iff : (f k).Resets (f k') ↔ k.Resets k' := by
  rw [Color.Resets, Color.Resets, isSome_shade?, isSome_shade?, Ne, eq_iff]

end Renaming

theorem Block.rename_of_white {b : Block} (h : b.color = .white) (f : Renaming) :
    b.rename f = b := by
  obtain ⟨color, pixels, hpixels⟩ := b
  obtain rfl : color = .white := h
  rw [rename, f.white]

/-! ### Looking ahead -/

namespace Grid

variable {f : Renaming} {T : Set Color} {g g' : Grid} {p : Pos} {k : Color}

theorem open_iff_exists : g.Open p ↔ ∃ k, k ≠ .black ∧ g.get? p = some k := by
  constructor
  · rintro ⟨hsome, hblack⟩
    obtain ⟨k, hk⟩ := Option.ne_none_iff_exists'.mp hsome
    refine ⟨k, ?_, hk⟩
    rintro rfl
    exact hblack hk
  · rintro ⟨k, hne, hk⟩
    exact open_of_get? hk hne

namespace Mirrors

/-- The pointer can enter the same pixels. -/
theorem open_iff (h : g.Mirrors f T g') (p : Pos) : g'.Open p ↔ g.Open p := by
  rw [open_iff_exists, open_iff_exists]
  constructor
  · rintro ⟨k', hne, hk'⟩
    obtain ⟨k, rfl⟩ := f.exists_eq k'
    have hk : k ≠ .black := mt f.eq_black_iff.mpr hne
    exact ⟨k, hk, (h.get?_iff p k (h.mem k hk)).mp hk'⟩
  · rintro ⟨k, hne, hk⟩
    exact ⟨f k, mt f.eq_black_iff.mp hne, (h.get?_iff p k (h.mem k hne)).mpr hk⟩

theorem ahead?_eq (h : g.Mirrors f T g') (p : Pos) (d : Direction) :
    g'.ahead? p d = g.ahead? p d := by
  refine Option.ext fun q => ?_
  rw [ahead?_eq_some_iff, ahead?_eq_some_iff, h.open_iff]

theorem white_iff (h : g.Mirrors f T g') (p : Pos) :
    g'.get? p = some .white ↔ g.get? p = some .white := by
  rw [← h.get?_iff p .white (h.mem _ Color.white_ne_black), f.white]

/-- The pointer slides as far over white, even if the other picture is larger. -/
theorem whiteFrom_eq (h : g.Mirrors f T g') (hp : g.get? p = some .white) (d : Direction) :
    g'.whiteFrom p d = g.whiteFrom p d := by
  obtain ⟨hstretch, hwhite, hend⟩ := g.whiteFrom_spec hp d
  refine Grid.whiteFrom_eq hstretch ?_ hstretch.mem_first ?_
  · intro q hq
    exact (h.white_iff q).mpr (hwhite q hq)
  · intro q hq
    exact mt (h.white_iff q).mp (hend q hq)

end Mirrors

end Grid

namespace Atlas

variable {f : Renaming} {T : Set Color} {a a' : Atlas} {p : Pos}

/-- **What the pointer enters is the same**, and it looks ahead from the same pixel. -/
theorem Mirrors.enter (h : a.Mirrors f T a') (hp : a.grid.Open p) (dp : Direction)
    (cc : Chooser) :
    ∃ a₁ a₁' b q, a.enter p dp cc = (a₁, some (b, q)) ∧
      a'.enter p dp cc = (a₁', some (b.rename f, q)) ∧ a₁.Mirrors f T a₁' := by
  obtain ⟨k, hne, hk⟩ := Grid.open_iff_exists.mp hp
  have hk' : a'.grid.get? p = some (f k) := (h.grid.get?_iff p k (h.grid.mem k hne)).mpr hk
  by_cases hwhite : k = .white
  · subst hwhite
    rw [f.white] at hk'
    refine ⟨a, a', a.grid.whiteFrom p dp, (a.grid.whiteFrom p dp).final, ?_, ?_, h⟩
    · simp only [Atlas.enter, hk]
    · rw [Block.rename_of_white (Grid.color_whiteFrom _ _ _)]
      simp only [Atlas.enter, hk', h.grid.whiteFrom_eq hk]
  · obtain ⟨b, hb, hb', hmirrors⟩ := h.blockAt (h.grid.mem k hne) hk
    exact ⟨_, _, b, b.exit dp cc, enter_of_ne_white hk hwhite (Prod.ext rfl hb) dp cc,
      enter_of_ne_white hk' (mt f.eq_white_iff.mp hwhite) (Prod.ext rfl hb') dp cc, hmirrors⟩

end Atlas

/-! ### Walks -/

/-- What a step reports if the colours have other names. -/
def Step.rename (s : Step) (f : Renaming) : Step :=
  { s with last := s.last.rename f, current := s.current.rename f }

/-- What a call leads to if the colours have other names. -/
def Event.rename : Event → Renaming → Event
  | halted halt, _ => .halted halt
  | continued s, f => .continued (s.rename f)
  | sinkFull, _ => .sinkFull

@[simp]
theorem Event.rename_refl (e : Event) : e.rename .refl = e := by
  cases e <;> rfl

namespace Walk

/-- The same walk over another atlas, with its blocks renamed.  Everything else about it stays. -/
def rename (w : Walk) (f : Renaming) (a : Atlas) : Walk :=
  { w with atlas := a, last := w.last.rename f, current := w.current.rename f }

variable {f : Renaming} {T : Set Color} {w : Walk} {a a₁ : Atlas} {b : Block} {q : Pos}

theorem reposition_rename (w : Walk) (f : Renaming) (a : Atlas) :
    (w.rename f a).reposition = w.reposition.rename f a := by
  have hcolor : (w.rename f a).current.color = .white ↔ w.current.color = .white :=
    f.eq_white_iff
  by_cases hwhite : w.current.color = .white
  · rw [reposition, reposition, if_pos hwhite, if_pos (hcolor.mpr hwhite)]
  · rw [reposition, reposition, if_neg hwhite, if_neg (mt hcolor.mp hwhite)]
    rfl

/-- Looking for another way is the same on both sides. -/
theorem detour_rename (w : Walk) (f : Renaming) (a : Atlas) :
    (w.rename f a).detour = (w.detour.1.rename f a, w.detour.2.rename f) := by
  have hflip : (w.rename f a).flip = w.flip.rename f a := by
    rw [flip, flip, ← reposition_rename]
    rfl
  have hturn : (w.rename f a).turn = w.turn.rename f a := by
    rw [turn, turn, ← reposition_rename]
    rfl
  have hflipped : (w.rename f a).flipped = w.flipped := rfl
  have hflips : (w.rename f a).flips = w.flips := rfl
  rw [detour, detour, hflip, hturn, hflipped, hflips]
  split
  · split <;> rfl
  · rfl

/-- The same instruction is executed at the entry to a block, on the same size. -/
theorem entered_rename (w : Walk) (f : Renaming) (a a₁ a₁' : Atlas) (b : Block) (q : Pos) :
    (w.rename f a).entered a₁' (b.rename f) q = (w.entered a₁ b q).rename f a₁' := by
  have hi : (w.rename f a).current.color.instructionTo (b.rename f).color =
      w.current.color.instructionTo b.color := f.instructionTo _ _
  have hresets : (w.rename f a).current.color.Resets (b.rename f).color ↔
      w.current.color.Resets b.color := f.resets_iff
  simp only [entered, hi, hresets]
  split
  · rw [← reposition_rename]
    rfl
  · rfl

theorem arrive_rename (w : Walk) (f : Renaming) (a a₁ a₁' : Atlas) (b : Block) (q : Pos) :
    (w.rename f a).arrive a₁' (b.rename f) q =
      ((w.arrive a₁ b q).1.rename f a₁', (w.arrive a₁ b q).2.rename f) := by
  have hi : (w.rename f a).current.color.instructionTo (b.rename f).color =
      w.current.color.instructionTo b.color := f.instructionTo _ _
  have hmachine : (w.rename f a).machine = w.machine := rfl
  have hsize : (w.rename f a).current.size = w.current.size := rfl
  simp only [arrive, hi, hmachine, hsize, entered_rename w f a a₁ a₁' b q]
  split <;> rfl

/-- **A call for a step does the same** over atlases that know the same. -/
theorem step_rename (h : w.atlas.Mirrors f T a) :
    ∃ a₁, w.step.1.atlas.Mirrors f T a₁ ∧
      (w.rename f a).step = (w.step.1.rename f a₁, w.step.2.rename f) := by
  have hahead : (w.rename f a).atlas.grid.ahead? (w.rename f a).position
      (w.rename f a).machine.dp = w.atlas.grid.ahead? w.position w.machine.dp :=
    h.grid.ahead?_eq _ _
  have hlimit : (w.rename f a).limit ≤ (w.rename f a).steps ↔ w.limit ≤ w.steps := Iff.rfl
  rw [step, step, hahead]
  simp only [hlimit]
  by_cases hle : w.limit ≤ w.steps
  · rw [if_pos hle, if_pos hle]
    exact ⟨a, h, rfl⟩
  rw [if_neg hle, if_neg hle]
  rcases hp : w.atlas.grid.ahead? w.position w.machine.dp with _ | p
  · refine ⟨a, ?_, detour_rename w f a⟩
    rw [w.detour_frame.1]
    exact h
  · obtain ⟨-, hopen⟩ := Grid.ahead?_eq_some_iff.mp hp
    obtain ⟨a₁, a₁', b, q, henter, henter', hmirrors⟩ :=
      h.enter hopen w.machine.dp w.machine.cc
    refine ⟨a₁', ?_, ?_⟩
    · simp only [enter_eq_arrive henter, (w.arrive_frame a₁ b q).1]
      exact hmirrors
    · simp only [enter_eq_arrive henter]
      rw [enter_eq_arrive (w := w.rename f a) henter', arrive_rename w f a a₁]

/-- Any number of calls does the same. -/
theorem after_rename (h : w.atlas.Mirrors f T a) (n : ℕ) :
    ∃ a₁, (w.after n).atlas.Mirrors f T a₁ ∧ (w.rename f a).after n = (w.after n).rename f a₁ := by
  induction n with
  | zero => exact ⟨a, h, rfl⟩
  | succ n ih =>
    obtain ⟨a₁, hmirrors, hafter⟩ := ih
    obtain ⟨a₂, hmirrors', hstep⟩ := step_rename hmirrors
    exact ⟨a₂, hmirrors', by rw [after_succ, after_succ, hafter, hstep]⟩

/-- A whole run does the same. -/
theorem runFor_rename (h : w.atlas.Mirrors f T a) (fuel : ℕ) (notices : Array Notice) :
    ∃ a₁, (w.rename f a).runFor fuel notices =
      ((w.runFor fuel notices).1.rename f a₁, (w.runFor fuel notices).2) := by
  induction fuel generalizing w a notices with
  | zero => exact ⟨a, rfl⟩
  | succ fuel ih =>
    obtain ⟨a₁, hmirrors, hstep⟩ := step_rename h
    rw [runFor, runFor, hstep]
    rcases hw : w.step with ⟨w₁, e⟩
    rw [hw] at hmirrors
    cases e with
    | halted halt => exact ⟨a₁, rfl⟩
    | sinkFull => exact ⟨a₁, rfl⟩
    | continued s =>
      have hnotice : (s.rename f).notice? = s.notice? := rfl
      simp only [Event.rename, hnotice]
      split
      · exact ih hmirrors _
      · exact ih hmirrors _

/-! ### From the start -/

/-- Walks over atlases that know the same start alike where they agree about the first pixel. -/
theorem start?_rename (h : a.Mirrors f T a₁) {k : Color} (hk : k ∈ T)
    (hp : a.grid.get? .origin = some k) (m : Machine) (limit : ℕ) :
    ∃ w a₂, start? a m limit = some w ∧ start? a₁ m limit = some (w.rename f a₂) ∧
      w.atlas.Mirrors f T a₂ := by
  have hp' : a₁.grid.get? .origin = some (f k) := (h.grid.get?_iff .origin k hk).mpr hp
  by_cases hwhite : k = .white
  · subst hwhite
    rw [f.white] at hp'
    have hsame : (Block.single .white .origin).rename f = .single .white .origin :=
      Block.rename_of_white rfl f
    refine ⟨begin a m limit (.single .white .origin), a₁, ?_, ?_, h⟩
    · simp only [start?, hp, Option.map_some, begin]
    · simp only [start?, hp', Option.map_some, begin, rename, hsame]
  · obtain ⟨b, hb, hb', hmirrors⟩ := h.blockAt hk hp
    have hcolor : (b.rename f).color = .white ↔ b.color = .white := f.eq_white_iff
    have hstart := start?_of_ne_white hp hwhite (Prod.ext rfl hb) m limit
    have hstart' := start?_of_ne_white hp' (mt f.eq_white_iff.mp hwhite) (Prod.ext rfl hb') m limit
    refine ⟨_, _, hstart, hstart'.trans ?_, hmirrors⟩
    simp only [begin, rename, hcolor, Block.exit_rename]

end Walk

namespace Grid.Mirrors

variable {f : Renaming} {T : Set Color} {g g' : Grid} {k : Color}

/-- **Walks over pictures that mirror each other are alike**, call for call: only the colours of the
blocks and what the atlases keep are different. -/
theorem walks_alike (h : g.Mirrors f T g') (hk : k ∈ T) (hp : g.get? .origin = some k)
    (m : Machine) (limit : ℕ) :
    ∃ w w', Walk.start? (.ofGrid g) m limit = some w ∧
      Walk.start? (.ofGrid g') m limit = some w' ∧
        ∀ n, w'.after n = (w.after n).rename f (w'.after n).atlas ∧
          (w'.after n).step.2 = (w.after n).step.2.rename f := by
  obtain ⟨w, a, hstart, hstart', hmirrors⟩ :=
    Walk.start?_rename (Atlas.mirrors_ofGrid h) hk hp m limit
  refine ⟨w, w.rename f a, hstart, hstart', fun n => ?_⟩
  obtain ⟨a₁, hmirrors', hafter⟩ := Walk.after_rename hmirrors n
  obtain ⟨a₂, -, hstep⟩ := Walk.step_rename hmirrors'
  rw [hafter, hstep]
  exact ⟨rfl, rfl⟩

/-- Programs of pictures that mirror each other leave the same behind. -/
theorem interpret_eq (h : g.Mirrors f T g') (hk : k ∈ T) (hp : g.get? .origin = some k)
    (input : Array UInt8) (limit : ℕ) : g'.interpret input limit = g.interpret input limit := by
  obtain ⟨w, a, hstart, hstart', hmirrors⟩ :=
    Walk.start?_rename (Atlas.mirrors_ofGrid h) hk hp (.start input) limit
  obtain ⟨a₁, hrun⟩ := Walk.runFor_rename hmirrors (w.limit - w.steps) #[]
  have hrun' : (w.rename f a).run = (w.run.1.rename f a₁, w.run.2) := hrun
  simp only [interpret, hstart, hstart', hrun']
  rfl

end Grid.Mirrors

end Piet
