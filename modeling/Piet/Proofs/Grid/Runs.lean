import Mathlib.Data.List.Basic
import Mathlib.Order.Bounds.Image
import Mathlib.Order.Nat
import Piet.Grid.Runs

/-!
# Runs of equal pixels

The smallest side of a picture is the length of its shortest run: `RunScan.Knows` says what a scan
of a line has found out about the maximal runs of what it has read, one more element keeps that
(`RunScan.Knows.next`), and so the scan of a whole line ends with the shortest of them
(`exists_isLeast_shortestRun`), the last run included.  `Grid.isLeast_smallestSide` puts the lines
of a picture together, and `Grid.smallestSide_exact` spells out what that says of its rows, its
columns and its sides.

If every element of a line is repeated `n` times, the maximal runs become `n` times as long, and
there are no others (`maximalRun_stretched_iff`).
-/

namespace Piet

variable {α : Type} {l l' : List α} {i k i' k' n : ℕ} {a : α}

/-! ### Maximal runs -/

/-- A run of `k` equal elements from place `i` on, which can be extended on neither side. -/
structure MaximalRun (l : List α) (i k : ℕ) : Prop where
  pos : 0 < k
  inside : i + k ≤ l.length
  equal : ∀ j < k, l[i + j]? = l[i]?
  before : ∀ j, j + 1 = i → l[j]? ≠ l[i]?
  behind : l[i + k]? ≠ l[i]?

namespace MaximalRun

/-- The last element is equal to the first. -/
theorem equal_last (h : MaximalRun l i k) {j : ℕ} (hj : j + 1 = i + k) : l[j]? = l[i]? := by
  have hpos := h.pos
  obtain ⟨d, rfl⟩ := Nat.exists_eq_add_of_le (show i ≤ j by omega)
  exact h.equal d (by omega)

/-- A run stays what it is if only what lies behind it changes, and not into another element of the
run. -/
theorem congr (h : MaximalRun l i k) (hget : ∀ j < i + k, l'[j]? = l[j]?)
    (hbehind : l'[i + k]? ≠ l[i]?) : MaximalRun l' i k := by
  obtain ⟨hpos, hinside, hequal, hbefore, -⟩ := h
  have hfirst : l'[i]? = l[i]? := hget i (by omega)
  refine ⟨hpos, ?_, fun j hj => ?_, fun j hj => ?_, ?_⟩
  · obtain ⟨k, rfl⟩ := Nat.exists_eq_add_of_lt hpos
    have hlast := hget (i + k) (by omega)
    rw [List.getElem?_eq_getElem (by omega : i + k < l.length)] at hlast
    obtain ⟨hlt, -⟩ := List.getElem?_eq_some_iff.mp hlast
    omega
  · rw [hget _ (by omega), hfirst, hequal j hj]
  · rw [hget j (by omega), hfirst]
    exact hbefore j hj
  · rwa [hfirst]

/-- Of two maximal runs that end at the same place, neither is longer. -/
theorem le_of_end (h : MaximalRun l i k) (h' : MaximalRun l i' k') (hend : i + k = i' + k') :
    k ≤ k' := by
  by_contra hlt
  -- The longer one would contain the element before the shorter one.
  have hpos' := h'.pos
  obtain ⟨d, rfl⟩ := Nat.exists_eq_add_of_lt (show i < i' by omega)
  have hbefore : l[i + d]? = l[i]? := h.equal d (by omega)
  have hfirst : l[i + (d + 1)]? = l[i]? := h.equal (d + 1) (by omega)
  exact h'.before (i + d) rfl (hbefore.trans hfirst.symm)

theorem eq_of_end (h : MaximalRun l i k) (h' : MaximalRun l i' k') (hend : i + k = i' + k') :
    k = k' :=
  Nat.le_antisymm (h.le_of_end h' hend) (h'.le_of_end h hend.symm)

/-! ### One more element -/

/-- The last run goes on with an equal element. -/
theorem snoc (h : MaximalRun l i k) (hend : i + k = l.length) (ha : l[i]? = some a) :
    MaximalRun (l ++ [a]) i (k + 1) := by
  have hpos := h.pos
  have hold : ∀ j < l.length, (l ++ [a])[j]? = l[j]? := fun j hj => List.getElem?_append_left hj
  have hfirst : (l ++ [a])[i]? = some a := (hold i (by omega)).trans ha
  refine ⟨Nat.succ_pos k, ?_, fun j hj => ?_, fun j hj => ?_, ?_⟩
  · rw [List.length_append, List.length_singleton]
    omega
  · rcases Nat.lt_succ_iff_lt_or_eq.mp hj with hlt | rfl
    · rw [hfirst, hold _ (by omega), h.equal j hlt, ha]
    · rw [hfirst, hend, List.getElem?_concat_length]
  · rw [hfirst, hold j (by omega), ← ha]
    exact h.before j hj
  · rw [hfirst, List.getElem?_eq_none (by rw [List.length_append, List.length_singleton]; omega)]
    exact (Option.some_ne_none _).symm

/-- A different element begins a run of its own. -/
theorem single (h : MaximalRun l i k) (hend : i + k = l.length) (ha : l[i]? ≠ some a) :
    MaximalRun (l ++ [a]) l.length 1 := by
  have hfirst : (l ++ [a])[l.length]? = some a := List.getElem?_concat_length
  refine ⟨Nat.one_pos, ?_, fun j hj => ?_, fun j hj => ?_, ?_⟩
  · rw [List.length_append, List.length_singleton]
  · obtain rfl := Nat.lt_one_iff.mp hj
    rfl
  · rw [hfirst, List.getElem?_append_left (by omega), h.equal_last (hj.trans hend.symm)]
    exact ha
  · rw [hfirst, List.getElem?_eq_none (by rw [List.length_append, List.length_singleton])]
    exact (Option.some_ne_none _).symm

/-- A run that had ended before is still one. -/
theorem snoc_of_lt (h : MaximalRun l i k) (hend : i + k < l.length) (a : α) :
    MaximalRun (l ++ [a]) i k := by
  refine h.congr (fun j hj => List.getElem?_append_left (by omega)) ?_
  rw [List.getElem?_append_left hend]
  exact h.behind

/-- The last run ends where a different element follows. -/
theorem snoc_of_ne (h : MaximalRun l i k) (hend : i + k = l.length) (ha : l[i]? ≠ some a) :
    MaximalRun (l ++ [a]) i k := by
  refine h.congr (fun j hj => List.getElem?_append_left (by omega)) ?_
  rw [hend, List.getElem?_concat_length]
  exact ha.symm

/-- A run that has ended before the last element was one without it. -/
theorem of_snoc (h : MaximalRun (l ++ [a]) i k) (hend : i + k ≤ l.length) : MaximalRun l i k := by
  have hpos := h.pos
  have hold : ∀ j < l.length, (l ++ [a])[j]? = l[j]? := fun j hj => List.getElem?_append_left hj
  refine h.congr (fun j hj => (hold j (by omega)).symm) ?_
  rcases Nat.lt_or_eq_of_le hend with hlt | heq
  · rw [← hold _ hlt]
    exact h.behind
  · rw [heq, List.getElem?_eq_none le_rfl, hold i (by omega),
      List.getElem?_eq_getElem (by omega : i < l.length)]
    exact (Option.some_ne_none _).symm

end MaximalRun

/-! ### Scanning a line -/

namespace RunScan

variable {s : RunScan α}

theorem close_of_open (hopen : s.openRun = some (a, k)) : s.close = min s.shortest k := by
  rw [close, hopen]

/-- What a scan knows of what it has read: the last run, and the length of the shortest among those
that have ended. -/
structure Knows (s : RunScan α) (l : List α) : Prop where
  openRun : ∃ a i k, s.openRun = some (a, k) ∧ MaximalRun l i k ∧ i + k = l.length ∧ l[i]? = some a
  shortest_le : ∀ i k, MaximalRun l i k → i + k < l.length → s.shortest ≤ k
  shortest : s.shortest = noRun ∨ ∃ i, MaximalRun l i s.shortest ∧ i + s.shortest < l.length
  le_noRun : s.shortest ≤ noRun

theorem knows_single (a : α) : Knows ⟨some (a, 1), noRun⟩ [a] where
  openRun := by
    refine ⟨a, 0, 1, rfl, ⟨Nat.one_pos, Nat.le_refl 1, fun j hj => ?_, fun j hj => ?_, ?_⟩, rfl, rfl⟩
    · obtain rfl := Nat.lt_one_iff.mp hj
      rfl
    · exact absurd hj (Nat.succ_ne_zero j)
    · exact (Option.some_ne_none a).symm
  shortest_le i k h hend := by
    have hpos := h.pos
    rw [List.length_singleton] at hend
    omega
  shortest := .inl rfl
  le_noRun := le_rfl

/-- The last run of what a scan has read. -/
theorem Knows.exists_last (h : s.Knows l) (hopen : s.openRun = some (a, k)) :
    ∃ i, MaximalRun l i k ∧ i + k = l.length ∧ l[i]? = some a := by
  obtain ⟨a', i, k', hopen', hrun, hend, ha⟩ := h.openRun
  cases hopen.symm.trans hopen'
  exact ⟨i, hrun, hend, ha⟩

/-- No run is shorter than the shortest, once the last one is counted as well. -/
theorem Knows.close_le (h : s.Knows l) (hrun : MaximalRun l i k) : s.close ≤ k := by
  obtain ⟨a, i', k', hopen, hlast, hend, -⟩ := h.openRun
  rw [close_of_open hopen]
  rcases Nat.lt_or_eq_of_le hrun.inside with hlt | heq
  · exact (Nat.min_le_left _ _).trans (h.shortest_le i k hrun hlt)
  · exact (Nat.min_le_right _ _).trans (hlast.eq_of_end hrun (hend.trans heq.symm)).le

theorem Knows.close_le_noRun (h : s.Knows l) : s.close ≤ noRun := by
  obtain ⟨a, i, k, hopen, -⟩ := h.openRun
  rw [close_of_open hopen]
  exact (Nat.min_le_left _ _).trans h.le_noRun

/-- An equal element extends the last run, and no run ends. -/
theorem Knows.extend (h : s.Knows l) (hopen : s.openRun = some (a, k)) :
    Knows ⟨some (a, k + 1), s.shortest⟩ (l ++ [a]) := by
  obtain ⟨i, hrun, hend, ha⟩ := h.exists_last hopen
  have hpos := hrun.pos
  have hlen : (l ++ [a]).length = l.length + 1 := List.length_append
  have hfirst : (l ++ [a])[i]? = some a := (List.getElem?_append_left (by omega)).trans ha
  refine ⟨⟨a, i, k + 1, rfl, hrun.snoc hend ha, by omega, hfirst⟩, fun i' k' hrun' hend' => ?_, ?_,
    h.le_noRun⟩
  · have hold := hrun'.of_snoc (by omega)
    rcases Nat.lt_or_eq_of_le (show i' + k' ≤ l.length by omega) with hlt | heq
    · exact h.shortest_le i' k' hold hlt
    · -- It would be the last run, which has not ended.
      have hsame := hold.eq_of_end hrun (heq.trans hend.symm)
      obtain rfl : i' = i := by omega
      have hbehind : (l ++ [a])[i' + k']? = some a := by
        rw [heq, List.getElem?_concat_length]
      exact absurd (hbehind.trans hfirst.symm) hrun'.behind
  · rcases h.shortest with hnone | ⟨i', hrun', hend'⟩
    · exact .inl hnone
    · exact .inr ⟨i', hrun'.snoc_of_lt hend' a, hlen ▸ Nat.lt_succ_of_lt hend'⟩

/-- A different element ends the last run and begins another one. -/
theorem Knows.turn {b : α} (h : s.Knows l) (hopen : s.openRun = some (a, k)) (hab : a ≠ b) :
    Knows ⟨some (b, 1), s.close⟩ (l ++ [b]) := by
  obtain ⟨i, hrun, hend, ha⟩ := h.exists_last hopen
  have hlen : (l ++ [b]).length = l.length + 1 := List.length_append
  have hne : l[i]? ≠ some b := by
    rw [ha]
    exact fun h => hab (Option.some.inj h)
  refine ⟨⟨b, l.length, 1, rfl, hrun.single hend hne, hlen.symm, List.getElem?_concat_length⟩,
    fun i' k' hrun' hend' => h.close_le (hrun'.of_snoc (by omega)), ?_, h.close_le_noRun⟩
  dsimp only
  rw [close_of_open hopen]
  rcases Nat.le_total k s.shortest with hkle | hlek
  · rw [Nat.min_eq_right hkle]
    exact .inr ⟨i, hrun.snoc_of_ne hend hne, by omega⟩
  · rw [Nat.min_eq_left hlek]
    rcases h.shortest with hnone | ⟨i', hrun', hend'⟩
    · exact .inl hnone
    · exact .inr ⟨i', hrun'.snoc_of_lt hend' b, by omega⟩

/-- **One more element** extends the last run or ends it. -/
theorem Knows.next [DecidableEq α] (h : s.Knows l) (b : α) : (s.next b).Knows (l ++ [b]) := by
  obtain ⟨a, i, k, hopen, -⟩ := h.openRun
  rw [RunScan.next, hopen]
  dsimp only
  split
  · next hab =>
    subst hab
    exact h.extend hopen
  · next hab => exact h.turn hopen hab

/-- The scan of the rest of a line. -/
theorem Knows.foldl [DecidableEq α] (h : s.Knows l) (rest : List α) :
    (rest.foldl RunScan.next s).Knows (l ++ rest) := by
  induction rest generalizing l s with
  | nil => rwa [List.append_nil]
  | cons b rest ih =>
    have hrest := ih (h.next b)
    rwa [List.append_assoc, List.singleton_append] at hrest

/-- Once the last run is counted as well, the shortest of all is known. -/
theorem Knows.isLeast_close (h : s.Knows l) :
    IsLeast (insert noRun {k | ∃ i, MaximalRun l i k}) s.close := by
  obtain ⟨a, i, k, hopen, hrun, -⟩ := h.openRun
  constructor
  · rw [close_of_open hopen]
    rcases Nat.le_total k s.shortest with hkle | hlek
    · rw [Nat.min_eq_right hkle]
      exact .inr ⟨i, hrun⟩
    · rw [Nat.min_eq_left hlek]
      exact h.shortest.imp_right fun ⟨i', hrun', _⟩ => ⟨i', hrun'⟩
  · rintro k' (rfl | ⟨i', hrun'⟩)
    · exact h.close_le_noRun
    · exact h.close_le hrun'

end RunScan

/-- **A scan finds the shortest maximal run**, as far as numbers go. -/
theorem exists_isLeast_shortestRun [DecidableEq α] (hne : l ≠ []) :
    ∃ m, IsLeast {k | ∃ i, MaximalRun l i k} m ∧ shortestRun l = min RunScan.noRun m := by
  classical
  obtain ⟨a, rest, rfl⟩ := List.exists_cons_of_ne_nil hne
  have hknows : (rest.foldl RunScan.next _).Knows (a :: rest) := (RunScan.knows_single a).foldl rest
  obtain ⟨-, i, k, -, hlast, -⟩ := hknows.openRun
  have hleast := Nat.isLeast_find (p := fun k => ∃ i, MaximalRun (a :: rest) i k) ⟨k, i, hlast⟩
  exact ⟨_, hleast, hknows.isLeast_close.unique (hleast.insert RunScan.noRun)⟩

/-! ### Repeated elements -/

section Stretched

variable (hn : 0 < n) (hl : ∀ j, l'[j]? = l[j / n]?)

include hl

/-- Elements that follow each other and differ belong to different blocks. -/
theorem dvd_of_stretched_ne {j : ℕ} (hne : l'[j]? ≠ l'[j + 1]?) : n ∣ j + 1 := by
  by_contra hdvd
  rw [hl, hl, Nat.succ_div_of_not_dvd hdvd] at hne
  exact hne rfl

include hn

theorem length_stretched : l'.length = n * l.length := by
  refine eq_of_forall_lt_iff fun j => ?_
  rw [← not_le, ← List.getElem?_eq_none_iff, hl, List.getElem?_eq_none_iff, not_le,
    Nat.div_lt_iff_lt_mul hn, Nat.mul_comm]

theorem getElem?_stretched (j : ℕ) : l'[n * j]? = l[j]? := by
  rw [hl, Nat.mul_div_cancel_left j hn]

theorem MaximalRun.stretched (h : MaximalRun l i k) : MaximalRun l' (n * i) (n * k) := by
  obtain ⟨hpos, hinside, hequal, hbefore, hbehind⟩ := h
  have hget := getElem?_stretched hn hl
  refine ⟨Nat.mul_pos hn hpos, ?_, fun j hj => ?_, fun j hj => ?_, ?_⟩
  · rw [length_stretched hn hl, ← Nat.mul_add]
    exact Nat.mul_le_mul_left n hinside
  · rw [hl, Nat.mul_add_div hn, hget]
    exact hequal (j / n) (Nat.div_lt_of_lt_mul hj)
  · obtain ⟨i, rfl⟩ : ∃ i₀, i = i₀ + 1 :=
      Nat.exists_eq_succ_of_ne_zero fun h0 => absurd hj (by rw [h0]; exact Nat.succ_ne_zero j)
    have hdiv : j / n = i := by
      rw [Nat.mul_succ] at hj
      rw [show j = n * i + (n - 1) by omega, Nat.mul_add_div hn, Nat.div_eq_of_lt (by omega),
        Nat.add_zero]
    rw [hl, hdiv, hget]
    exact hbefore i rfl
  · rw [← Nat.mul_add, hget, hget]
    exact hbehind

/-- The ends of a run lie between blocks. -/
theorem MaximalRun.exists_of_stretched (h : MaximalRun l' i' k') :
    ∃ i k, i' = n * i ∧ k' = n * k ∧ MaximalRun l i k := by
  have hget := getElem?_stretched hn hl
  obtain ⟨i, rfl⟩ : n ∣ i' := by
    rcases i' with _ | j
    · exact Nat.dvd_zero n
    · exact dvd_of_stretched_ne hl (h.before j rfl)
  obtain ⟨k, rfl⟩ : n ∣ k' := by
    obtain ⟨j, hj⟩ := Nat.exists_eq_succ_of_ne_zero (show n * i + k' ≠ 0 by have := h.pos; omega)
    refine (Nat.dvd_add_right (Nat.dvd_mul_right n i)).mp ?_
    rw [hj]
    refine dvd_of_stretched_ne hl ?_
    rw [h.equal_last hj.symm, ← Nat.succ_eq_add_one, ← hj]
    exact h.behind.symm
  obtain ⟨hpos, hinside, hequal, hbefore, hbehind⟩ := h
  refine ⟨i, k, rfl, rfl, Nat.pos_of_mul_pos_left hpos, ?_, fun j hj => ?_, fun j hj => ?_, ?_⟩
  · rw [length_stretched hn hl, ← Nat.mul_add] at hinside
    exact Nat.le_of_mul_le_mul_left hinside hn
  · rw [← hget, ← hget i, Nat.mul_add]
    exact hequal (n * j) (Nat.mul_lt_mul_of_pos_left hj hn)
  · have hlast : l'[n * i - 1]? = l[j]? := by
      rw [hl, ← hj, show n * (j + 1) - 1 = n * j + (n - 1) by rw [Nat.mul_succ]; omega,
        Nat.mul_add_div hn, Nat.div_eq_of_lt (by omega), Nat.add_zero]
    rw [← hlast, ← hget i]
    refine hbefore _ ?_
    rw [← hj, Nat.mul_succ]
    omega
  · rw [← hget, ← hget i, Nat.mul_add]
    exact hbehind

/-- **Repeating every element `n` times makes the maximal runs `n` times as long.** -/
theorem maximalRun_stretched_iff :
    MaximalRun l' i' k' ↔ ∃ i k, i' = n * i ∧ k' = n * k ∧ MaximalRun l i k := by
  constructor
  · exact MaximalRun.exists_of_stretched hn hl
  · rintro ⟨i, k, rfl, rfl, h⟩
    exact h.stretched hn hl

end Stretched

/-! ### Lines of a picture -/

section Line

variable {f : ℕ → Option Color}

/-- No run is longer than its line. -/
theorem MaximalRun.le_line (h : MaximalRun ((List.range n).filterMap f) i k) : k ≤ n :=
  calc k ≤ i + k := Nat.le_add_left k i
    _ ≤ ((List.range n).filterMap f).length := h.inside
    _ ≤ (List.range n).length := List.length_filterMap_le _ _
    _ = n := List.length_range

variable (hf : ∀ i, (f i).isSome ↔ i < n)

include hf

/-- A line that has a pixel at each of its places is read pixel by pixel. -/
theorem getElem?_line (i : ℕ) : ((List.range n).filterMap f)[i]? = f i := by
  have hline : (List.range n).filterMap f = (List.range n).map fun i => (f i).getD .black := by
    refine List.filterMap_eq_map_iff_forall_eq_some.mpr fun j hj => ?_
    obtain ⟨k, hk⟩ := Option.isSome_iff_exists.mp ((hf j).mpr (List.mem_range.mp hj))
    rw [hk, Option.getD_some]
  rw [hline, List.getElem?_map]
  rcases Nat.lt_or_ge i n with hlt | hge
  · obtain ⟨k, hk⟩ := Option.isSome_iff_exists.mp ((hf i).mpr hlt)
    rw [List.getElem?_range hlt, Option.map_some, hk, Option.getD_some]
  · rw [List.getElem?_eq_none (by rwa [List.length_range]), Option.map_none]
    exact (Option.not_isSome_iff_eq_none.mp (mt (hf i).mp (Nat.not_lt.mpr hge))).symm

/-- No line is so long that its runs could not be counted. -/
theorem isLeast_line (hpos : 0 < n) (hlt : n < Pos.limit) :
    IsLeast {k | ∃ i, MaximalRun ((List.range n).filterMap f) i k}
      (shortestRun ((List.range n).filterMap f)) := by
  have hne : (List.range n).filterMap f ≠ [] := by
    intro hnil
    have hfirst := getElem?_line hf 0
    rw [hnil, List.getElem?_nil] at hfirst
    have hsome := (hf 0).mpr hpos
    rw [← hfirst] at hsome
    cases hsome
  obtain ⟨m, hleast, hm⟩ := exists_isLeast_shortestRun hne
  obtain ⟨i, hrun⟩ := hleast.1
  have hle : m ≤ RunScan.noRun := (hrun.le_line).trans (Nat.le_sub_one_of_lt hlt)
  rwa [hm, Nat.min_eq_right hle]

end Line

namespace Grid

variable {g : Grid} {x y : ℕ}

theorem isSome_get?_row (hy : y < g.height) (x : ℕ) : (g.get? ⟨y, x⟩).isSome ↔ x < g.width :=
  isSome_get?.trans (and_iff_right hy)

theorem isSome_get?_column (hx : x < g.width) (y : ℕ) : (g.get? ⟨y, x⟩).isSome ↔ y < g.height :=
  isSome_get?.trans (and_iff_left hx)

theorem getElem?_row (hy : y < g.height) (x : ℕ) : (g.row y)[x]? = g.get? ⟨y, x⟩ :=
  getElem?_line (isSome_get?_row hy) x

theorem getElem?_column (hx : x < g.width) (y : ℕ) : (g.column x)[y]? = g.get? ⟨y, x⟩ :=
  getElem?_line (isSome_get?_column hx) y

/-- The lengths of the runs of equal pixels along the rows and the columns. -/
def runLengths (g : Grid) : Set ℕ :=
  {k | (∃ y < g.height, ∃ i, MaximalRun (g.row y) i k) ∨
    ∃ x < g.width, ∃ i, MaximalRun (g.column x) i k}

theorem pos_of_mem_runLengths {k : ℕ} (h : k ∈ g.runLengths) : 0 < k := by
  rcases h with ⟨_, -, _, hrun⟩ | ⟨_, -, _, hrun⟩
  · exact hrun.pos
  · exact hrun.pos

/-- A picture with a pixel has a row and a column. -/
theorem isEmpty_eq_false_iff : g.isEmpty = false ↔ 0 < g.width ∧ 0 < g.height := by
  rw [isEmpty, Array.isEmpty, decide_eq_false_iff_not, g.size_cells, Nat.mul_eq_zero, not_or,
    Nat.pos_iff_ne_zero, Nat.pos_iff_ne_zero]

/-- **The smallest side is the length of the shortest run.** -/
theorem isLeast_smallestSide (hg : g.isEmpty = false) : IsLeast g.runLengths g.smallestSide := by
  obtain ⟨hwidth, hheight⟩ := isEmpty_eq_false_iff.mp hg
  have hrow := fun y (hy : y < g.height) => isLeast_line (isSome_get?_row hy) hwidth g.width_lt
  have hcolumn := fun x (hx : x < g.width) =>
    isLeast_line (isSome_get?_column hx) hheight g.height_lt
  rcases hm : ((List.range g.height).map (fun y => shortestRun (g.row y)) ++
    (List.range g.width).map fun x => shortestRun (g.column x)).min? with _ | m
  · have hnil := (List.append_eq_nil_iff.mp (List.min?_eq_none_iff.mp hm)).1
    rw [List.map_eq_nil_iff, List.range_eq_nil] at hnil
    omega
  obtain ⟨hmem, hle⟩ := List.min?_eq_some_iff.mp hm
  simp only [List.mem_append, List.mem_map, List.mem_range] at hmem hle
  have hm_mem : m ∈ g.runLengths := by
    rcases hmem with ⟨y, hy, rfl⟩ | ⟨x, hx, rfl⟩
    · exact .inl ⟨y, hy, (hrow y hy).1⟩
    · exact .inr ⟨x, hx, (hcolumn x hx).1⟩
  have hside : g.smallestSide = m := by
    simp only [smallestSide, hm, Option.getD_some]
    exact Nat.max_eq_left (pos_of_mem_runLengths hm_mem)
  rw [hside]
  refine ⟨hm_mem, ?_⟩
  rintro k (⟨y, hy, hrun⟩ | ⟨x, hx, hrun⟩)
  · exact (hle _ (.inl ⟨y, hy, rfl⟩)).trans ((hrow y hy).2 hrun)
  · exact (hle _ (.inr ⟨x, hx, rfl⟩)).trans ((hcolumn x hx).2 hrun)

/-- **The smallest side is the least length of a run.**  No run along a row or a column that can be
extended on neither side is shorter, and one of them is just as long; so neither side of the picture
is shorter.  What each line is scanned for is the least length of its maximal runs, as far as
numbers go, whatever the line consists of. -/
theorem smallestSide_exact (hg : g.isEmpty = false) :
    (∀ y < g.height, ∀ i k, MaximalRun (g.row y) i k → g.smallestSide ≤ k) ∧
      (∀ x < g.width, ∀ i k, MaximalRun (g.column x) i k → g.smallestSide ≤ k) ∧
      ((∃ y < g.height, ∃ i, MaximalRun (g.row y) i g.smallestSide) ∨
        ∃ x < g.width, ∃ i, MaximalRun (g.column x) i g.smallestSide) ∧
      (1 ≤ g.smallestSide ∧ g.smallestSide ≤ g.width ∧ g.smallestSide ≤ g.height) ∧
      ∀ (α : Type) [DecidableEq α] (l : List α), l ≠ [] →
        ∃ m, IsLeast {k | ∃ i, MaximalRun l i k} m ∧ shortestRun l = min RunScan.noRun m := by
  obtain ⟨hattained, hle⟩ := isLeast_smallestSide hg
  obtain ⟨hwidth, hheight⟩ := isEmpty_eq_false_iff.mp hg
  obtain ⟨i, hrow⟩ := (isLeast_line (isSome_get?_row hheight) hwidth g.width_lt).1
  obtain ⟨j, hcolumn⟩ := (isLeast_line (isSome_get?_column hwidth) hheight g.height_lt).1
  refine ⟨fun y hy i k hrun => hle (.inl ⟨y, hy, i, hrun⟩),
    fun x hx i k hrun => hle (.inr ⟨x, hx, i, hrun⟩), hattained,
    ⟨pos_of_mem_runLengths hattained, ?_, ?_⟩, fun α _ l hne => exists_isLeast_shortestRun hne⟩
  · exact (hle (.inl ⟨0, hheight, i, hrow⟩)).trans hrow.le_line
  · exact (hle (.inr ⟨0, hwidth, j, hcolumn⟩)).trans hcolumn.le_line

/-- Two squares beside each other, each two pixels wide. -/
def twoSquares : Grid :=
  (Grid.ofCells? 4 2 #[.black, .black, .white, .white, .black, .black, .white, .white]).get
    (by decide)

theorem smallestSide_exact_twoSquares : twoSquares.isEmpty = false ∧ twoSquares.smallestSide = 2 ∧
    (∀ i k, MaximalRun (twoSquares.row 1) i k → 2 ≤ k) ∧ [true, true, false] ≠ [] ∧
      ∃ m, IsLeast {k | ∃ i, MaximalRun [true, true, false] i k} m ∧
        shortestRun [true, true, false] = min RunScan.noRun m := by
  have hpixel : twoSquares.isEmpty = false := by decide
  have hside : twoSquares.smallestSide = 2 := by decide
  obtain ⟨hrows, -, -, -, hlines⟩ := smallestSide_exact hpixel
  refine ⟨hpixel, hside, ?_, List.cons_ne_nil _ _, hlines Bool _ (List.cons_ne_nil _ _)⟩
  rw [← hside]
  exact hrows 1 (by decide)

end Grid

end Piet
