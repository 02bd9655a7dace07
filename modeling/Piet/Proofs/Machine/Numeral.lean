import Mathlib.Data.Int.Notation
import Mathlib.Data.List.TakeWhile
import Mathlib.Tactic.Common
import Piet.Machine.Basic

/-!
# What counts as a numeral

`Numeral.Leads` is the grammar of the numerals that are read: blanks, a sign or none, and digits, up
to the first byte that is none.  A numeral is read exactly where the bytes are led by one whose
number is a word (`Numeral.read?_eq_some_iff`), and the number and the length that are read are its
own.
-/

namespace Piet

namespace Numeral

variable {bytes blanks sign ds rest l r : List UInt8} {p : UInt8 → Bool} {a : Int64} {n : ℕ}

/-- The number that a sign and digits stand for. -/
def signed (sign ds : List UInt8) : ℤ :=
  if sign = [45] then -(value ds : ℤ) else value ds

/-- Some bytes are led by a numeral: they are blanks, a sign or none, at least one digit, and a rest
that does not begin with another digit.  Since neither signs nor digits are blanks, there are no
more blanks either. -/
structure Leads (bytes blanks sign ds rest : List UInt8) : Prop where
  split : bytes = blanks ++ (sign ++ (ds ++ rest))
  blank : ∀ b ∈ blanks, isBlank b
  sign : sign = [] ∨ sign = [43] ∨ sign = [45]
  nonempty : ds ≠ []
  digit : ∀ d ∈ ds, isDigit d
  ends : ∀ d ∈ rest.head?, ¬ isDigit d

/-! ### Runs of bytes -/

/-- A run that nothing continues is taken as a whole and nothing else with it. -/
theorem run_append (hl : ∀ b ∈ l, p b) (hr : ∀ b ∈ r.head?, ¬ p b) :
    (l ++ r).takeWhile p = l ∧ (l ++ r).dropWhile p = r := by
  rw [List.takeWhile_append_of_pos hl, List.dropWhile_append_of_pos hl]
  cases r with
  | nil => exact ⟨List.append_nil l, rfl⟩
  | cons b r =>
    have hb : ¬ p b := hr b rfl
    rw [List.takeWhile_cons_of_neg hb, List.dropWhile_cons_of_neg hb, List.append_nil]
    exact ⟨rfl, rfl⟩

/-- What follows a run does not continue it. -/
theorem not_of_mem_head?_dropWhile {b : UInt8} (hb : b ∈ (l.dropWhile p).head?) : ¬ p b := by
  have h := List.head?_dropWhile_not p l
  rw [Option.mem_def.mp hb] at h
  exact Bool.eq_false_iff.mp h

/-! ### Signs -/

theorem not_isBlank_of_isDigit {b : UInt8} (h : isDigit b) : ¬ isBlank b := by
  intro hblank
  simp only [isBlank, Bool.or_eq_true, beq_iff_eq] at hblank
  rcases hblank with (((rfl | rfl) | rfl) | rfl) | rfl <;> exact absurd h (by decide)

theorem exists_splitSign (l : List UInt8) :
    ∃ sign rest, l = sign ++ rest ∧ (sign = [] ∨ sign = [43] ∨ sign = [45]) ∧
      splitSign l = (decide (sign = [45]), sign.length, rest) := by
  unfold splitSign
  split
  · next rest => exact ⟨[43], rest, rfl, .inr (.inl rfl), rfl⟩
  · next rest => exact ⟨[45], rest, rfl, .inr (.inr rfl), rfl⟩
  · exact ⟨[], l, rfl, .inl rfl, rfl⟩

/-- In front of digits a sign is split off if there is one. -/
theorem splitSign_append (hsign : sign = [] ∨ sign = [43] ∨ sign = [45]) (hne : ds ≠ [])
    (hdigit : ∀ d ∈ ds, isDigit d) (l : List UInt8) :
    splitSign (sign ++ (ds ++ l)) = (decide (sign = [45]), sign.length, ds ++ l) := by
  rcases hsign with rfl | rfl | rfl
  · obtain ⟨d, ds, rfl⟩ := List.exists_cons_of_ne_nil hne
    have hd : isDigit d := hdigit d List.mem_cons_self
    rw [List.nil_append, List.cons_append, splitSign]
    · rfl
    · rintro rest ⟨⟩
      exact absurd hd (by decide)
    · rintro rest ⟨⟩
      exact absurd hd (by decide)
  · rfl
  · rfl

/-! ### Reading -/

namespace Leads

/-- What follows the blanks is not another one. -/
theorem not_isBlank (h : Leads bytes blanks sign ds rest) {b : UInt8}
    (hb : b ∈ (sign ++ (ds ++ rest)).head?) : ¬ isBlank b := by
  obtain ⟨d, ds', rfl⟩ := List.exists_cons_of_ne_nil h.nonempty
  rcases h.sign with rfl | rfl | rfl
  · obtain rfl : d = b := Option.some.inj hb
    exact not_isBlank_of_isDigit (h.digit d List.mem_cons_self)
  · obtain rfl : 43 = b := Option.some.inj hb
    decide
  · obtain rfl : 45 = b := Option.some.inj hb
    decide

/-- A numeral in front is read if its number is a word. -/
theorem read? (h : Leads bytes blanks sign ds rest) :
    read? bytes =
      if Int64.minValue.toInt ≤ signed sign ds ∧ signed sign ds ≤ Int64.maxValue.toInt then
        some (Int64.ofInt (signed sign ds), blanks.length + sign.length + ds.length)
      else
        none := by
  obtain ⟨htake, hdrop⟩ := run_append h.blank fun b hb => h.not_isBlank hb
  obtain ⟨hdigits, -⟩ := run_append h.digit h.ends
  rw [← h.split] at htake hdrop
  have hnumber : (if decide (sign = [45]) then -(value ds : ℤ) else value ds) = signed sign ds := by
    rw [signed]
    simp only [decide_eq_true_eq]
  simp only [Numeral.read?, htake, hdrop, splitSign_append h.sign h.nonempty h.digit, hdigits,
    hnumber, ne_eq, h.nonempty, not_false_eq_true, true_and]

end Leads

/-- Where a numeral is read, the bytes are led by one. -/
theorem exists_leads_of_read? (h : (read? bytes).isSome) :
    ∃ blanks sign ds rest, Leads bytes blanks sign ds rest := by
  obtain ⟨sign, rest, hrest, hsign, hsplit⟩ := exists_splitSign (bytes.dropWhile isBlank)
  have hne : rest.takeWhile isDigit ≠ [] := by
    intro hnil
    simp [read?, hsplit, hnil] at h
  refine ⟨bytes.takeWhile isBlank, sign, rest.takeWhile isDigit, rest.dropWhile isDigit, ?_,
    fun b hb => List.mem_takeWhile_imp hb, hsign, hne, fun d hd => List.mem_takeWhile_imp hd,
    fun d hd => not_of_mem_head?_dropWhile hd⟩
  rw [List.takeWhile_append_dropWhile, ← hrest, List.takeWhile_append_dropWhile]

/-- **What is read.**  The number and the length are those of the numeral in front, which there has
to be, and whose number has to be a word. -/
theorem read?_eq_some_iff :
    read? bytes = some (a, n) ↔ ∃ blanks sign ds rest, Leads bytes blanks sign ds rest ∧
      a.toInt = signed sign ds ∧ n = blanks.length + sign.length + ds.length := by
  constructor
  · intro h
    obtain ⟨blanks, sign, ds, rest, hleads⟩ := exists_leads_of_read? (Option.isSome_of_mem h)
    rw [hleads.read?] at h
    split at h
    · next hrange =>
      obtain ⟨hmin, hmax⟩ := hrange
      obtain ⟨rfl, rfl⟩ := Prod.mk.inj (Option.some.inj h)
      refine ⟨blanks, sign, ds, rest, hleads, ?_, rfl⟩
      exact Int64.toInt_ofInt_of_le hmin (Int.lt_add_one_iff.mpr hmax)
    · cases h
  · rintro ⟨blanks, sign, ds, rest, hleads, hnumber, rfl⟩
    have hmin : Int64.minValue.toInt ≤ a.toInt := a.le_toInt
    have hmax : a.toInt ≤ Int64.maxValue.toInt := Int.lt_add_one_iff.mp a.toInt_lt
    rw [hleads.read?, ← hnumber, if_pos ⟨hmin, hmax⟩, Int64.ofInt_toInt]

end Numeral

end Piet
