import Mathlib.Data.Int.ModEq
import Mathlib.Data.Int.Notation
import Mathlib.Data.Rat.Floor
import Piet.Machine.Basic
import Piet.Proofs.Machine.Fault

/-!
# Division rounded downward

The remainder of words is that of integers (`Word.toInt_floorMod`).  Modulo 256 it keeps the byte that
a word stands for (`Machine.byteOf_floorMod`), also if the word is a negative difference of bytes
(`Machine.byteOf_sub`).

The quotient of words is that of integers rounded downward (`Word.toInt_floorDiv`), but for the
least word divided by minus one, whose quotient is no word.  Neither of the two corrections that
make a division toward zero one downward leaves the range of words: a quotient is corrected only if
there is a remainder, and then it is at most half as large as the dividend
(`Word.toInt_div_sub_one`), and a remainder only if its sign and that of the divisor differ
(`Word.toInt_mod_add`).

`Word.division_downward` puts this together, for the two instructions as well.
-/

namespace Piet

/-! ### The remainder -/

namespace Word

variable {b a : Int64}

theorem roundsUp_iff :
    RoundsUp b a ↔ ¬ a.toInt ∣ b.toInt ∧ (b.toInt < 0 ↔ ¬ a.toInt < 0) := by
  rw [RoundsUp, Int64.lt_iff_toInt_lt, Int64.lt_iff_toInt_lt, Int64.toInt_zero, Ne,
    ← Int64.toInt_inj, Int64.toInt_mod, Int64.toInt_zero, Int.dvd_iff_tmod_eq_zero]

/-- A remainder toward zero lies between zero and what was divided. -/
theorem tmod_mem (x y : ℤ) : 0 ≤ x ∧ 0 ≤ x.tmod y ∧ x.tmod y ≤ x ∨
    x < 0 ∧ x ≤ x.tmod y ∧ x.tmod y ≤ 0 := by
  have habs : (x.tmod y).natAbs ≤ x.natAbs := by
    rw [Int.natAbs_tmod]
    exact Nat.mod_le _ _
  rcases Int.lt_or_le x 0 with hx | hx
  · have hneg : 0 ≤ (-x).tmod y := Int.tmod_nonneg y (by omega)
    rw [Int.neg_tmod] at hneg
    exact .inr ⟨hx, by omega, by omega⟩
  · have hpos : 0 ≤ x.tmod y := Int.tmod_nonneg y hx
    exact .inl ⟨hx, hpos, by omega⟩

/-- The sign of the remainder tells as much as that of the dividend. -/
theorem roundsUp_iff_mod : RoundsUp b a ↔ b % a ≠ 0 ∧ (b % a < 0 ↔ ¬ a < 0) := by
  rw [RoundsUp, and_congr_right_iff]
  intro hmod
  have hne : b.toInt.tmod a.toInt ≠ 0 := by
    rwa [Ne, ← Int64.toInt_inj, Int64.toInt_mod, Int64.toInt_zero] at hmod
  have hsign : b < 0 ↔ b % a < 0 := by
    have hmem := tmod_mem b.toInt a.toInt
    rw [Int64.lt_iff_toInt_lt, Int64.lt_iff_toInt_lt, Int64.toInt_zero, Int64.toInt_mod]
    omega
  rw [hsign]

/-- Where the remainder is corrected, its sign and that of the divisor differ, so their sum is a
word. -/
theorem toInt_mod_add (h : RoundsUp b a) : (b % a + a).toInt = (b % a).toInt + a.toInt := by
  obtain ⟨-, hsign⟩ := roundsUp_iff_mod.mp h
  rw [Int64.lt_iff_toInt_lt, Int64.lt_iff_toInt_lt, Int64.toInt_zero] at hsign
  have hr := (b % a).le_toInt
  have hr' := (b % a).toInt_lt
  have ha := a.le_toInt
  have ha' := a.toInt_lt
  rw [Int64.toInt_add]
  exact Int.bmod_eq_of_le (by omega) (by omega)

/-- **The remainder is that of integers rounded downward.** -/
theorem toInt_floorMod (b a : Int64) : (floorMod b a).toInt = b.toInt.fmod a.toInt := by
  rw [floorMod, Int.fmod_eq_tmod]
  by_cases hup : RoundsUp b a
  · obtain ⟨hdvd, hsign⟩ := roundsUp_iff.mp hup
    rw [if_pos hup, toInt_mod_add hup, if_neg hdvd, Int64.toInt_mod]
    split <;> split <;> omega
  · rw [if_neg hup, Int64.toInt_mod]
    rw [roundsUp_iff, not_and] at hup
    by_cases hdvd : a.toInt ∣ b.toInt
    · rw [if_pos hdvd, Int.add_zero]
    · have hsign := hup hdvd
      rw [if_neg hdvd]
      split <;> split <;> omega

end Word

namespace Machine

theorem toInt_ofByte (b : UInt8) : (Int64.ofNat b.toNat).toInt = b.toNat := by
  have hlt : b.toNat < 2 ^ 8 := b.toNat_lt
  exact Int64.toInt_ofNat_of_lt (by omega)

/-- A byte stands for itself. -/
theorem byteOf_ofByte (b : UInt8) : byteOf (Int64.ofNat b.toNat) = b := by
  have hlt := b.toNat_lt
  have hmod : ((b.toNat : ℤ) % 256).toNat = b.toNat := by omega
  rw [byteOf, toInt_ofByte, hmod]
  exact UInt8.ofNat_toNat

/-- The difference of two bytes stands for their difference modulo 256. -/
theorem byteOf_sub (b c : UInt8) :
    byteOf (Int64.ofNat b.toNat - Int64.ofNat c.toNat) = b - c := by
  have hb := b.toNat_lt
  have hc := c.toNat_lt
  have hrange : ((b.toNat : ℤ) - c.toNat).bmod (2 ^ 64) = b.toNat - c.toNat :=
    Int.bmod_eq_of_le (by omega) (by omega)
  apply UInt8.toNat_inj.mp
  rw [byteOf, Int64.toInt_sub, toInt_ofByte, toInt_ofByte, hrange, UInt8.toNat_sub]
  have hlt : (((b.toNat : ℤ) - c.toNat) % 256).toNat < 256 := by omega
  rw [Nat.toUInt8, UInt8.toNat_ofNat_of_lt' hlt]
  omega

/-- The remainder modulo 256 stands for the same byte. -/
theorem byteOf_floorMod (a : Int64) : byteOf (Word.floorMod a 256) = byteOf a := by
  have h256 : (256 : Int64).toInt = 256 := by decide
  rw [byteOf, byteOf, Word.toInt_floorMod, h256, Int.fmod_eq_emod_of_nonneg _ (by decide),
    Int.emod_emod_of_dvd _ (by decide)]

end Machine

namespace Word

variable {b a : Int64}

/-! ### The quotient of integers -/

/-- The floor of a quotient, for divisors of either sign. -/
theorem floor_div (b a : ℤ) : ⌊(b : ℚ) / a⌋ = b.fdiv a := by
  have hnonneg : ∀ b a : ℤ, 0 ≤ a → ⌊(b : ℚ) / a⌋ = b.fdiv a := by
    intro b a ha
    rw [Int.floor_div_cast_of_nonneg ha, Int.floor_intCast, Int.fdiv_eq_ediv_of_nonneg b ha]
  rcases le_total 0 a with ha | ha
  · exact hnonneg b a ha
  · rw [← neg_div_neg_eq, ← Int.cast_neg, ← Int.cast_neg, hnonneg _ _ (neg_nonneg.mpr ha),
      Int.neg_fdiv_neg]

/-- A remainder rounded downward has the sign of the divisor and is smaller. -/
theorem fmod_mem {b a : ℤ} (ha : a ≠ 0) :
    (b.fmod a = 0 ∨ (b.fmod a).sign = a.sign) ∧ |b.fmod a| < |a| := by
  have hpos : ∀ b a : ℤ, 0 < a →
      (b.fmod a = 0 ∨ (b.fmod a).sign = a.sign) ∧ |b.fmod a| < |a| := by
    intro b a ha
    have hnonneg := Int.fmod_nonneg_of_pos b ha
    rw [abs_of_nonneg hnonneg, abs_of_pos ha, Int.sign_eq_one_of_pos ha, Int.sign_eq_one_iff_pos]
    exact ⟨hnonneg.eq_or_lt.imp_left Eq.symm, Int.fmod_lt_of_pos b ha⟩
  rcases Int.lt_or_gt_of_ne ha with hneg | ha
  · have h := hpos (-b) (-a) (neg_pos.mpr hneg)
    rwa [Int.neg_fmod_neg, abs_neg, abs_neg, Int.sign_neg, Int.sign_neg, neg_inj, neg_eq_zero] at h
  · exact hpos b a ha

/-- A division that leaves a remainder at least halves the dividend. -/
theorem natAbs_tdiv_le {b a : ℤ} (h : ¬ a ∣ b) : 2 * (b.tdiv a).natAbs ≤ b.natAbs := by
  rcases eq_or_ne a 0 with rfl | ha
  · rw [Int.tdiv_zero]
    exact Nat.zero_le _
  · have hunit : a.natAbs ≠ 1 := fun h1 => h (Int.isUnit_iff_natAbs_eq.mpr h1).dvd
    have htwo : 2 ≤ a.natAbs := by omega
    have hle : b.natAbs / a.natAbs ≤ b.natAbs / 2 := Nat.div_le_div_left htwo two_pos
    have habs : (b.tdiv a).natAbs = b.natAbs / a.natAbs := Int.natAbs_tdiv b a
    omega

/-! ### The quotient of words -/

theorem toInt_ne_zero (ha : a ≠ 0) : a.toInt ≠ 0 :=
  fun h => ha (Int64.toInt_inj.mp (h.trans Int64.toInt_zero.symm))

/-- Only the least word divided by minus one has a quotient that is no word. -/
theorem toInt_div (h : ¬ (b = Int64.minValue ∧ a = -1)) :
    (b / a).toInt = b.toInt.tdiv a.toInt := by
  rcases not_and_or.mp h with hb | ha
  · exact Int64.toInt_div_of_ne_left b a hb
  · exact Int64.toInt_div_of_ne_right b a ha

/-- Where the quotient is corrected, it is far from the least word. -/
theorem toInt_div_sub_one (h : RoundsUp b a) : (b / a - 1).toInt = (b / a).toInt - 1 := by
  have hexcept : ¬ (b = Int64.minValue ∧ a = -1) := by
    rintro ⟨rfl, rfl⟩
    exact absurd h (by decide)
  have hhalf := natAbs_tdiv_le (roundsUp_iff.mp h).1
  have hb := b.le_toInt
  have hb' := b.toInt_lt
  rw [Int64.toInt_sub, toInt_div hexcept, Int64.toInt_one]
  exact Int.bmod_eq_of_le (by omega) (by omega)

/-- **The quotient is that of integers rounded downward.** -/
theorem toInt_floorDiv (ha : a ≠ 0) (h : ¬ (b = Int64.minValue ∧ a = -1)) :
    (floorDiv b a).toInt = b.toInt.fdiv a.toInt := by
  rw [floorDiv, Int.fdiv_eq_tdiv]
  by_cases hup : RoundsUp b a
  · obtain ⟨hdvd, hsign⟩ := roundsUp_iff.mp hup
    rw [if_pos hup, toInt_div_sub_one hup, toInt_div h, if_neg hdvd]
    rcases Int.lt_or_gt_of_ne (toInt_ne_zero ha) with hneg | hpos
    · rw [if_pos (by omega), if_neg (by omega)]
    · rw [if_neg (by omega), if_pos (by omega), Int.sign_eq_one_of_pos hpos]
  · rw [if_neg hup, toInt_div h]
    rw [roundsUp_iff, not_and] at hup
    by_cases hdvd : a.toInt ∣ b.toInt
    · rw [if_pos hdvd, Int.sub_zero]
    · have hsign := hup hdvd
      rw [if_neg hdvd]
      rcases Int.lt_or_gt_of_ne (toInt_ne_zero ha) with hneg | hpos
      · rw [if_neg (by omega), if_neg (by omega), Int.sign_eq_neg_one_of_neg hneg,
          add_neg_cancel, Int.sub_zero]
      · rw [if_pos (by omega), if_pos (by omega), Int.sub_zero]

end Word

namespace Machine

variable {m : Machine} {below : List Int64} {b a : Int64}

/-- The two instructions take two words and leave the quotient or the remainder. -/
theorem execute_divide_mod (ha : a ≠ 0) (hstack : m.stack.toList = below ++ [b, a]) (size : ℕ) :
    m.execute .divide size = ({ m with stack := .ofList (below ++ [Word.floorDiv b a]) }, .done) ∧
      m.execute .mod size =
        ({ m with stack := .ofList (below ++ [Word.floorMod b a]) }, .done) := by
  have hfromTop := Stack.fromTop_of_toList hstack
  have hleft : ∀ r : Int64, Stack.ofList (below ++ [r]) = ⟨r :: below.reverse⟩ := by
    intro r
    rw [Stack.ofList, List.reverse_append, List.reverse_singleton, List.singleton_append]
  constructor <;>
    simp only [execute, attempt, silent, binary, hfromTop, if_neg ha, hleft, Except.map]

end Machine

namespace Word

/-- **Words are divided as integers are, rounded downward.**  The remainder is what the floor of the
exact quotient leaves; it is zero or has the sign of the divisor, and is smaller.  The quotient is
that floor, except that the least word divided by minus one is the least word again.  Correcting a
quotient or a remainder never leaves the range of words, and up to multiples of `2 ^ 64` the two
always make up the dividend.  They are what the instructions leave on the stack. -/
theorem division_downward (b a : Int64) (ha : a ≠ 0) :
    ((floorMod b a).toInt = b.toInt - a.toInt * ⌊(b.toInt : ℚ) / a.toInt⌋ ∧
      ((floorMod b a).toInt = 0 ∨ (floorMod b a).toInt.sign = a.toInt.sign) ∧
      |(floorMod b a).toInt| < |a.toInt|) ∧
    (floorDiv b a).toInt = (if b = Int64.minValue ∧ a = -1 then Int64.minValue.toInt
      else ⌊(b.toInt : ℚ) / a.toInt⌋) ∧
    (b % a ≠ 0 → (b < 0 ↔ ¬ a < 0) → (b / a - 1).toInt = (b / a).toInt - 1) ∧
    (b % a ≠ 0 → (b % a < 0 ↔ ¬ a < 0) → (b % a + a).toInt = (b % a).toInt + a.toInt) ∧
    a.toInt * (floorDiv b a).toInt + (floorMod b a).toInt ≡ b.toInt [ZMOD 2 ^ 64] ∧
    ∀ (m : Machine) (below : List Int64) (size : ℕ), m.stack.toList = below ++ [b, a] →
      m.execute .divide size = ({ m with stack := .ofList (below ++ [floorDiv b a]) }, .done) ∧
        m.execute .mod size = ({ m with stack := .ofList (below ++ [floorMod b a]) }, .done) := by
  have hfloor : ⌊(b.toInt : ℚ) / a.toInt⌋ = b.toInt.fdiv a.toInt := floor_div _ _
  rw [hfloor]
  have hmod : (floorMod b a).toInt = b.toInt - a.toInt * b.toInt.fdiv a.toInt := by
    rw [toInt_floorMod, Int.fmod_def]
  refine ⟨⟨hmod, ?_⟩, ?_, fun hne hsign => toInt_div_sub_one ⟨hne, hsign⟩,
    fun hne hsign => toInt_mod_add (roundsUp_iff_mod.mpr ⟨hne, hsign⟩), ?_,
    fun m below size hstack => Machine.execute_divide_mod ha hstack size⟩
  · rw [toInt_floorMod]
    exact fmod_mem (toInt_ne_zero ha)
  · split
    · next h =>
      obtain ⟨rfl, rfl⟩ := h
      decide
    · next h => exact toInt_floorDiv ha h
  · by_cases h : b = Int64.minValue ∧ a = -1
    · obtain ⟨rfl, rfl⟩ := h
      decide
    · rw [hmod, toInt_floorDiv ha h, add_sub_cancel]

/-- A machine that is about to divide the least word by three. -/
def leastByThree : Machine :=
  { Machine.start #[] with stack := .ofList [5, Int64.minValue, 3] }

theorem division_downward_leastByThree :
    (3 : Int64) ≠ 0 ∧ leastByThree.stack.toList = [5] ++ [Int64.minValue, 3] ∧
      (Int64.minValue % 3 ≠ 0 ∧ (Int64.minValue < 0 ↔ ¬ (3 : Int64) < 0) ∧
        (Int64.minValue % 3 < 0 ↔ ¬ (3 : Int64) < 0)) ∧
      (floorMod Int64.minValue 3).toInt =
        Int64.minValue.toInt - 3 * ⌊(Int64.minValue.toInt : ℚ) / (3 : Int64).toInt⌋ ∧
      (Int64.minValue / 3 - 1).toInt = -3074457345618258603 ∧
      (Int64.minValue % 3 + 3).toInt = 1 ∧
      (leastByThree.execute .divide 1).1.stack.toList = [5, -3074457345618258603] ∧
      (leastByThree.execute .mod 1).1.stack.toList = [5, 1] := by
  have ha : (3 : Int64) ≠ 0 := by decide
  have hstack : leastByThree.stack.toList = [5] ++ [Int64.minValue, 3] := by decide
  have hne : Int64.minValue % 3 ≠ 0 := by decide
  have hsign : Int64.minValue < 0 ↔ ¬ (3 : Int64) < 0 := by decide
  have hsign' : Int64.minValue % 3 < 0 ↔ ¬ (3 : Int64) < 0 := by decide
  obtain ⟨⟨hmod, -⟩, -, hquotient, hremainder, -, hexecute⟩ := division_downward Int64.minValue 3 ha
  obtain ⟨hdivide, hmod'⟩ := hexecute leastByThree [5] 1 hstack
  refine ⟨ha, hstack, ⟨hne, hsign, hsign'⟩, hmod, ?_, ?_, ?_, ?_⟩
  · rw [hquotient hne hsign]
    decide
  · rw [hremainder hne hsign']
    decide
  · rw [hdivide]
    decide
  · rw [hmod']
    decide

end Word

end Piet
