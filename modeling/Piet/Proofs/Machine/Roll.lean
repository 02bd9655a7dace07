import Mathlib.Data.Int.ModEq
import Mathlib.Data.List.Rotate
import Mathlib.Tactic.Zify
import Piet.Machine.Basic

/-!
# Rolling the stack

A roll turns a window at the top of the stack by a number of places, which may be negative or
exceed the depth of the window by far.  Only its residue modulo the depth matters, and turns add up:
the integers act on the window (`Stack.turned_turned`, `Stack.turned_of_dvd`).

`Machine.rollBy_cyclic` says so of the instruction, and where each word of the window goes.
-/

namespace Piet

namespace Stack

variable {v : List Int64} {a b : ℤ} {i : ℕ}

/-! ### Turning a window -/

/-- A window, top first, after its top word has been buried so many times. -/
def turned (v : List Int64) (count : ℤ) : List Int64 :=
  v.rotate (count % v.length).toNat

@[simp]
theorem length_turned (v : List Int64) (count : ℤ) : (turned v count).length = v.length :=
  List.length_rotate v _

theorem turned_congr (h : a ≡ b [ZMOD v.length]) : turned v a = turned v b := by
  rw [turned, turned, h]

theorem turned_of_dvd (h : (v.length : ℤ) ∣ a) : turned v a = v := by
  rw [turned, Int.emod_eq_zero_of_dvd h, Int.toNat_zero, List.rotate_zero]

/-- **Turns add up.** -/
theorem turned_turned (v : List Int64) (a b : ℤ) : turned (turned v a) b = turned v (a + b) := by
  rcases eq_or_ne v [] with rfl | hv
  · simp [turned]
  · have hpos : (v.length : ℤ) ≠ 0 := Int.natCast_ne_zero.mpr (mt List.length_eq_zero_iff.mp hv)
    have ha := Int.emod_nonneg a hpos
    have hb := Int.emod_nonneg b hpos
    have hab := Int.emod_nonneg (a + b) hpos
    have hsum : ((a % v.length).toNat + (b % v.length).toNat) % v.length =
        ((a + b) % v.length).toNat := by
      zify
      rw [Int.toNat_of_nonneg ha, Int.toNat_of_nonneg hb, Int.toNat_of_nonneg hab, ← Int.add_emod]
    rw [turned, length_turned, turned, List.rotate_rotate, ← List.rotate_mod, hsum, turned]

/-- Read from the bottom upward, each place holds the word that was so many places below it. -/
theorem getElem?_reverse_turned (hi : i < v.length) (a : ℤ) :
    (turned v a).reverse[i]? = v.reverse[(((i : ℤ) - a) % v.length).toNat]? := by
  have hpos : (0 : ℤ) < v.length := by omega
  have ha := Int.emod_nonneg a hpos.ne'
  have hlt := Int.emod_lt_of_pos a hpos
  have hplace : (i + (v.length - (a % v.length).toNat % v.length)) % v.length =
      (((i : ℤ) - a) % v.length).toNat := by
    have hmod : (a % v.length).toNat % v.length = (a % v.length).toNat :=
      Nat.mod_eq_of_lt (by omega)
    have hle : (a % v.length).toNat ≤ v.length := by omega
    have hback : (i : ℤ) + (v.length - a % v.length) = (i : ℤ) - a % v.length + v.length := by
      omega
    rw [hmod]
    zify [hle]
    rw [Int.toNat_of_nonneg ha, Int.toNat_of_nonneg (Int.emod_nonneg _ hpos.ne'), hback,
      Int.add_emod_right, Int.sub_emod_emod]
  rw [turned, List.reverse_rotate, List.getElem?_rotate (by rwa [List.length_reverse]),
    List.length_reverse, hplace]

/-- What a roll makes of a stack that is deep enough. -/
theorem roll?_append (v q : List Int64) (count : ℤ) :
    roll? ⟨v ++ q⟩ v.length count = some ⟨turned v count ++ q⟩ := by
  have hturned : v.drop (count % v.length).toNat ++ v.take (count % v.length).toNat =
      turned v count := by
    rcases eq_or_ne v [] with rfl | hv
    · simp [turned]
    · have hpos : (0 : ℤ) < v.length :=
        Int.natCast_pos.mpr (List.length_pos_iff.mpr hv)
      have hlt := Int.emod_lt_of_pos count hpos
      rw [turned, List.rotate_eq_drop_append_take (by omega)]
  rw [roll?, List.splitAt_eq, List.take_left, List.drop_left]
  simp only [if_true, hturned]

end Stack

namespace Machine

variable {m : Machine} {v q : List Int64} {depth a b : Int64}

/-- Rolls the topmost `depth` words: lays the depth and the count on the stack and executes the
instruction, in whatever size of block. -/
def rollBy (m : Machine) (depth count : Int64) (size : ℕ) : Machine × Outcome :=
  ((m.push depth).push count).execute .roll size

/-- **A roll turns the window and leaves alone what is below it.** -/
theorem rollBy_eq (hstack : m.stack.fromTop = v ++ q) (hdepth : depth.toInt = v.length)
    (a : Int64) (size : ℕ) :
    m.rollBy depth a size = ({ m with stack := ⟨Stack.turned v a.toInt ++ q⟩ }, .done) := by
  obtain ⟨⟨stack⟩, dp, cc, input, output⟩ := m
  obtain rfl : stack = v ++ q := hstack
  have hnonneg : ¬ depth < 0 := by
    rw [Int64.lt_iff_toInt_lt, hdepth, Int64.toInt_zero]
    omega
  have hlength : depth.toInt.toNat = v.length := by rw [hdepth, Int.toNat_natCast]
  simp only [rollBy, push, Stack.push, execute, attempt, silent, roll, if_neg hnonneg, hlength,
    Stack.roll?_append, Except.map]

/-- **Rolling is the action of the integers on a window.**  The word that comes to a place of the
window, counted from below, is the one that was the count below it, cyclically; so two rolls of the
same depth are one roll by any count that is congruent to their sum, and two that cancel out restore
the window.  A roll of depth zero takes its two words off the stack and does nothing else. -/
theorem rollBy_cyclic (m : Machine) {below window : List Int64} {depth : Int64}
    (hstack : m.stack.toList = below ++ window) (hdepth : depth.toInt = window.length) :
    (∀ (a : Int64) (size : ℕ), ∃ window' : List Int64,
        m.rollBy depth a size = ({ m with stack := .ofList (below ++ window') }, .done) ∧
          window'.length = window.length ∧
          ∀ i < window.length,
            window'[i]? = window[(((i : ℤ) - a.toInt) % depth.toInt).toNat]?) ∧
      (∀ (a b c : Int64) (s t u : ℕ), c.toInt ≡ a.toInt + b.toInt [ZMOD depth.toInt] →
        (m.rollBy depth a s).1.rollBy depth b t = m.rollBy depth c u) ∧
      (∀ (a b : Int64) (s t : ℕ), depth.toInt ∣ a.toInt + b.toInt →
        (m.rollBy depth a s).1.rollBy depth b t = (m, .done)) ∧
      ∀ (a : Int64) (size : ℕ), m.rollBy 0 a size = (m, .done) := by
  have hfromTop : m.stack.fromTop = window.reverse ++ below.reverse := by
    rw [← List.reverse_append]
    exact List.reverse_eq_iff.mp hstack
  have hlength : (window.reverse.length : ℤ) = depth.toInt := by
    rw [hdepth, List.length_reverse]
  have honce : ∀ (a : Int64) (s : ℕ), m.rollBy depth a s =
      ({ m with stack := ⟨Stack.turned window.reverse a.toInt ++ below.reverse⟩ }, .done) :=
    rollBy_eq hfromTop hlength.symm
  have htwice : ∀ (a b : Int64) (s t : ℕ), (m.rollBy depth a s).1.rollBy depth b t =
      ({ m with
        stack := ⟨Stack.turned window.reverse (a.toInt + b.toInt) ++ below.reverse⟩ }, .done) := by
    intro a b s t
    rw [honce, ← Stack.turned_turned]
    exact rollBy_eq rfl (by rw [Stack.length_turned, hlength]) b t
  refine ⟨fun a size => ?_, fun a b c s t u hcong => ?_, fun a b s t hdvd => ?_, fun a size => ?_⟩
  · refine ⟨(Stack.turned window.reverse a.toInt).reverse, ?_, by simp, fun i hi => ?_⟩
    · rw [honce, Stack.ofList, List.reverse_append, List.reverse_reverse]
    · rw [Stack.getElem?_reverse_turned (by rwa [List.length_reverse]), hlength,
        List.reverse_reverse]
  · rw [htwice, honce, Stack.turned_congr (hlength ▸ hcong.symm)]
  · rw [htwice, Stack.turned_of_dvd (hlength ▸ hdvd), ← hfromTop]
  · exact rollBy_eq (v := []) rfl rfl a size

/-- A machine with five words on its stack. -/
def fiveWords : Machine :=
  { start #[] with stack := .ofList [1, 2, 3, 4, 5] }

/-- The least word is no exception: two more turns undo a roll by it. -/
theorem rollBy_cyclic_fiveWords :
    fiveWords.stack.toList = [1, 2] ++ [3, 4, 5] ∧
      (3 : Int64).toInt = ([3, 4, 5] : List Int64).length ∧
      (3 : Int64).toInt ∣ Int64.minValue.toInt + (2 : Int64).toInt ∧
      (fiveWords.rollBy 3 Int64.minValue 0).1.rollBy 3 2 0 = (fiveWords, .done) := by
  have hstack : fiveWords.stack.toList = [1, 2] ++ [3, 4, 5] := by decide
  have hdepth : (3 : Int64).toInt = ([3, 4, 5] : List Int64).length := by decide
  have hdvd : (3 : Int64).toInt ∣ Int64.minValue.toInt + (2 : Int64).toInt := by decide
  exact ⟨hstack, hdepth, hdvd,
    (rollBy_cyclic fiveWords hstack hdepth).2.2.1 Int64.minValue 2 0 0 hdvd⟩

end Machine

end Piet
