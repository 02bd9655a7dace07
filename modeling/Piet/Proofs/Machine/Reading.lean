import Mathlib.Data.Nat.Digits.Defs
import Piet.Proofs.Machine.Locality

/-!
# Reading numerals

What `inNum` does, seen from the bytes that the cursor stands before.  `Numeral.number` gives every
digit the weight of its place, and `Numeral.places` says where a reader looks, which is always among
the bytes that there are (`Numeral.places_le`).  `Machine.inNum_reads` says when a number is read,
which one, and how far the cursor goes.

What `outNum` writes for a word is a numeral of that word (`Numeral.leads_render`).  So words that
were written one after another, with blanks between them, are read in the same order
(`Machine.inNum_reads_back`).
-/

namespace Piet

theorem Input.advance_advance (i : Input) (k n : ℕ) :
    (i.advance k).advance n = i.advance (k + n) := by
  rw [advance, advance, advance, Nat.add_assoc]

namespace Numeral

variable {bytes blanks sign ds rest : List UInt8} {a : Int64} {n : ℕ}

/-! ### The number of a numeral -/

/-- The number that a sign and digits stand for, each digit by the weight of its place. -/
def number (sign ds : List UInt8) : ℤ :=
  (if sign = [45] then -1 else 1) * (Nat.ofDigits 10 (ds.reverse.map fun d => d.toNat - 48) : ℕ)

theorem value_append (ds : List UInt8) (d : UInt8) :
    value (ds ++ [d]) = 10 * value ds + (d.toNat - 48) := by
  rw [value, List.foldl_append]
  rfl

theorem value_eq_ofDigits (ds : List UInt8) :
    value ds = Nat.ofDigits 10 (ds.reverse.map fun d => d.toNat - 48) := by
  induction ds using List.reverseRecOn with
  | nil => rfl
  | append_singleton ds d ih =>
    rw [value_append, List.reverse_append, List.reverse_singleton, List.singleton_append,
      List.map_cons, Nat.ofDigits_cons, ← ih, Nat.add_comm]

theorem signed_eq_number (sign ds : List UInt8) : signed sign ds = number sign ds := by
  rw [signed, number, value_eq_ofDigits]
  split
  · rw [neg_one_mul]
  · rw [one_mul]

/-! ### Where a reader looks -/

/-- The place of the sign, that of the first digit and the one after the last digit, counted from
where a reader starts.  Without a sign or digits, two of them are the same. -/
structure Places where
  sign : ℕ
  digits : ℕ
  stop : ℕ
deriving DecidableEq

/-- The places at which a reader finds the parts of a numeral, each by a scan that begins where the
one before it ended. -/
def places (bytes : List UInt8) : Places :=
  let sign := (bytes.takeWhile isBlank).length
  let digits := sign + (splitSign (bytes.drop sign)).2.1
  ⟨sign, digits, digits + ((bytes.drop digits).takeWhile isDigit).length⟩

/-- A reader looks nowhere but among the bytes that there are. -/
theorem places_le (bytes : List UInt8) :
    (places bytes).sign ≤ (places bytes).digits ∧ (places bytes).digits ≤ (places bytes).stop ∧
      (places bytes).stop ≤ bytes.length := by
  refine ⟨Nat.le_add_right _ _, Nat.le_add_right _ _, ?_⟩
  have hscan : ∀ (p : UInt8 → Bool) (l : List UInt8), (l.takeWhile p).length ≤ l.length :=
    fun p l => (List.takeWhile_prefix p).length_le
  have hblanks : (places bytes).sign ≤ bytes.length := hscan _ _
  have hdigits : (places bytes).digits ≤ bytes.length := by
    obtain ⟨sign, rest, hdrop, -, hsplit⟩ := exists_splitSign (bytes.drop (places bytes).sign)
    have heq : (places bytes).digits = (places bytes).sign + sign.length :=
      congrArg (fun s : Bool × ℕ × List UInt8 => (places bytes).sign + s.2.1) hsplit
    have hlength := congrArg List.length hdrop
    rw [List.length_append, List.length_drop] at hlength
    omega
  have hrun := hscan isDigit (bytes.drop (places bytes).digits)
  have hstop : (places bytes).stop = (places bytes).digits +
      ((bytes.drop (places bytes).digits).takeWhile isDigit).length := rfl
  rw [List.length_drop] at hrun
  omega

namespace Leads

/-- The blanks of a numeral are as many as there are. -/
theorem takeWhile_isBlank (h : Leads bytes blanks sign ds rest) :
    bytes.takeWhile isBlank = blanks := by
  rw [h.split]
  exact (run_append h.blank fun b hb => h.not_isBlank hb).1

/-- The digits of a numeral are as many as there are. -/
theorem takeWhile_isDigit (h : Leads bytes blanks sign ds rest) :
    (bytes.drop (blanks.length + sign.length)).takeWhile isDigit = ds := by
  rw [h.split, ← List.append_assoc, ← List.length_append, List.drop_left]
  exact (run_append h.digit h.ends).1

theorem places_eq (h : Leads bytes blanks sign ds rest) :
    places bytes = ⟨blanks.length, blanks.length + sign.length,
      blanks.length + sign.length + ds.length⟩ := by
  have hsign : (splitSign (bytes.drop blanks.length)).2.1 = sign.length := by
    rw [h.split, List.drop_left, splitSign_append h.sign h.nonempty h.digit]
  simp only [places, h.takeWhile_isBlank, hsign, h.takeWhile_isDigit]

theorem drop_stop (h : Leads bytes blanks sign ds rest) :
    bytes.drop (places bytes).stop = rest := by
  rw [h.places_eq, h.split, ← List.append_assoc, ← List.append_assoc, ← List.length_append,
    ← List.length_append, List.drop_left]

end Leads

/-! ### What is written for a word -/

theorem digit_spec : ∀ n < 10, isDigit (digit n) ∧ (digit n).toNat - 48 = n := by
  decide

theorem digits_ne_nil (n : ℕ) : digits n ≠ [] := by
  rw [digits]
  split
  · exact List.cons_ne_nil _ _
  · exact List.append_ne_nil_of_right_ne_nil _ (List.cons_ne_nil _ _)

theorem isDigit_of_mem_digits {d : UInt8} (hd : d ∈ digits n) : isDigit d := by
  induction n using digits.induct with
  | case1 n hlt =>
    rw [digits, if_pos hlt, List.mem_singleton] at hd
    exact hd ▸ (digit_spec n hlt).1
  | case2 n hge ih =>
    rw [digits, if_neg hge, List.mem_append, List.mem_singleton] at hd
    rcases hd with hd | rfl
    · exact ih hd
    · exact (digit_spec _ (Nat.mod_lt n (by decide))).1

/-- Digits stand for the number they were made from. -/
theorem value_digits (n : ℕ) : value (digits n) = n := by
  induction n using digits.induct with
  | case1 n hlt =>
    rw [digits, if_pos hlt, ← List.nil_append [digit n], value_append, (digit_spec n hlt).2]
    exact Nat.zero_add n
  | case2 n hge ih =>
    have hmod := (digit_spec _ (Nat.mod_lt n (by decide))).2
    rw [digits, if_neg hge, value_append, ih, hmod, Nat.div_add_mod]

/-- **What is written for a word is a numeral of it**, after any blanks and before anything that
does not begin with another digit. -/
theorem leads_render (hblank : ∀ b ∈ blanks, isBlank b) (a : Int64)
    (hends : ∀ b ∈ rest.head?, ¬ isDigit b) :
    ∃ sign ds, render a = sign ++ ds ∧ a.toInt = signed sign ds ∧
      Leads (blanks ++ (render a ++ rest)) blanks sign ds rest := by
  have hdigit : ∀ d ∈ digits a.toInt.natAbs, isDigit d := fun d => isDigit_of_mem_digits
  have hne := digits_ne_nil a.toInt.natAbs
  by_cases hneg : a < 0
  · have hrender : render a = [45] ++ digits a.toInt.natAbs := if_pos hneg
    rw [Int64.lt_iff_toInt_lt, Int64.toInt_zero] at hneg
    refine ⟨[45], digits a.toInt.natAbs, hrender, ?_, ?_, hblank, by decide, hne, hdigit, hends⟩
    · rw [signed, if_pos rfl, value_digits]
      omega
    · rw [hrender, List.append_assoc]
  · have hrender : render a = [] ++ digits a.toInt.natAbs := if_neg hneg
    rw [Int64.lt_iff_toInt_lt, Int64.toInt_zero] at hneg
    refine ⟨[], digits a.toInt.natAbs, hrender, ?_, ?_, hblank, by decide, hne, hdigit, hends⟩
    · rw [signed, if_neg (by decide), value_digits]
      omega
    · rw [hrender, List.append_assoc]

end Numeral

namespace Machine

open Numeral (Leads number places isBlank isDigit)

variable {m : Machine} {a : Int64} {blanks sign ds rest : List UInt8}

/-! ### Reading one number -/

theorem execute_inNum_of_leads
    (h : Leads (m.input.bytes.toList.drop m.input.cursor) blanks sign ds rest)
    (ha : a.toInt = Numeral.signed sign ds) (size : ℕ) :
    m.execute .inNum size = ({ m.push a with
      input := m.input.advance (blanks.length + sign.length + ds.length) }, .done) := by
  have hread : Numeral.read? m.input.rest =
      some (a, blanks.length + sign.length + ds.length) := by
    rw [Input.rest_eq_drop]
    exact Numeral.read?_eq_some_iff.mpr ⟨blanks, sign, ds, rest, h, ha, rfl⟩
  simp only [execute, attempt, silent, readNumeral, hread, Except.map]

/-- Where the input goes on with a numeral whose number is a word, that word is read. -/
theorem exists_execute_inNum
    (h : Leads (m.input.bytes.toList.drop m.input.cursor) blanks sign ds rest)
    (hmin : -2 ^ 63 ≤ number sign ds) (hmax : number sign ds < 2 ^ 63) (size : ℕ) :
    ∃ a : Int64, a.toInt = number sign ds ∧ m.execute .inNum size = ({ m.push a with
      input := m.input.advance (places (m.input.bytes.toList.drop m.input.cursor)).stop },
        .done) := by
  have ha : (Int64.ofInt (number sign ds)).toInt = number sign ds :=
    Int64.toInt_ofInt_of_le hmin hmax
  refine ⟨_, ha, ?_⟩
  rw [h.places_eq]
  exact execute_inNum_of_leads h (ha.trans (Numeral.signed_eq_number sign ds).symm) size

/-- A number is read, or nothing happens. -/
theorem execute_inNum_cases (m : Machine) (size : ℕ) :
    (∃ blanks sign ds rest, Leads (m.input.bytes.toList.drop m.input.cursor) blanks sign ds rest ∧
      -2 ^ 63 ≤ number sign ds ∧ number sign ds < 2 ^ 63) ∨
      m.execute .inNum size = (m, .ignored .inputExhausted) := by
  by_cases h : ∃ (a : Int64) (blanks sign ds rest : List UInt8),
      Leads (m.input.bytes.toList.drop m.input.cursor) blanks sign ds rest ∧
        a.toInt = Numeral.signed sign ds
  · obtain ⟨a, blanks, sign, ds, rest, hleads, ha⟩ := h
    rw [Numeral.signed_eq_number] at ha
    exact .inl ⟨blanks, sign, ds, rest, hleads, ha ▸ a.le_toInt, ha ▸ a.toInt_lt⟩
  · have hattempt : m.attempt size .inNum = .error .inputExhausted :=
      attempt_of_faults (.numeral h) size
    exact .inr (by rw [execute, hattempt])

/-- **What is read as a number.**  A number is read exactly if the bytes from the cursor on begin
with a numeral, after blanks, whose number is a word.  Then the word is pushed and the cursor goes
to what follows the numeral, of which blanks and digits are as long as can be.  Otherwise nothing
happens.  Wherever the cursor is, the reader stays among the bytes of the input. -/
theorem inNum_reads (m : Machine) (size : ℕ) :
    let bytes := m.input.bytes.toList.drop m.input.cursor
    let r := m.execute .inNum size
    (r.2 = .done ↔ ∃ blanks sign ds rest, Leads bytes blanks sign ds rest ∧
      -2 ^ 63 ≤ number sign ds ∧ number sign ds < 2 ^ 63) ∧
    (∀ blanks sign ds rest, Leads bytes blanks sign ds rest →
      -2 ^ 63 ≤ number sign ds → number sign ds < 2 ^ 63 →
      ∃ a : Int64, a.toInt = number sign ds ∧
        r.1 = { m.push a with input := m.input.advance (blanks ++ sign ++ ds).length } ∧
        r.1.input.bytes.toList.drop r.1.input.cursor = rest ∧
        blanks = bytes.takeWhile isBlank ∧
        ds = (bytes.drop (blanks ++ sign).length).takeWhile isDigit) ∧
    (r.2 ≠ .done → r = (m, .ignored .inputExhausted)) ∧
    (places bytes).sign ≤ (places bytes).digits ∧ (places bytes).digits ≤ (places bytes).stop ∧
      min m.input.cursor m.input.bytes.size + (places bytes).stop ≤ m.input.bytes.size ∧
      (r.2 = .done → r.1.input.cursor = m.input.cursor + (places bytes).stop) := by
  intro bytes r
  have hcases := execute_inNum_cases m size
  have hplaces := Numeral.places_le bytes
  have hlength : bytes.length = m.input.bytes.size - m.input.cursor := List.length_drop
  refine ⟨⟨fun hdone => ?_, ?_⟩, ?_, fun hnot => ?_, hplaces.1, hplaces.2.1, by omega,
    fun hdone => ?_⟩
  · refine hcases.resolve_right fun hignored => ?_
    rw [show r = _ from hignored] at hdone
    cases hdone
  · rintro ⟨blanks, sign, ds, rest, h, hmin, hmax⟩
    obtain ⟨a, -, hr⟩ := exists_execute_inNum h hmin hmax size
    rw [show r = _ from hr]
  · intro blanks sign ds rest h hmin hmax
    obtain ⟨a, ha, hr⟩ := exists_execute_inNum h hmin hmax size
    refine ⟨a, ha, ?_, ?_, h.takeWhile_isBlank.symm, ?_⟩
    · rw [show r = _ from hr, h.places_eq, List.length_append, List.length_append]
    · rw [show r = _ from hr, ← h.drop_stop]
      exact List.drop_drop.symm
    · rw [List.length_append, h.takeWhile_isDigit]
  · refine hcases.resolve_left ?_
    rintro ⟨blanks, sign, ds, rest, h, hmin, hmax⟩
    obtain ⟨a, -, hr⟩ := exists_execute_inNum h hmin hmax size
    exact hnot (by rw [show r = _ from hr])
  · rcases hcases with ⟨blanks, sign, ds, rest, h, hmin, hmax⟩ | hignored
    · obtain ⟨a, -, hr⟩ := exists_execute_inNum h hmin hmax size
      rw [show r = _ from hr]
      rfl
    · rw [show r = _ from hignored] at hdone
      cases hdone

/-- A machine whose cursor stands before blanks, the least word with a zero too many in front, and a
letter. -/
def leastAhead : Machine :=
  { start #[57, 32, 9, 45, 48, 57, 50, 50, 51, 51, 55, 50, 48, 51, 54, 56, 53, 52, 55, 55, 53, 56,
      48, 56, 120] with input.cursor := 1 }

theorem inNum_reads_leastAhead :
    ∃ blanks sign ds rest,
      Leads (leastAhead.input.bytes.toList.drop leastAhead.input.cursor) blanks sign ds rest ∧
        (-2 ^ 63 ≤ number sign ds ∧ number sign ds < 2 ^ 63) ∧ rest = [120] ∧
        (leastAhead.execute .inNum 1).2 = .done ∧
        (leastAhead.execute .inNum 1).1.stack.toList = [Int64.minValue] ∧
        (leastAhead.execute .inNum 1).1.input.cursor = 24 := by
  have hleads : Leads (leastAhead.input.bytes.toList.drop leastAhead.input.cursor) [32, 9] [45]
      [48, 57, 50, 50, 51, 51, 55, 50, 48, 51, 54, 56, 53, 52, 55, 55, 53, 56, 48, 56] [120] :=
    ⟨by decide, List.all_eq_true.mp (by decide), by decide, List.cons_ne_nil _ _,
      List.all_eq_true.mp (by decide), by rintro _ ⟨⟩; decide⟩
  have hnumber : number [45]
      [48, 57, 50, 50, 51, 51, 55, 50, 48, 51, 54, 56, 53, 52, 55, 55, 53, 56, 48, 56] =
        Int64.minValue.toInt := by decide
  have hrange : -2 ^ 63 ≤ Int64.minValue.toInt ∧ Int64.minValue.toInt < 2 ^ 63 := by decide
  rw [← hnumber] at hrange
  obtain ⟨hdone, hread, -⟩ := inNum_reads leastAhead 1
  obtain ⟨a, ha, hr, -⟩ := hread _ _ _ _ hleads hrange.1 hrange.2
  obtain rfl : a = Int64.minValue := Int64.toInt_inj.mp (ha.trans hnumber)
  refine ⟨_, _, _, _, hleads, hrange, rfl, hdone.mpr ⟨_, _, _, _, hleads, hrange⟩, ?_, ?_⟩
  · rw [hr]
    decide
  · rw [hr]
    decide

/-! ### Reading what was written -/

/-- Writing a word on an output without a bound. -/
theorem execute_outNum (hcap : m.output.capacity = none) (a : Int64) (size : ℕ) :
    (m.push a).execute .outNum size =
      ({ m with output := { m.output with
        written := m.output.written.appendList (Numeral.render a) } }, .done) := by
  have hpop : (m.push a).pop = .ok (a, m) := rfl
  have hwrite := Sink.write_unbounded hcap (Numeral.render a)
  simp only [execute, attempt, writeTop, hpop, hwrite]

/-- The bytes that are written for a word, whatever has been written before. -/
def printed (a : Int64) : List UInt8 :=
  (((start #[]).push a).execute .outNum 1).1.output.written.toList

theorem printed_eq_render (a : Int64) : printed a = Numeral.render a := by
  rw [printed, execute_outNum rfl]
  exact Array.toList_appendList

/-- Words as they are written, each after some blanks. -/
def listing (entries : List (List UInt8 × Int64)) : List UInt8 :=
  entries.flatMap fun e => e.1 ++ printed e.2

/-- A listing whose words all have blanks before them does not go on with a digit, and neither does
one without words. -/
theorem not_isDigit_listing {entries : List (List UInt8 × Int64)}
    (hblank : ∀ e ∈ entries, ∀ b ∈ e.1, isBlank b) (hapart : ∀ e ∈ entries, e.1 ≠ [])
    (hends : ∀ b ∈ rest.head?, ¬ isDigit b) :
    ∀ b ∈ (listing entries ++ rest).head?, ¬ isDigit b := by
  rcases entries with _ | ⟨⟨blanks, a⟩, entries⟩
  · exact hends
  · obtain ⟨b, blanks, rfl⟩ := List.exists_cons_of_ne_nil (hapart _ List.mem_cons_self)
    intro c hc
    obtain rfl : b = c := Option.some.inj hc
    have hb : isBlank b := hblank _ List.mem_cons_self b List.mem_cons_self
    exact fun hdigit => Numeral.not_isBlank_of_isDigit hdigit hb

/-- **What was written is read.**  Where the input goes on with words as they are written, each
after some blanks, of which only the first may have none, and then with something that does not
begin with a digit, as many readings push these words in this order and leave the cursor behind the
last digit. -/
theorem inNum_reads_back (m : Machine) (entries : List (List UInt8 × Int64)) (rest : List UInt8)
    (size : ℕ) (hblank : ∀ e ∈ entries, ∀ b ∈ e.1, isBlank b)
    (hapart : ∀ e ∈ entries.tail, e.1 ≠ []) (hends : ∀ b ∈ rest.head?, ¬ isDigit b)
    (hinput : m.input.bytes.toList.drop m.input.cursor = listing entries ++ rest) :
    m.executeAll (List.replicate entries.length (.inNum, size)) =
      ({ m with
        stack := m.stack.append (entries.map Prod.snd)
        input := m.input.advance (listing entries).length },
        List.replicate entries.length .done) := by
  induction entries generalizing m with
  | nil => rfl
  | cons e entries ih =>
    obtain ⟨blanks, a⟩ := e
    obtain ⟨hfirst, hblank⟩ := List.forall_mem_cons.mp hblank
    have hlisting : listing ((blanks, a) :: entries) =
        (blanks ++ Numeral.render a) ++ listing entries := by
      rw [listing, List.flatMap_cons, printed_eq_render]
      rfl
    rw [hlisting, List.append_assoc] at hinput
    -- What follows the first word does not go on with a digit, so its numeral ends there.
    obtain ⟨sign, ds, hrender, ha, hleads⟩ :=
      Numeral.leads_render hfirst a (not_isDigit_listing hblank hapart hends)
    rw [← List.append_assoc, ← hinput] at hleads
    have hread := execute_inNum_of_leads hleads ha size
    have hlength : blanks.length + sign.length + ds.length =
        (blanks ++ Numeral.render a).length := by
      rw [hrender, List.length_append, List.length_append, Nat.add_assoc]
    rw [hlength] at hread
    have hrest := ih { m.push a with input := m.input.advance (blanks ++ Numeral.render a).length }
      hblank (fun e he => hapart e (List.mem_of_mem_tail he))
      (by rw [Input.advance, ← List.drop_drop, hinput, List.drop_left])
    have htext : (listing ((blanks, a) :: entries)).length =
        (blanks ++ Numeral.render a).length + (listing entries).length := by
      rw [hlisting, List.length_append]
    rw [List.length_cons, List.replicate_succ, executeAll, hread, hrest, htext,
      ← Input.advance_advance]
    rfl

/-- The greatest word, the least one and zero, the first without blanks before it. -/
def threeWords : List (List UInt8 × Int64) :=
  [([], Int64.maxValue), ([32, 12], Int64.minValue), ([10], 0)]

theorem inNum_reads_back_threeWords :
    let text := listing threeWords ++ [43, 55]
    (∀ e ∈ threeWords, ∀ b ∈ e.1, isBlank b) ∧ (∀ e ∈ threeWords.tail, e.1 ≠ []) ∧
      (∀ b ∈ ([43, 55] : List UInt8).head?, ¬ isDigit b) ∧
      (start text.toArray).executeAll (List.replicate 3 (.inNum, 1)) =
        ({ start text.toArray with
          stack := .ofList [Int64.maxValue, Int64.minValue, 0]
          input := ⟨text.toArray, (listing threeWords).length⟩ }, [.done, .done, .done]) := by
  intro text
  have hblank : ∀ e ∈ threeWords, ∀ b ∈ e.1, isBlank b := by
    simp only [← List.all_eq_true]
    decide
  have hapart : ∀ e ∈ threeWords.tail, e.1 ≠ [] := by decide
  have hends : ∀ b ∈ ([43, 55] : List UInt8).head?, ¬ isDigit b := by
    rintro _ ⟨⟩
    decide
  refine ⟨hblank, hapart, hends, ?_⟩
  have hread := inNum_reads_back (start text.toArray) threeWords [43, 55] 1 hblank hapart hends rfl
  rw [Input.advance, start, Input.ofBytes, Nat.zero_add] at hread
  exact hread

end Machine

end Piet
