import Piet.Proofs.Machine.Execute
import Piet.Proofs.Machine.Numeral

/-!
# Instructions that are ignored

`Machine.Faults` lists what keeps an instruction from being carried out: too few words on the stack,
a divisor that is zero, a window of negative depth or deeper than the stack, and an input that has
no byte or no numeral to read.  `Machine.execute_outcome` says that an instruction is ignored for
exactly these reasons, and then leaves the whole machine alone, and that it fails for no reason but
an output without room.
-/

namespace Piet

/-- How many words an instruction takes from the stack or looks at. -/
def Instruction.operands : Instruction → ℕ
  | noop | push | inChar | inNum => 0
  | pop | not | duplicate | pointer | switch | outNum | outChar => 1
  | add | subtract | multiply | divide | mod | greater | roll => 2

namespace Sink

/-- There is room for all of some bytes, as there always is in a sink without a bound. -/
def HasRoom (s : Sink) (bytes : List UInt8) : Prop :=
  ∀ c ∈ s.capacity, bytes.length ≤ c - s.written.size

theorem write_eq_true_iff {s : Sink} {bytes : List UInt8} :
    (s.write bytes).2 = true ↔ s.HasRoom bytes := by
  rw [write, HasRoom]
  cases s.capacity with
  | none => simp
  | some c => simp

theorem hasRoom_nil (s : Sink) : s.HasRoom [] :=
  fun _ _ => Nat.zero_le _

end Sink

namespace Stack

variable {s : Stack} {l : List Int64}

theorem toList_eq_iff : s.toList = l ↔ s.fromTop = l.reverse :=
  List.reverse_eq_iff

theorem fromTop_of_toList {a b : Int64} (h : s.toList = l ++ [b, a]) :
    s.fromTop = a :: b :: l.reverse := by
  rw [toList_eq_iff.mp h, List.reverse_append]
  rfl

theorem toList_cons_cons (a b : Int64) (l : List Int64) :
    (⟨a :: b :: l⟩ : Stack).toList = l.reverse ++ [b, a] := by
  rw [toList_eq_iff, List.reverse_append, List.reverse_reverse]
  rfl

theorem exists_cons (h : 1 ≤ s.size) : ∃ a below, s = ⟨a :: below⟩ := by
  obtain ⟨a, below, hs⟩ := List.exists_cons_of_length_pos h
  exact ⟨a, below, congrArg Stack.mk hs⟩

theorem exists_cons_cons (h : 2 ≤ s.size) : ∃ a b below, s = ⟨a :: b :: below⟩ := by
  obtain ⟨a, l, rfl⟩ := exists_cons (Nat.one_le_of_lt h)
  obtain ⟨b, below, rfl⟩ := List.exists_cons_of_length_pos (Nat.le_of_succ_le_succ h)
  exact ⟨a, b, below, rfl⟩

/-- A window can be rolled unless it is deeper than the stack. -/
theorem roll?_eq_none_iff {depth : ℕ} {count : ℤ} :
    s.roll? depth count = none ↔ s.size < depth := by
  rw [roll?, List.splitAt_eq, size]
  simp only [List.length_take, ite_eq_right_iff, reduceCtorEq, imp_false]
  omega

end Stack

namespace Machine

variable {m m' : Machine} {i : Instruction} {size : ℕ} {fault : Fault}

/-- What keeps an instruction from being carried out. -/
inductive Faults (m : Machine) : Instruction → Fault → Prop
  | underflow {i : Instruction} (h : m.stack.size < i.operands) : Faults m i .stackUnderflow
  | divisor {i : Instruction} {below : List Int64} {b : Int64} (hi : i = .divide ∨ i = .mod)
      (h : m.stack.toList = below ++ [b, 0]) : Faults m i .divisionByZero
  | depth {below : List Int64} {depth count : Int64}
      (h : m.stack.toList = below ++ [depth, count])
      (hdepth : depth < 0 ∨ below.length < depth.toInt) : Faults m .roll (.rollDepth depth)
  | byte (h : m.input.bytes.size ≤ m.input.cursor) : Faults m .inChar .inputExhausted
  | numeral (h : ¬ ∃ (a : Int64) (blanks sign ds rest : List UInt8),
      Numeral.Leads (m.input.bytes.toList.drop m.input.cursor) blanks sign ds rest ∧
        a.toInt = Numeral.signed sign ds) : Faults m .inNum .inputExhausted

/-! ### When an instruction is ignored -/

/-- Where there are too few words, every instruction is ignored for that reason. -/
theorem attempt_of_short (h : m.stack.size < i.operands) :
    m.attempt size i = .error .stackUnderflow := by
  obtain ⟨⟨stack⟩, dp, cc, input, output⟩ := m
  cases i with
  | noop | push | inChar | inNum => exact absurd h (Nat.not_lt_zero _)
  | pop | not | duplicate | pointer | switch | outNum | outChar =>
    obtain rfl : stack = [] := List.length_eq_zero_iff.mp (Nat.lt_one_iff.mp h)
    rfl
  | add | subtract | multiply | divide | mod | greater | roll =>
    rcases stack with _ | ⟨a, _ | ⟨b, below⟩⟩
    · rfl
    · rfl
    · exact absurd h (Nat.not_lt.mpr (Nat.le_add_left 2 _))

theorem attempt_of_faults (h : m.Faults i fault) (size : ℕ) : m.attempt size i = .error fault := by
  cases h with
  | underflow h => exact attempt_of_short h
  | divisor hi h =>
    have hstack := Stack.fromTop_of_toList h
    rcases hi with rfl | rfl <;>
      simp [attempt, silent, binary, hstack, Except.map]
  | @depth below depth count h hdepth =>
    have hstack := Stack.fromTop_of_toList h
    have hroll : m.roll = .error (.rollDepth depth) := by
      simp only [roll, hstack]
      split
      · rfl
      · next hnonneg =>
        have hdeep : (below.length : ℤ) < depth.toInt := hdepth.resolve_left hnonneg
        have hnone : Stack.roll? ⟨below.reverse⟩ depth.toInt.toNat count.toInt = none := by
          rw [Stack.roll?_eq_none_iff, Stack.size, List.length_reverse]
          omega
        rw [hnone]
    simp [attempt, silent, hroll, Except.map]
  | byte h =>
    have hnone : m.input.next? = none := Array.getElem?_eq_none h
    simp [attempt, silent, readByte, hnone, Except.map]
  | numeral h =>
    have hnone : Numeral.read? m.input.rest = none := by
      rw [Option.eq_none_iff_forall_ne_some]
      rintro ⟨a, n⟩ hread
      rw [Input.rest_eq_drop] at hread
      obtain ⟨blanks, sign, ds, rest, hleads, hnumber, -⟩ := Numeral.read?_eq_some_iff.mp hread
      exact h ⟨a, blanks, sign, ds, rest, hleads, hnumber⟩
    simp [attempt, silent, readNumeral, hnone, Except.map]

theorem faults_of_attempt (h : m.attempt size i = .error fault) : m.Faults i fault := by
  rcases Nat.lt_or_ge m.stack.size i.operands with hshort | henough
  · rw [attempt_of_short hshort] at h
    cases h
    exact .underflow hshort
  obtain ⟨stack, dp, cc, input, output⟩ := m
  cases i with
  | noop | push => cases h
  | pop | not | duplicate | pointer | switch =>
    obtain ⟨a, below, rfl⟩ := Stack.exists_cons henough
    cases h
  | outNum | outChar =>
    obtain ⟨a, below, rfl⟩ := Stack.exists_cons henough
    simp only [attempt] at h
    rw [writeTop_cons rfl] at h
    cases h
  | add | subtract | multiply | greater =>
    obtain ⟨a, b, below, rfl⟩ := Stack.exists_cons_cons henough
    cases h
  | divide | mod =>
    obtain ⟨a, b, below, rfl⟩ := Stack.exists_cons_cons henough
    by_cases ha : a = 0
    · subst ha
      cases h
      exact .divisor (by decide) (Stack.toList_cons_cons _ _ _)
    · simp [attempt, silent, binary, ha, Except.map] at h
  | roll =>
    obtain ⟨count, depth, below, rfl⟩ := Stack.exists_cons_cons henough
    simp only [attempt, silent, roll] at h
    split at h
    · next hneg =>
      cases h
      exact .depth (Stack.toList_cons_cons _ _ _) (.inl hneg)
    · next hnonneg =>
      split at h
      · cases h
      · next hnone =>
        cases h
        refine .depth (Stack.toList_cons_cons _ _ _) (.inr ?_)
        have hdeep : below.length < depth.toInt.toNat := Stack.roll?_eq_none_iff.mp hnone
        rw [List.length_reverse]
        omega
  | inChar =>
    simp only [attempt, silent, readByte] at h
    split at h
    · cases h
    · next hnone =>
      cases h
      exact .byte (Array.getElem?_eq_none_iff.mp hnone)
  | inNum =>
    simp only [attempt, silent, readNumeral] at h
    split at h
    · cases h
    · next hnone =>
      cases h
      rw [Input.rest_eq_drop] at hnone
      refine .numeral ?_
      rintro ⟨a, blanks, sign, ds, rest, hleads, hnumber⟩
      have hread := Numeral.read?_eq_some_iff.mpr ⟨blanks, sign, ds, rest, hleads, hnumber, rfl⟩
      rw [hnone] at hread
      cases hread

theorem attempt_eq_error_iff (size : ℕ) : m.attempt size i = .error fault ↔ m.Faults i fault :=
  ⟨faults_of_attempt, fun h => attempt_of_faults h size⟩

/-! ### When the output is full -/

/-- An instruction that is ignored would write nothing. -/
theorem Faults.offered (h : m.Faults i fault) : m.offered i = [] := by
  cases h with
  | underflow hshort =>
    cases i with
    | outNum | outChar =>
      have hempty : m.stack.fromTop = [] := List.length_eq_zero_iff.mp (Nat.lt_one_iff.mp hshort)
      simp only [Machine.offered, Stack.peek?, hempty, List.head?_nil, Option.elim_none]
    | _ => rfl
  | divisor hi _ => rcases hi with rfl | rfl <;> rfl
  | depth _ _ => rfl
  | byte _ => rfl
  | numeral _ => rfl

theorem writeTop_outcome {bytes : Int64 → List UInt8} {o : Outcome}
    (h : m.writeTop bytes = .ok (m', o)) :
    ∃ a ∈ m.stack.peek?, o = .done ∧ m.output.HasRoom (bytes a) ∨
      o = .sinkFull ∧ ¬ m.output.HasRoom (bytes a) := by
  rcases hstack : m.stack.fromTop with _ | ⟨a, below⟩
  · rw [writeTop, pop, Stack.pop?, hstack] at h
    cases h
  · rw [writeTop_cons hstack] at h
    obtain ⟨-, rfl⟩ := Prod.mk.inj (Except.ok.inj h)
    refine ⟨a, by rw [Stack.peek?, hstack]; rfl, ?_⟩
    rw [← Sink.write_eq_true_iff]
    split
    · next hroom => exact .inl ⟨rfl, hroom⟩
    · next hroom => exact .inr ⟨rfl, hroom⟩

/-- An instruction that is carried out fails exactly if there is no room for what it writes. -/
theorem attempt_outcome {o : Outcome} (h : m.attempt size i = .ok (m', o)) :
    o = .done ∧ m.output.HasRoom (m.offered i) ∨
      o = .sinkFull ∧ ¬ m.output.HasRoom (m.offered i) := by
  rcases attempt_cases i with ⟨bytes, hwrites⟩ | hsilent
  · obtain ⟨hattempt, hoffered⟩ := hwrites m size
    rw [hattempt] at h
    obtain ⟨a, ha, hroom⟩ := writeTop_outcome h
    rwa [hoffered, Option.mem_def.mp ha, Option.elim_some]
  · obtain ⟨hattempt, hoffered⟩ := hsilent m size
    rw [hattempt] at h
    rw [hoffered]
    cases hs : m.silent size i with
    | error fault => rw [hs] at h; cases h
    | ok m₁ =>
      rw [hs] at h
      cases h
      exact .inl ⟨rfl, m.output.hasRoom_nil⟩

/-- **Instructions are ignored for a reason and without a trace.**  An instruction is ignored
exactly if a fault keeps it from being carried out, and then nothing of the machine changes.
Nothing but an output without room for what is to be written is an error. -/
theorem execute_outcome (m : Machine) (i : Instruction) (size : ℕ) :
    ((m.execute i size).2 = .sinkFull ↔ ¬ m.output.HasRoom (m.offered i)) ∧
      ∀ fault, ((m.execute i size).2 = .ignored fault ↔ m.Faults i fault) ∧
        (m.Faults i fault → (m.execute i size).1 = m) := by
  rcases hattempt : m.attempt size i with fault | ⟨m', o⟩
  · have hexecute : m.execute i size = (m, .ignored fault) := by rw [execute, hattempt]
    have hfaults := faults_of_attempt hattempt
    rw [hexecute]
    refine ⟨?_, fun fault' => ⟨?_, fun _ => rfl⟩⟩
    · rw [hfaults.offered]
      exact iff_of_false Outcome.noConfusion (not_not.mpr m.output.hasRoom_nil)
    · rw [← attempt_eq_error_iff size, hattempt]
      simp
  · have hexecute : m.execute i size = (m', o) := by rw [execute, hattempt]
    have houtcome := attempt_outcome hattempt
    have hnone : ∀ fault, ¬ m.Faults i fault := by
      intro fault hfaults
      rw [attempt_of_faults hfaults] at hattempt
      cases hattempt
    rw [hexecute]
    refine ⟨?_, fun fault => ⟨?_, fun hfaults => absurd hfaults (hnone fault)⟩⟩
    · rcases houtcome with ⟨rfl, hroom⟩ | ⟨rfl, hroom⟩ <;> simp [hroom]
    · rcases houtcome with ⟨rfl, -⟩ | ⟨rfl, -⟩ <;> simp [hnone]

/-- A machine that is told to roll four words, but has only three. -/
def rollTooDeep : Machine :=
  { start #[] with stack := .ofList [1, 2, 3, 4, 1] }

theorem execute_outcome_rollTooDeep :
    rollTooDeep.Faults .roll (.rollDepth 4) ∧
      (rollTooDeep.execute .roll 1).2 = .ignored (.rollDepth 4) ∧
      (rollTooDeep.execute .roll 1).1 = rollTooDeep := by
  have hfaults : rollTooDeep.Faults .roll (.rollDepth 4) :=
    @Faults.depth _ [1, 2, 3] 4 1 rfl (.inr (by decide))
  obtain ⟨hiff, hstays⟩ := (execute_outcome rollTooDeep .roll 1).2 (.rollDepth 4)
  exact ⟨hfaults, hiff.mpr hfaults, hstays hfaults⟩

end Machine

end Piet
