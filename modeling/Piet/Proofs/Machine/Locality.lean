import Piet.Proofs.Machine.Fault
import Piet.Proofs.Machine.Roll

/-!
# What lies below on the stack

An instruction that finds enough words on the stack touches nothing below them: it does the same on
the same words laid on top of others, and leaves those where they are (`Machine.execute_above`).
Other faults than those of a stack that is too shallow occur at the same places, since what they
depend on is on top or not on the stack at all.

`Machine.executeAll_local` says so of any number of instructions one after another.
-/

namespace Piet

/-- The instruction asked for more words than there were, or for a window of negative depth. -/
def Fault.Shallow : Fault → Prop
  | stackUnderflow | rollDepth _ => True
  | divisionByZero | inputExhausted => False

/-- An instruction was ignored because the stack was too shallow for it. -/
def Outcome.Shallow : Outcome → Prop
  | ignored fault => fault.Shallow
  | done | sinkFull => False

instance : DecidablePred Fault.Shallow
  | .stackUnderflow | .rollDepth _ => .isTrue trivial
  | .divisionByZero | .inputExhausted => .isFalse id

instance : DecidablePred Outcome.Shallow
  | .ignored fault => inferInstanceAs (Decidable fault.Shallow)
  | .done | .sinkFull => .isFalse id

namespace Stack

variable {s p : Stack}

/-- The words of a stack, laid on top of another one. -/
def above (s p : Stack) : Stack :=
  ⟨s.fromTop ++ p.fromTop⟩

@[simp]
theorem toList_above (s p : Stack) : (s.above p).toList = p.toList ++ s.toList :=
  List.reverse_append

/-- A window can be rolled wherever it lies. -/
theorem roll?_above {depth : ℕ} (h : depth ≤ s.size) (count : ℤ) (p : Stack) :
    (s.above p).roll? depth count = (s.roll? depth count).map fun s => s.above p := by
  obtain ⟨l⟩ := s
  have hlength : (l.take depth).length = depth := List.length_take_of_le h
  have hroll : ∀ q, roll? ⟨l.take depth ++ q⟩ depth count =
      some ⟨turned (l.take depth) count ++ q⟩ := by
    intro q
    have happend := roll?_append (l.take depth) q count
    rwa [hlength] at happend
  have habove : above ⟨l⟩ p = ⟨l.take depth ++ (l.drop depth ++ p.fromTop)⟩ := by
    rw [above, ← List.append_assoc, List.take_append_drop]
  have hself := hroll (l.drop depth)
  rw [List.take_append_drop] at hself
  rw [habove, hroll, hself, Option.map_some, above, List.append_assoc]

end Stack

namespace Machine

variable {m : Machine} {i : Instruction} {size : ℕ} {script : List (Instruction × ℕ)}

/-- The machine with other words below those on its stack. -/
def above (m : Machine) (p : Stack) : Machine :=
  { m with stack := m.stack.above p }

/-! ### One instruction -/

theorem silent_above (hdeep : i.operands ≤ m.stack.size)
    (hroll : ∀ depth, ¬ m.Faults i (.rollDepth depth)) (p : Stack) (size : ℕ) :
    (m.above p).silent size i = (m.silent size i).map fun m => m.above p := by
  obtain ⟨stack, dp, cc, input, output⟩ := m
  cases i with
  | noop | push | outNum | outChar => rfl
  | pop | not | duplicate | pointer | switch =>
    obtain ⟨a, below, rfl⟩ := Stack.exists_cons hdeep
    rfl
  | add | subtract | multiply | greater =>
    obtain ⟨a, b, below, rfl⟩ := Stack.exists_cons_cons hdeep
    rfl
  | divide | mod =>
    obtain ⟨a, b, below, rfl⟩ := Stack.exists_cons_cons hdeep
    by_cases ha : a = 0 <;>
      simp [silent, binary, ha, Except.map, above, Stack.above]
  | roll =>
    obtain ⟨count, depth, below, rfl⟩ := Stack.exists_cons_cons hdeep
    have hfits : ¬ (depth < 0 ∨ (below.reverse.length : ℤ) < depth.toInt) := fun h =>
      hroll depth (.depth (Stack.toList_cons_cons _ _ _) h)
    obtain ⟨hnonneg, hwindow⟩ := not_or.mp hfits
    have hsize : depth.toInt.toNat ≤ below.length := by
      rw [List.length_reverse] at hwindow
      omega
    have habove := Stack.roll?_above (s := ⟨below⟩) hsize count.toInt p
    simp only [silent, roll, above, Stack.above, List.cons_append, if_neg hnonneg] at habove ⊢
    rw [habove]
    cases Stack.roll? ⟨below⟩ depth.toInt.toNat count.toInt <;> rfl
  | inChar =>
    simp only [silent, readByte, above]
    cases input.next? <;> rfl
  | inNum =>
    simp only [silent, readNumeral, above]
    cases Numeral.read? input.rest <;> rfl

theorem writeTop_above {bytes : Int64 → List UInt8}
    (hdeep : m.writeTop bytes ≠ .error .stackUnderflow) (p : Stack) :
    (m.above p).writeTop bytes = (m.writeTop bytes).map (Prod.map (fun m => m.above p) id) := by
  obtain ⟨⟨_ | ⟨a, below⟩⟩, dp, cc, input, output⟩ := m
  · exact absurd rfl hdeep
  · rw [writeTop_cons rfl, writeTop_cons rfl]
    rfl

theorem attempt_above (hdeep : i.operands ≤ m.stack.size)
    (hroll : ∀ depth, ¬ m.Faults i (.rollDepth depth)) (p : Stack) (size : ℕ) :
    (m.above p).attempt size i =
      (m.attempt size i).map (Prod.map (fun m => m.above p) id) := by
  rcases attempt_cases i with ⟨bytes, hwrites⟩ | hsilent
  · have hattempt := (hwrites m size).1
    rw [(hwrites _ size).1, hattempt]
    refine writeTop_above (fun hshort => ?_) p
    cases faults_of_attempt (hattempt.trans hshort) with
    | underflow hlt => exact Nat.not_lt.mpr hdeep hlt
  · rw [(hsilent _ size).1, (hsilent m size).1, silent_above hdeep hroll]
    cases m.silent size i <;> rfl

/-- **An instruction leaves alone what lies below**, if it finds enough words. -/
theorem execute_above (h : ¬ (m.execute i size).2.Shallow) (p : Stack) :
    (m.above p).execute i size = ((m.execute i size).1.above p, (m.execute i size).2) := by
  have hfaults : ∀ fault : Fault, fault.Shallow → ¬ m.Faults i fault := by
    intro fault hshallow hfaults
    rw [execute, attempt_of_faults hfaults size] at h
    exact h hshallow
  have hdeep : i.operands ≤ m.stack.size :=
    Nat.le_of_not_lt fun hshort => hfaults .stackUnderflow trivial (.underflow hshort)
  have hroll : ∀ depth, ¬ m.Faults i (.rollDepth depth) := fun depth =>
    hfaults (.rollDepth depth) trivial
  rw [execute, execute, attempt_above hdeep hroll]
  cases m.attempt size i <;> rfl

/-! ### Instructions in a row -/

/-- Executes instructions one after another, each with the size of block that it is given, whether
or not those before it were carried out, and tells how each of them ended. -/
def executeAll (m : Machine) : List (Instruction × ℕ) → Machine × List Outcome
  | [] => (m, [])
  | (i, size) :: script =>
    let r := m.execute i size
    let r' := r.1.executeAll script
    (r'.1, r.2 :: r'.2)

theorem executeAll_above (h : ∀ o ∈ (m.executeAll script).2, ¬ o.Shallow) (p : Stack) :
    (m.above p).executeAll script =
      ((m.executeAll script).1.above p, (m.executeAll script).2) := by
  induction script generalizing m with
  | nil => rfl
  | cons step script ih =>
    obtain ⟨i, size⟩ := step
    have hfirst : ¬ (m.execute i size).2.Shallow := h _ List.mem_cons_self
    have hrest := ih fun o ho => h o (List.mem_cons_of_mem _ ho)
    simp only [executeAll, execute_above hfirst, hrest]

/-- **Instructions leave alone what lies below.**  If none of some instructions finds the stack too
shallow, they do the same with other words `p` below it, and leave those where they are.  What they
read, write and decide stays the same, and so do the faults for which some of them are ignored. -/
theorem executeAll_local (m : Machine) (p : Stack) (script : List (Instruction × ℕ))
    (hdeep : ∀ o ∈ (m.executeAll script).2, ¬ o.Shallow) :
    let r := m.executeAll script
    let r' := (m.above p).executeAll script
    r'.1.stack.toList = p.toList ++ r.1.stack.toList ∧ r'.1.output = r.1.output ∧
      r'.1.dp = r.1.dp ∧ r'.1.cc = r.1.cc ∧ r'.1.input = r.1.input ∧ r'.2 = r.2 := by
  intro r r'
  have hr : r' = (r.1.above p, r.2) := executeAll_above hdeep p
  rw [hr]
  exact ⟨Stack.toList_above _ _, rfl, rfl, rfl, rfl, rfl⟩

/-- A script that rolls three words, divides by zero, reads past the end of the input, turns the
pointer and writes. -/
def rollsAndFaults : List (Instruction × ℕ) :=
  [(.push, 3), (.push, 2), (.roll, 1), (.divide, 1), (.inChar, 1), (.pop, 1), (.pointer, 1),
    (.outNum, 1)]

theorem executeAll_local_rollsAndFaults :
    let m : Machine := { start #[] with stack := .ofList [0, 7, 5] }
    let r := m.executeAll rollsAndFaults
    let r' := (m.above (.ofList [1, 2])).executeAll rollsAndFaults
    (∀ o ∈ r.2, ¬ o.Shallow) ∧ r'.1.stack.toList = [1, 2] ∧
      r'.2 = [.done, .done, .done, .ignored .divisionByZero, .ignored .inputExhausted, .done,
        .done, .done] := by
  intro m r r'
  have hdeep : ∀ o ∈ r.2, ¬ o.Shallow := by decide
  have hlocal := executeAll_local m (.ofList [1, 2]) rollsAndFaults hdeep
  obtain ⟨hstack, -, -, -, -, houtcomes⟩ := hlocal
  have hempty : r.1.stack.toList = [] := by decide
  refine ⟨hdeep, ?_, houtcomes.trans (by decide)⟩
  rw [hempty, List.append_nil, Stack.toList_ofList] at hstack
  exact hstack

end Machine

end Piet
