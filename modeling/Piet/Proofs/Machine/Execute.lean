import Mathlib.Algebra.Ring.Nat
import Mathlib.Tactic.Common
import Piet.Machine.Basic

/-!
# What an instruction leaves alone

An instruction writes the top word or writes nothing (`Machine.attempt_cases`).  One that writes
nothing leaves the output alone, and only `pointer` and `switch` change the direction and the
chooser (`Machine.execute_heading`).  An output without a bound is never full and stays without a
bound (`Machine.execute_unbounded`).  Whatever is executed, what was written stays written
(`Machine.written_execute`).

What an instruction does does not depend on what has been written.  So a machine whose output has
room for a number of bytes only (`Machine.capped`) goes the way of one without such a bound: after
an instruction it holds as much of the output as fits, and it differs in nothing else
(`Machine.execute_capped`).  It tells of a full output exactly where bytes were to be written that
did not all fit.
-/

namespace Piet

namespace Machine

variable {m m' : Machine} {i : Instruction} {size : ℕ}

/-- Two machines differ in their stacks at most. -/
def OnlyStack (m m' : Machine) : Prop :=
  ∃ s, m' = { m with stack := s }

@[simp]
theorem execute_noop (m : Machine) (size : ℕ) : m.execute .noop size = (m, .done) := rfl

/-- A size that fits a word stands for itself. -/
theorem sizeWord_eq (h : size < 2 ^ 63) : sizeWord size = Int64.ofNat size := by
  have hmax : Int64.maxValue.toInt.toNat = 2 ^ 63 - 1 := by decide
  rw [sizeWord, hmax, Nat.min_eq_left (by omega)]

theorem toInt_sizeWord (h : size < 2 ^ 63) : (sizeWord size).toInt = size := by
  rw [sizeWord_eq h]
  exact Int64.toInt_ofNat_of_lt h

theorem onlyStack_push (m : Machine) (a : Int64) : m.OnlyStack (m.push a) :=
  ⟨_, rfl⟩

theorem eq_of_pop {a : Int64} (h : m.pop = .ok (a, m')) : ∃ s, m' = { m with stack := s } := by
  rw [pop] at h
  split at h <;> cases h
  exact ⟨_, rfl⟩

/-- What follows a pop works on a machine with another stack. -/
theorem eq_of_pop_map {α : Type} {f : Int64 × Machine → α} {r : α} (h : m.pop.map f = .ok r) :
    ∃ a s, f (a, { m with stack := s }) = r := by
  cases hp : m.pop with
  | error e => rw [hp] at h; cases h
  | ok q =>
    obtain ⟨a, m₁⟩ := q
    obtain ⟨s, rfl⟩ := eq_of_pop hp
    rw [hp] at h
    exact ⟨a, s, Except.ok.inj h⟩

theorem onlyStack_of_binary {f : Int64 → Int64 → Except Fault Int64} (h : m.binary f = .ok m') :
    m.OnlyStack m' := by
  rw [binary] at h
  split at h
  · split at h <;> cases h
    exact ⟨_, rfl⟩
  · cases h

theorem onlyStack_of_roll (h : m.roll = .ok m') : m.OnlyStack m' := by
  rw [roll] at h
  split at h
  · split at h
    · cases h
    · split at h <;> cases h
      exact ⟨_, rfl⟩
  · cases h

/-- The instructions that turn the pointer or flip its chooser. -/
def Steers (i : Instruction) : Prop :=
  i = .pointer ∨ i = .switch

instance (i : Instruction) : Decidable (Steers i) :=
  inferInstanceAs (Decidable (_ ∨ _))

/-- Whether an instruction is carried out or not, the output is left alone unless it writes, and
the heading unless it steers. -/
theorem silent_frame (h : m.silent size i = .ok m') :
    m'.output = m.output ∧ (¬ Steers i → m'.dp = m.dp ∧ m'.cc = m.cc) := by
  have frame : m.OnlyStack m' → m'.output = m.output ∧
      (¬ Steers i → m'.dp = m.dp ∧ m'.cc = m.cc) := by
    rintro ⟨s, rfl⟩
    exact ⟨rfl, fun _ => ⟨rfl, rfl⟩⟩
  cases i with
  | push => cases h; exact frame (onlyStack_push _ _)
  | pop =>
    obtain ⟨a, s, rfl⟩ := eq_of_pop_map h
    exact frame ⟨_, rfl⟩
  | add | subtract | multiply | divide | mod | greater =>
    simp only [silent] at h
    exact frame (onlyStack_of_binary h)
  | not =>
    obtain ⟨a, s, rfl⟩ := eq_of_pop_map h
    exact frame ⟨_, rfl⟩
  | duplicate =>
    simp only [silent] at h
    split at h <;> cases h
    exact frame (onlyStack_push _ _)
  | pointer =>
    obtain ⟨a, s, rfl⟩ := eq_of_pop_map h
    exact ⟨rfl, fun hst => absurd (.inl rfl) hst⟩
  | switch =>
    obtain ⟨a, s, rfl⟩ := eq_of_pop_map h
    exact ⟨rfl, fun hst => absurd (.inr rfl) hst⟩
  | roll => exact frame (onlyStack_of_roll h)
  | inChar =>
    simp only [silent, readByte] at h
    split at h <;> cases h
    exact ⟨rfl, fun _ => ⟨rfl, rfl⟩⟩
  | inNum =>
    simp only [silent, readNumeral] at h
    split at h <;> cases h
    exact ⟨rfl, fun _ => ⟨rfl, rfl⟩⟩
  | noop | outNum | outChar => cases h; exact ⟨rfl, fun _ => ⟨rfl, rfl⟩⟩

/-- What an instruction that writes can lead to, on an output without a bound. -/
theorem writeTop_frame {bytes : Int64 → List UInt8} {o : Outcome}
    (h : m.writeTop bytes = .ok (m', o)) :
    (m'.dp = m.dp ∧ m'.cc = m.cc) ∧
      (m.output.capacity = none → m'.output.capacity = none ∧ o = .done) := by
  rw [writeTop] at h
  cases hp : m.pop with
  | error e => rw [hp] at h; cases h
  | ok r =>
    obtain ⟨a, m₁⟩ := r
    obtain ⟨s, rfl⟩ := eq_of_pop hp
    rw [hp] at h
    simp only [Sink.write] at h
    cases hc : m.output.capacity with
    | none =>
      rw [hc] at h
      cases h
      exact ⟨⟨rfl, rfl⟩, fun _ => ⟨rfl, rfl⟩⟩
    | some n =>
      rw [hc] at h
      simp only at h
      split at h <;> cases h <;>
        exact ⟨⟨rfl, rfl⟩, fun hnone => absurd hnone (Option.some_ne_none n)⟩

/-- The bytes that an instruction would write. -/
def offered (m : Machine) : Instruction → List UInt8
  | .outNum => m.stack.peek?.elim [] Numeral.render
  | .outChar => m.stack.peek?.elim [] fun a => [byteOf a]
  | _ => []

/-- An instruction writes the top word or writes nothing. -/
theorem attempt_cases (i : Instruction) :
    (∃ bytes : Int64 → List UInt8, ∀ (m : Machine) (size : ℕ),
      m.attempt size i = m.writeTop bytes ∧ m.offered i = m.stack.peek?.elim [] bytes) ∨
      ∀ (m : Machine) (size : ℕ),
        m.attempt size i = (m.silent size i).map (fun m => (m, .done)) ∧ m.offered i = [] := by
  cases i with
  | outNum | outChar => exact .inl ⟨_, fun _ _ => ⟨rfl, rfl⟩⟩
  | _ => exact .inr fun _ _ => ⟨rfl, rfl⟩

/-- What any instruction that is carried out can lead to. -/
theorem attempt_frame {o : Outcome} (h : m.attempt size i = .ok (m', o)) :
    (¬ Steers i → m'.dp = m.dp ∧ m'.cc = m.cc) ∧
      (m.output.capacity = none → m'.output.capacity = none ∧ o = .done) := by
  rcases attempt_cases i with ⟨bytes, hwrites⟩ | hsilent
  · rw [(hwrites m size).1] at h
    exact (writeTop_frame h).imp_left fun hhead _ => hhead
  · rw [(hsilent m size).1] at h
    cases hs : m.silent size i with
    | error e => rw [hs] at h; cases h
    | ok m₁ =>
      rw [hs] at h
      cases h
      obtain ⟨hout, hhead⟩ := silent_frame hs
      exact ⟨hhead, fun hnone => ⟨hout ▸ hnone, rfl⟩⟩

/-- **Only `pointer` and `switch` steer.** -/
theorem execute_heading (hi : ¬ Steers i) :
    (m.execute i size).1.dp = m.dp ∧ (m.execute i size).1.cc = m.cc := by
  rw [execute]
  split
  · next result h => exact (attempt_frame h).1 hi
  · exact ⟨rfl, rfl⟩

/-- What fills the output does not steer. -/
theorem not_steers_of_sinkFull (h : (m.execute i size).2 = .sinkFull) : ¬ Steers i := by
  have hattempt : ∀ i, m.attempt size i = (m.silent size i).map (fun m => (m, .done)) →
      (m.execute i size).2 ≠ .sinkFull := by
    intro i hi
    rw [execute, hi]
    cases m.silent size i with
    | error fault => exact Outcome.noConfusion
    | ok m' => exact Outcome.noConfusion
  rintro (rfl | rfl)
  · exact hattempt .pointer rfl h
  · exact hattempt .switch rfl h

/-- **An output without a bound is never full.** -/
theorem execute_unbounded (hm : m.output.capacity = none) :
    (m.execute i size).1.output.capacity = none ∧ (m.execute i size).2 ≠ .sinkFull := by
  rw [execute]
  split
  · next result h =>
    obtain ⟨hcap, hdone⟩ := (attempt_frame h).2 hm
    exact ⟨hcap, fun hfull => Outcome.noConfusion (hdone.symm.trans hfull)⟩
  · exact ⟨hm, Outcome.noConfusion⟩

/-! ### What was written stays written -/

theorem written_write (s : Sink) (bytes : List UInt8) :
    s.written.toList <+: (s.write bytes).1.written.toList := by
  have happend : ∀ l : List UInt8, s.written.toList <+: (s.written.appendList l).toList :=
    fun l => ⟨l, Array.toList_appendList.symm⟩
  rw [Sink.write]
  split
  · exact happend _
  · exact happend _

theorem written_writeTop {bytes : Int64 → List UInt8} {o : Outcome}
    (h : m.writeTop bytes = .ok (m', o)) :
    m.output.written.toList <+: m'.output.written.toList := by
  rw [writeTop] at h
  cases hp : m.pop with
  | error e => rw [hp] at h; cases h
  | ok r =>
    obtain ⟨a, m₁⟩ := r
    obtain ⟨s, rfl⟩ := eq_of_pop hp
    rw [hp] at h
    have hwrite := written_write m.output (bytes a)
    simp only at h
    split at h
    · next heq =>
      rw [heq] at hwrite
      cases h
      exact hwrite
    · next heq =>
      rw [heq] at hwrite
      cases h
      exact hwrite

theorem written_attempt {o : Outcome} (h : m.attempt size i = .ok (m', o)) :
    m.output.written.toList <+: m'.output.written.toList := by
  rcases attempt_cases i with ⟨bytes, hwrites⟩ | hsilent
  · rw [(hwrites m size).1] at h
    exact written_writeTop h
  · rw [(hsilent m size).1] at h
    cases hs : m.silent size i with
    | error e => rw [hs] at h; cases h
    | ok m₁ =>
      rw [hs] at h
      cases h
      exact (silent_frame hs).1 ▸ List.prefix_rfl

/-- **The output only grows**, whether an instruction is carried out, ignored or cut short. -/
theorem written_execute (m : Machine) (i : Instruction) (size : ℕ) :
    m.output.written.toList <+: (m.execute i size).1.output.written.toList := by
  rw [execute]
  split
  · next result h => exact written_attempt h
  · exact List.prefix_rfl

end Machine

/-! ### An output that fills up -/

namespace Sink

variable {s s' : Sink} {bytes : List UInt8}

/-- The sink that takes `n` bytes in all, after the same bytes have been offered to it. -/
def capped (s : Sink) (n : ℕ) : Sink :=
  ⟨s.written.take n, some n⟩

/-- Some bytes have been added that are not all among the first `n`. -/
def Spills (n : ℕ) (s s' : Sink) : Prop :=
  s.written.size < s'.written.size ∧ n < s'.written.size

instance (n : ℕ) (s s' : Sink) : Decidable (Spills n s s') :=
  inferInstanceAs (Decidable (_ ∧ _))

theorem not_spills_self (n : ℕ) (s : Sink) : ¬ Spills n s s :=
  fun h => Nat.lt_irrefl _ h.1

theorem write_unbounded (hs : s.capacity = none) (bytes : List UInt8) :
    s.write bytes = ({ s with written := s.written.appendList bytes }, true) := by
  rw [write, hs]

/-- **A capped sink takes what fits**, and says whether that was all. -/
theorem write_capped (hs : s.capacity = none) (n : ℕ) (bytes : List UInt8) :
    (s.capped n).write bytes =
      ((s.write bytes).1.capped n, decide (¬ Spills n s (s.write bytes).1)) := by
  have hsize : (s.written.take n).size = min n s.written.size := by simp
  have hroom : n - min n s.written.size = n - s.written.size := by omega
  have hcapped : (s.capped n).write bytes =
      (⟨(s.written.take n).appendList (bytes.take (n - (s.written.take n).size)), some n⟩,
        decide (bytes.length ≤ n - (s.written.take n).size)) := rfl
  rw [hcapped, write_unbounded hs, hsize, hroom]
  refine Prod.ext ?_ ?_
  · have hwritten : (s.written.take n).appendList (bytes.take (n - s.written.size)) =
        (s.written.appendList bytes).take n := by
      apply Array.toList_inj.mp
      simp [List.take_append]
    rw [hwritten]
    rfl
  · have hlength : (s.written.appendList bytes).size = s.written.size + bytes.length := by
      rw [Array.appendList_eq_append, ← Array.length_toList, Array.toList_appendList,
        List.length_append, Array.length_toList]
    refine decide_eq_decide.mpr ?_
    rw [Spills, hlength]
    omega

end Sink

namespace Machine

variable {m m' : Machine} {i : Instruction} {size : ℕ}

/-- The machine whose output takes `n` bytes in all, after the same instructions. -/
def capped (m : Machine) (n : ℕ) : Machine :=
  { m with output := m.output.capped n }

/-- An instruction that writes nothing does not look at the output. -/
theorem silent_output (m : Machine) (s : Sink) (size : ℕ) (i : Instruction) :
    ({ m with output := s } : Machine).silent size i =
      (m.silent size i).map fun m => { m with output := s } := by
  obtain ⟨⟨stack⟩, dp, cc, input, output⟩ := m
  cases i with
  | noop | push | outNum | outChar => rfl
  | pop | not | duplicate | pointer | switch => cases stack <;> rfl
  | add | subtract | multiply | greater =>
    rcases stack with _ | ⟨a, _ | ⟨b, below⟩⟩ <;> rfl
  | divide | mod =>
    rcases stack with _ | ⟨a, _ | ⟨b, below⟩⟩
    · rfl
    · rfl
    · by_cases ha : a = 0 <;> simp [silent, binary, ha, Except.map]
  | roll =>
    rcases stack with _ | ⟨a, _ | ⟨b, below⟩⟩
    · rfl
    · rfl
    · simp only [silent, roll]
      split
      · rfl
      · cases Stack.roll? ⟨below⟩ b.toInt.toNat a.toInt <;> rfl
  | inChar =>
    simp only [silent, readByte]
    cases input.next? <;> rfl
  | inNum =>
    simp only [silent, readNumeral]
    cases Numeral.read? input.rest <;> rfl

/-- What a machine and its outcome become if the output takes `n` bytes in all. -/
def cut (n : ℕ) (m : Machine) (r : Machine × Outcome) : Machine × Outcome :=
  (r.1.capped n, if Sink.Spills n m.output r.1.output then .sinkFull else r.2)

theorem cut_of_output_eq {r : Machine × Outcome} (n : ℕ) (h : r.1.output = m.output) :
    cut n m r = (r.1.capped n, r.2) := by
  rw [cut, h, if_neg (Sink.not_spills_self n m.output)]

/-- A write takes its word off the stack, whether it fits or not. -/
theorem writeTop_cons {a : Int64} {below : List Int64} (hstack : m.stack.fromTop = a :: below)
    (bytes : Int64 → List UInt8) :
    m.writeTop bytes = .ok ({ m with
      stack := ⟨below⟩
      output := (m.output.write (bytes a)).1 },
      if (m.output.write (bytes a)).2 then .done else .sinkFull) := by
  obtain ⟨⟨stack⟩, dp, cc, input, output⟩ := m
  obtain rfl : stack = a :: below := hstack
  simp only [writeTop, pop, Stack.pop?]
  rcases output.write (bytes a) with ⟨s, _ | _⟩ <;> rfl

theorem writeTop_capped (hm : m.output.capacity = none) (n : ℕ) (bytes : Int64 → List UInt8) :
    (m.capped n).writeTop bytes = (m.writeTop bytes).map (cut n m) := by
  rcases hstack : m.stack.fromTop with _ | ⟨a, below⟩
  · obtain ⟨⟨stack⟩, dp, cc, input, output⟩ := m
    obtain rfl : stack = [] := hstack
    rfl
  · have hstack' : (m.capped n).stack.fromTop = a :: below := hstack
    have hwrite : (m.capped n).output.write (bytes a) = _ := Sink.write_capped hm n (bytes a)
    have hfits : (m.output.write (bytes a)).2 = true := by rw [Sink.write_unbounded hm]
    rw [writeTop_cons hstack, writeTop_cons hstack', hwrite, hfits]
    by_cases hspills : Sink.Spills n m.output (m.output.write (bytes a)).1 <;>
      simp [hspills, Except.map, cut, capped]

theorem attempt_capped (hm : m.output.capacity = none) (n : ℕ) (size : ℕ) (i : Instruction) :
    (m.capped n).attempt size i = (m.attempt size i).map (cut n m) := by
  rcases attempt_cases i with ⟨bytes, hwrites⟩ | hsilent
  · rw [(hwrites _ size).1, (hwrites m size).1]
    exact writeTop_capped hm n bytes
  · rw [(hsilent _ size).1, (hsilent m size).1, capped, silent_output]
    rcases hsilent : m.silent size i with fault | m'
    · rfl
    · have houtput : m'.output = m.output := (silent_frame hsilent).1
      have hcut : cut n m (m', .done) = (m'.capped n, .done) := cut_of_output_eq n houtput
      rw [capped, houtput] at hcut
      exact congrArg Except.ok hcut.symm

/-- **A capped output changes nothing but what it holds**, and the outcome only where bytes were to
be written that did not all fit. -/
theorem execute_capped (hm : m.output.capacity = none) (n : ℕ) (i : Instruction) (size : ℕ) :
    (m.capped n).execute i size = cut n m (m.execute i size) := by
  rw [execute, execute, attempt_capped hm]
  rcases m.attempt size i with fault | r
  · exact (cut_of_output_eq (r := (m, .ignored fault)) n rfl).symm
  · rfl

end Machine

end Piet
