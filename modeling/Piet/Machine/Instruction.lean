import Piet.Color.Basic

/-!
# Instructions

A program has no text: moving from one block into another executes the instruction that the
change of shade stands for.  `Instruction.ofChange` and `Instruction.change` are inverse to
each other, so every change means exactly one instruction.
-/

namespace Piet

/-- The instructions of the machine. -/
inductive Instruction where
  | noop
  | add
  | divide
  | greater
  | duplicate
  | inChar
  | push
  | subtract
  | mod
  | pointer
  | roll
  | outNum
  | pop
  | multiply
  | not
  | switch
  | inNum
  | outChar
deriving DecidableEq, Inhabited

namespace Instruction

/-- The instructions by lightness change, then by hue change. -/
def table : Vector (Vector Instruction 6) 3 :=
  #v[#v[noop, add, divide, greater, duplicate, inChar],
    #v[push, subtract, mod, pointer, roll, outNum],
    #v[pop, multiply, not, switch, inNum, outChar]]

/-- Every instruction, in the order of the table. -/
def all : List Instruction :=
  table.toList.flatMap Vector.toList

/-- The instruction that a change of shade stands for. -/
def ofChange (c : Change) : Instruction :=
  table[c.lightness][c.hue]

/-- The change of shade that stands for an instruction. -/
def change : Instruction → Change
  | noop => .ofInts 0 0
  | add => .ofInts 0 1
  | divide => .ofInts 0 2
  | greater => .ofInts 0 3
  | duplicate => .ofInts 0 4
  | inChar => .ofInts 0 5
  | push => .ofInts 1 0
  | subtract => .ofInts 1 1
  | mod => .ofInts 1 2
  | pointer => .ofInts 1 3
  | roll => .ofInts 1 4
  | outNum => .ofInts 1 5
  | pop => .ofInts 2 0
  | multiply => .ofInts 2 1
  | not => .ofInts 2 2
  | switch => .ofInts 2 3
  | inNum => .ofInts 2 4
  | outChar => .ofInts 2 5

/-- The written name of an instruction. -/
def name : Instruction → String
  | noop => "noop"
  | add => "add"
  | divide => "divide"
  | greater => "greater"
  | duplicate => "duplicate"
  | inChar => "in-char"
  | push => "push"
  | subtract => "subtract"
  | mod => "mod"
  | pointer => "pointer"
  | roll => "roll"
  | outNum => "out-num"
  | pop => "pop"
  | multiply => "multiply"
  | not => "not"
  | switch => "switch"
  | inNum => "in-num"
  | outChar => "out-char"

@[simp]
theorem ofChange_change (i : Instruction) : ofChange i.change = i := by
  cases i <;> rfl

@[simp]
theorem change_ofChange (c : Change) : (ofChange c).change = c := by
  have key : ∀ (l : Fin 3) (h : Fin 6), (ofChange ⟨l, h⟩).change = ⟨l, h⟩ := by decide
  exact key c.lightness c.hue

end Instruction

end Piet
