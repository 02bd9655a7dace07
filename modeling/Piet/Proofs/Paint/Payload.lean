import Piet.Proofs.Machine.Division
import Piet.Proofs.Paint.Stroke

/-!
# What the strokes of a byte do

The strokes of a byte are one white cell, a block as large as the byte (or one cell, if that is
zero), and instructions that leave the heading alone (`Payload.byteStrokes_eq`).  From an empty
stack these instructions print one byte and leave the stack empty again, whatever there is to read
(`Machine.through_print`).  A keyed picture reads one byte and prints the difference.  Without a
byte to read, reading and subtracting are ignored, and what remains of the snippet prints the byte
that the picture holds.

`Pen.Ready.byte` and `Pen.Ready.bytes` say what painting one byte and several of them comes to.
-/

namespace Piet

/-! ### Printing a byte -/

namespace Machine

/-- The machine after it has written a byte. -/
def emit (m : Machine) (b : UInt8) : Machine :=
  { m with output := { m.output with written := m.output.written.push b } }

/-- The machine after it has printed what a picture holds as a byte. -/
def printByte (keyed : Bool) (m : Machine) (b : UInt8) : Machine :=
  if keyed then
    match m.input.next? with
    | some c => emit { m with input := m.input.advance 1 } (b - c)
    | none => m.emit b
  else
    m.emit b

/-- The machine after it has printed some bytes one after another. -/
def printBytes (keyed : Bool) (m : Machine) (bytes : List UInt8) : Machine :=
  bytes.foldl (printByte keyed) m

variable {m : Machine} {a c : Int64} {below : List Int64} {keyed : Bool} {b : UInt8}
  {bytes : List UInt8}

/-- Writing a word on an output without a bound. -/
theorem execute_outChar (hcap : m.output.capacity = none) (hstack : m.stack = ⟨a :: below⟩)
    (size : ℕ) :
    (m.execute .outChar size).1 = emit { m with stack := ⟨below⟩ } (byteOf a) := by
  have hpop : m.pop = .ok (a, { m with stack := ⟨below⟩ }) := by
    rw [pop, hstack]
    rfl
  simp only [execute, attempt, writeTop, hpop, Sink.write, hcap, emit]
  congr 2

/-- A word is pushed that is not above the greatest one. -/
theorem execute_push (m : Machine) (size : ℕ) :
    (m.execute .push size).1 = { m with stack := ⟨sizeWord size :: m.stack.fromTop⟩ } := rfl

theorem execute_not (hstack : m.stack = ⟨a :: below⟩) (size : ℕ) :
    (m.execute .not size).1 = { m with stack := ⟨truth (a = 0) :: below⟩ } := by
  obtain ⟨stack, dp, cc, input, output⟩ := m
  obtain rfl : stack = ⟨a :: below⟩ := hstack
  rfl

theorem execute_duplicate (hstack : m.stack = ⟨a :: below⟩) (size : ℕ) :
    (m.execute .duplicate size).1 = { m with stack := ⟨a :: a :: below⟩ } := by
  obtain ⟨stack, dp, cc, input, output⟩ := m
  obtain rfl : stack = ⟨a :: below⟩ := hstack
  rfl

theorem execute_multiply (hstack : m.stack = ⟨a :: c :: below⟩) (size : ℕ) :
    (m.execute .multiply size).1 = { m with stack := ⟨c * a :: below⟩ } := by
  obtain ⟨stack, dp, cc, input, output⟩ := m
  obtain rfl : stack = ⟨a :: c :: below⟩ := hstack
  rfl

theorem execute_mod (ha : a ≠ 0) (hstack : m.stack = ⟨a :: c :: below⟩) (size : ℕ) :
    (m.execute .mod size).1 = { m with stack := ⟨Word.floorMod c a :: below⟩ } := by
  have hmod : m.attempt size .mod =
      .ok ({ m with stack := ⟨Word.floorMod c a :: below⟩ }, .done) := by
    simp only [attempt, silent, binary, hstack, if_neg ha]
    rfl
  rw [execute, hmod]

theorem execute_subtract (hstack : m.stack = ⟨a :: c :: below⟩) (size : ℕ) :
    (m.execute .subtract size).1 = { m with stack := ⟨(c - a) :: below⟩ } := by
  obtain ⟨stack, dp, cc, input, output⟩ := m
  obtain rfl : stack = ⟨a :: c :: below⟩ := hstack
  rfl

/-- With one word only, subtracting is ignored. -/
theorem execute_subtract_short (hstack : m.stack = ⟨[a]⟩) (size : ℕ) :
    (m.execute .subtract size).1 = m := by
  obtain ⟨stack, dp, cc, input, output⟩ := m
  obtain rfl : stack = ⟨[a]⟩ := hstack
  rfl

theorem execute_inChar {c : UInt8} (hnext : m.input.next? = some c) (size : ℕ) :
    (m.execute .inChar size).1 = { m with
      stack := ⟨Int64.ofNat c.toNat :: m.stack.fromTop⟩
      input := m.input.advance 1 } := by
  have hread : m.attempt size .inChar = .ok ({ m with
      stack := ⟨Int64.ofNat c.toNat :: m.stack.fromTop⟩
      input := m.input.advance 1 }, .done) := by
    simp only [attempt, silent, readByte, hnext]
    rfl
  rw [execute, hread]

/-- Without a byte to read, reading is ignored. -/
theorem execute_inChar_exhausted (hnext : m.input.next? = none) (size : ℕ) :
    (m.execute .inChar size).1 = m := by
  have hread : m.attempt size .inChar = .error .inputExhausted := by
    simp only [attempt, silent, readByte, hnext]
    rfl
  rw [execute, hread]

/-- The end of the snippet takes a word modulo 256 and writes it. -/
theorem through_reduce (hcap : m.output.capacity = none) (hstack : m.stack = ⟨[a]⟩) :
    m.through 16 [⟨.op .push, 1⟩, ⟨.op .duplicate, 1⟩, ⟨.op .multiply, 1⟩, ⟨.op .mod, 1⟩,
      ⟨.op .outChar, 1⟩] = emit { m with stack := .empty } (byteOf a) := by
  have h256 : sizeWord 16 * sizeWord 16 = 256 := by decide
  have hne : sizeWord 16 * sizeWord 16 ≠ 0 := by decide
  simp only [through]
  rw [execute_push, hstack, execute_duplicate rfl, execute_multiply rfl, execute_mod hne rfl,
    execute_outChar (by exact hcap) rfl, h256, byteOf_floorMod]
  rfl

end Machine

namespace Payload

variable {keyed : Bool} {b : UInt8}

/-- The size of the block that stands for a byte. -/
def blockSize (b : UInt8) : ℕ :=
  if b = 0 then 1 else b.toNat

/-- The instructions that print what the block of a byte stands for. -/
def printStrokes (keyed : Bool) (b : UInt8) : List Stroke :=
  (if b = 0 then [⟨.op .push, 1⟩, ⟨.op .not, 1⟩] else [⟨.op .push, 1⟩]) ++
    (if keyed then unmaskStrokes else []) ++ [⟨.op .outChar, 1⟩]

theorem byteStrokes_eq (keyed : Bool) (b : UInt8) :
    byteStrokes keyed b = ⟨.white, 1⟩ :: ⟨.op .noop, blockSize b⟩ :: printStrokes keyed b := by
  rw [byteStrokes, pushStrokes, blockSize, printStrokes]
  split <;> rfl

theorem blockSize_pos (b : UInt8) : 0 < blockSize b := by
  rw [blockSize]
  split
  · exact Nat.one_pos
  · next hb => exact Nat.pos_of_ne_zero fun h => hb (UInt8.toNat_inj.mp h)

theorem quiet_printStrokes (keyed : Bool) (b : UInt8) :
    ∀ s ∈ printStrokes keyed b, s.Quiet := by
  have key : ∀ keyed : Bool, ∀ ops ∈ [[(⟨.op .push, 1⟩ : Stroke), ⟨.op .not, 1⟩],
      [⟨.op .push, 1⟩]], ∀ s ∈ ops ++ (if keyed then unmaskStrokes else []) ++
        [(⟨.op .outChar, 1⟩ : Stroke)], s.Quiet := by decide
  rw [printStrokes]
  split
  · exact key keyed _ (by simp)
  · exact key keyed _ (by simp)

end Payload

namespace Machine

open Payload (blockSize printStrokes unmaskStrokes)

variable {m : Machine} {keyed : Bool} {b : UInt8} {bytes : List UInt8}

/-- Pushing the size of the block of a byte, or the negation of one. -/
theorem through_push (hstack : m.stack = .empty) (keyed : Bool) (b : UInt8) :
    m.through (blockSize b) (printStrokes keyed b) =
      ({ m with stack := ⟨[Int64.ofNat b.toNat]⟩ } : Machine).through 1
        ((if keyed then unmaskStrokes else []) ++ [⟨.op .outChar, 1⟩]) := by
  rw [blockSize, printStrokes, List.append_assoc]
  by_cases hb : b = 0
  · subst hb
    have hnot : truth (sizeWord 1 = 0) = Int64.ofNat (0 : UInt8).toNat := by decide
    rw [if_pos rfl, if_pos rfl, List.cons_append, List.singleton_append, through, through,
      execute_push, hstack, execute_not rfl, hnot]
    rfl
  · have hsize : sizeWord b.toNat = Int64.ofNat b.toNat :=
      sizeWord_eq (b.toNat_lt.trans (by decide))
    rw [if_neg hb, if_neg hb, List.singleton_append, through, execute_push, hstack, hsize]
    rfl

/-- Subtracting a byte that is read, if there is one, and printing the difference. -/
theorem through_unmask (hcap : m.output.capacity = none)
    (hstack : m.stack = ⟨[Int64.ofNat b.toNat]⟩) :
    m.through 1 (unmaskStrokes ++ [⟨.op .outChar, 1⟩]) =
      printByte true { m with stack := .empty } b := by
  have hstrokes : unmaskStrokes ++ [⟨.op .outChar, 1⟩] = ⟨.op .inChar, 1⟩ ::
      ⟨.op .subtract, 16⟩ :: [⟨.op .push, 1⟩, ⟨.op .duplicate, 1⟩, ⟨.op .multiply, 1⟩,
        ⟨.op .mod, 1⟩, ⟨.op .outChar, 1⟩] := rfl
  rw [hstrokes, through, through, printByte, if_pos rfl]
  cases hnext : m.input.next? with
  | some c =>
    rw [execute_inChar hnext, hstack, execute_subtract rfl, through_reduce (by exact hcap) rfl,
      byteOf_sub]
  | none =>
    rw [execute_inChar_exhausted hnext, execute_subtract_short hstack, through_reduce hcap hstack,
      byteOf_ofByte]

/-- **The instructions of a byte print it.** -/
theorem through_print (hcap : m.output.capacity = none) (hstack : m.stack = .empty) (keyed : Bool)
    (b : UInt8) : m.through (blockSize b) (printStrokes keyed b) = m.printByte keyed b := by
  have hm : ({ m with stack := .empty } : Machine) = m := by rw [← hstack]
  rw [through_push hstack]
  cases keyed with
  | false =>
    have hwrite := execute_outChar (m := { m with stack := ⟨[Int64.ofNat b.toNat]⟩ }) hcap rfl 1
    rw [byteOf_ofByte] at hwrite
    refine hwrite.trans ?_
    exact congrArg (emit · b) hm
  | true =>
    rw [if_pos rfl, through_unmask (by exact hcap) rfl]
    exact congrArg (printByte true · b) hm

/-- Printing a byte leaves everything but the input and the output alone. -/
theorem printByte_frame (keyed : Bool) (m : Machine) (b : UInt8) :
    (m.printByte keyed b).stack = m.stack ∧ (m.printByte keyed b).dp = m.dp ∧
      (m.printByte keyed b).cc = m.cc := by
  rw [printByte]
  split
  · split <;> exact ⟨rfl, rfl, rfl⟩
  · exact ⟨rfl, rfl, rfl⟩

theorem printBytes_frame (keyed : Bool) (m : Machine) (bytes : List UInt8) :
    (m.printBytes keyed bytes).stack = m.stack ∧ (m.printBytes keyed bytes).dp = m.dp ∧
      (m.printBytes keyed bytes).cc = m.cc := by
  induction bytes generalizing m with
  | nil => exact ⟨rfl, rfl, rfl⟩
  | cons b bytes ih =>
    obtain ⟨hstack, hdp, hcc⟩ := ih (m.printByte keyed b)
    obtain ⟨hstack', hdp', hcc'⟩ := printByte_frame keyed m b
    exact ⟨hstack.trans hstack', hdp.trans hdp', hcc.trans hcc'⟩

/-- What some bytes print: each one as it is or, with a key, less the byte in its place of the
input that is left, if there is one. -/
theorem written_printBytes (keyed : Bool) (m : Machine) (bytes : List UInt8) :
    (m.printBytes keyed bytes).output.written.toList = m.output.written.toList ++
      bytes.mapIdx fun i b =>
        if keyed then
          match m.input.bytes[m.input.cursor + i]? with
          | some c => b - c
          | none => b
        else b := by
  induction bytes generalizing m with
  | nil => exact (List.append_nil _).symm
  | cons b bytes ih =>
    rw [printBytes, List.foldl_cons, ← printBytes, ih, List.mapIdx_cons]
    cases keyed with
    | false => simp [printByte, emit]
    | true =>
      simp only [printByte, if_true, Input.next?, Nat.add_zero]
      cases hnext : m.input.bytes[m.input.cursor]? with
      | some c => simp [emit, Input.advance, Nat.add_assoc, Nat.add_comm 1]
      | none =>
        have hend := Array.getElem?_eq_none_iff.mp hnext
        have hrest : ∀ i, m.input.bytes[m.input.cursor + i]? = none := fun i =>
          Array.getElem?_eq_none (by omega)
        simp [emit, hrest]

/-- The first of some bytes print the first part of what all of them do. -/
theorem written_printBytes_take (hempty : m.output.written = #[]) (bytes : List UInt8) (n : ℕ) :
    (m.printBytes keyed (bytes.take n)).output.written.toList =
      (m.printBytes keyed bytes).output.written.toList.take n := by
  rw [written_printBytes, written_printBytes, hempty, List.nil_append, List.nil_append]
  refine List.ext_getElem (by simp) fun i hi hi' => ?_
  simp

/-- With a key, one byte is read for each that is printed, if there are as many left; without one
nothing is read. -/
theorem input_printBytes (bytes : List UInt8)
    (hleft : keyed = true → m.input.cursor + bytes.length ≤ m.input.bytes.size) :
    (m.printBytes keyed bytes).input = m.input.advance (if keyed then bytes.length else 0) := by
  induction bytes generalizing m with
  | nil => simp [printBytes, Input.advance]
  | cons b bytes ih =>
    rw [printBytes, List.foldl_cons, ← printBytes]
    cases keyed with
    | false => exact ih nofun
    | true =>
      have hroom := hleft rfl
      rw [List.length_cons] at hroom
      have hlt : m.input.cursor < m.input.bytes.size := by omega
      have hnext : m.input.next? = some m.input.bytes[m.input.cursor] := Array.getElem?_eq_getElem hlt
      have hread : (m.printByte true b).input = m.input.advance 1 := by
        simp only [printByte, if_true, hnext, emit]
      rw [ih, hread]
      · simp only [Input.advance, if_true, List.length_cons]
        congr 1
        omega
      · intro _
        rw [hread]
        simp only [Input.advance]
        omega

end Machine

/-! ### Painting bytes -/

namespace Payload

/-- The steps that a byte takes. -/
def byteSteps (keyed : Bool) (b : UInt8) : ℕ :=
  (if b = 0 then 5 else 4) + if keyed then 6 else 0

theorem length_printStrokes (keyed : Bool) (b : UInt8) :
    2 + (printStrokes keyed b).length = byteSteps keyed b := by
  rw [printStrokes, byteSteps]
  split <;> cases keyed <;> rfl

end Payload

namespace Pen

open Payload (blockSize blockSize_pos printStrokes byteStrokes byteSteps)

variable {pen : Pen} {input : Array UInt8} {n k c c' : ℕ} {keyed : Bool} {b : UInt8}

theorem Traced.unbounded (h : Traced input n pen) : pen.shadow.output.capacity = none := by
  cases h with
  | block h => exact h.trail.unbounded
  | white h => exact h.trail.unbounded

namespace Ready

/-- A stroke of white and a block behind it, into which the pointer slides. -/
theorem strokes_enter (h : Ready input n pen) (hw : ¬ pen.OnWhite)
    (hroom : pen.tip.Room pen.shadow.dp (c + 1 + (c' + 1))) :
    ∃ pen', pen.strokes [⟨.white, c + 1⟩, ⟨.op .noop, c' + 1⟩] = (pen', none) ∧
      Comes input (n + 2) pen (c + 1 + (c' + 1)) pen.shadow (some (c' + 1)) pen' := by
  obtain ⟨pen₁, hstroke₁, h₁⟩ := h.stroke_white hw (hroom.mono (Nat.le_add_right _ _))
  have hw₁ := onWhite_of_size? h₁.size
  have hleave : pen₁.leave .noop = pen.shadow := by rw [leave_noop, h₁.shadow]
  have hroom₁ : pen₁.tip.Room pen₁.shadow.dp (c' + 1) := by
    rw [h₁.shadow]
    exact h₁.along.room hroom
  obtain ⟨pen₂, hstroke₂, h₂⟩ :=
    h₁.ready.stroke_op (.inl hw₁) (by rw [hleave, h₁.shadow]) hroom₁
  rw [hleave] at h₂
  refine ⟨pen₂, ?_, h₁.trans h₂ rfl⟩
  rw [strokes_cons hstroke₁, strokes_cons hstroke₂]
  rfl

/-- **Painting a byte.** -/
theorem byte (h : Ready input n pen) (hsize : pen.size? = some k)
    (hstack : pen.shadow.stack = .empty)
    (hroom : pen.tip.Room pen.shadow.dp (Stroke.totalCount (byteStrokes keyed b))) :
    ∃ pen' k', pen.strokes (byteStrokes keyed b) = (pen', none) ∧
      Comes input (n + byteSteps keyed b) pen (Stroke.totalCount (byteStrokes keyed b))
        (pen.shadow.printByte keyed b) (some k') pen' := by
  obtain ⟨hw, -⟩ := not_onWhite_of_size? hsize
  obtain ⟨c, hc⟩ : ∃ c, blockSize b = c + 1 := ⟨_, (Nat.succ_pred_eq_of_pos (blockSize_pos b)).symm⟩
  have hcount : Stroke.totalCount (byteStrokes keyed b) =
      0 + 1 + (c + 1) + Stroke.totalCount (printStrokes keyed b) := by
    rw [Payload.byteStrokes_eq, Stroke.totalCount_cons, Stroke.totalCount_cons, hc, Nat.zero_add,
      ← Nat.add_assoc]
  rw [hcount] at hroom ⊢
  obtain ⟨pen₁, hstrokes₁, h₁⟩ := h.strokes_enter hw (hroom.mono (Nat.le_add_right _ _))
  have hroom₁ : pen₁.tip.Room pen₁.shadow.dp (Stroke.totalCount (printStrokes keyed b)) := by
    rw [h₁.shadow]
    exact h₁.along.room hroom
  obtain ⟨pen₂, k', hstrokes₂, h₂, -⟩ :=
    h₁.ready.strokes_ops h₁.size (Payload.quiet_printStrokes keyed b) hroom₁
  rw [h₁.shadow, ← hc, Machine.through_print h.traced.unbounded hstack] at h₂
  refine ⟨pen₂, k', ?_, ?_⟩
  · rw [Payload.byteStrokes_eq, hc]
    exact (strokes_append hstrokes₁ _).trans hstrokes₂
  · have hall := h₁.trans h₂ rfl
    rwa [Nat.add_assoc n, Payload.length_printStrokes] at hall

/-- **Painting bytes one after another.** -/
theorem bytes (h : Ready input n pen) (hsize : pen.size? = some k)
    (hstack : pen.shadow.stack = .empty) {bytes : List UInt8}
    (hroom : pen.tip.Room pen.shadow.dp
      (Stroke.totalCount (bytes.map (byteStrokes keyed)).flatten)) :
    ∃ pen' k', pen.strokes (bytes.map (byteStrokes keyed)).flatten = (pen', none) ∧
      Comes input (n + (bytes.map (byteSteps keyed)).sum) pen
        (Stroke.totalCount (bytes.map (byteStrokes keyed)).flatten)
        (pen.shadow.printBytes keyed bytes) (some k') pen' := by
  induction bytes generalizing pen n k with
  | nil => exact ⟨pen, k, rfl, h, .refl pen, rfl, hsize⟩
  | cons b bytes ih =>
    rw [List.map_cons, List.flatten_cons, Stroke.totalCount_append] at hroom ⊢
    obtain ⟨pen₁, k₁, hstrokes₁, h₁⟩ := h.byte hsize hstack (hroom.mono (Nat.le_add_right _ _))
    obtain ⟨hstack₁, hdp₁, -⟩ := Machine.printByte_frame keyed pen.shadow b
    rw [← h₁.shadow] at hstack₁ hdp₁
    have hroom₁ : pen₁.tip.Room pen₁.shadow.dp
        (Stroke.totalCount (bytes.map (byteStrokes keyed)).flatten) := by
      rw [hdp₁]
      exact h₁.along.room hroom
    obtain ⟨pen₂, k₂, hstrokes₂, h₂⟩ := ih h₁.ready h₁.size (hstack₁.trans hstack) hroom₁
    refine ⟨pen₂, k₂, (strokes_append hstrokes₁ _).trans hstrokes₂, ?_⟩
    have hall := h₁.trans h₂ (by rw [← h₁.shadow, hdp₁])
    rw [h₁.shadow, Nat.add_assoc] at hall
    rwa [List.map_cons, List.sum_cons]

end Ready

end Pen

end Piet
