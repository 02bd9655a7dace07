/-!
# Prefix codes

Numbers and bytes as lists of bits, and readers that take what they need off the front of such
a list.  A reader stops for one of two reasons: the bits have come to their end, or they do not
mean anything.

A prefix code gives each of its symbols a word of bits, none of which begins another.  Words
are assigned in order: shorter ones before longer ones, and words of one length by their
symbols.  So the lengths of the words alone determine a code, and `Code.ofLengths` builds it
from them.

* `numberLE_bitsLE`: a number reads back from its bits, up to the width.
* `pack_unpack`: bytes can be had back from their bits.
* `Reader.take_append` and `Reader.number_append`: what stands in front is what is read.
* `Code.readFrom_append`: a word is known from its own bits.
-/

namespace Piet

namespace Deflate

/-! ### Numbers and bytes -/

/-- The lowest `width` bits of a number, the least significant one first. -/
def bitsLE : (width : Nat) → Nat → List Bool
  | 0, _ => []
  | width + 1, n => (n % 2 == 1) :: bitsLE width (n / 2)

/-- The lowest `width` bits of a number, the most significant one first. -/
def bitsBE (width n : Nat) : List Bool :=
  (bitsLE width n).reverse

/-- The number whose bits are given, the least significant one first. -/
def numberLE (bits : List Bool) : Nat :=
  bits.foldr (fun b n => b.toNat + 2 * n) 0

/-- The bits of some bytes, those of each byte from the least significant one. -/
def unpack (bytes : List UInt8) : List Bool :=
  bytes.flatMap fun b => bitsLE 8 b.toNat

/-- The bytes with the given bits, filled up with zero bits. -/
def pack : List Bool → List UInt8
  | a :: b :: c :: d :: e :: f :: g :: h :: rest =>
    (numberLE [a, b, c, d, e, f, g, h]).toUInt8 :: pack rest
  | [] => []
  | rest => [(numberLE rest).toUInt8]

@[simp]
theorem length_bitsLE (width n : Nat) : (bitsLE width n).length = width := by
  induction width generalizing n with
  | zero => rfl
  | succ width ih => rw [bitsLE, List.length_cons, ih]

/-- A number reads back from its bits, up to the width. -/
theorem numberLE_bitsLE (width n : Nat) : numberLE (bitsLE width n) = n % Nat.pow 2 width := by
  induction width generalizing n with
  | zero => exact (Nat.mod_one n).symm
  | succ width ih =>
    have hcons : numberLE (bitsLE (width + 1) n) =
        (n % 2 == 1).toNat + 2 * numberLE (bitsLE width (n / 2)) := rfl
    have hbit : (n % 2 == 1).toNat = n % 2 := by
      rcases Nat.mod_two_eq_zero_or_one n with h | h <;> rw [h] <;> rfl
    have hpow : Nat.pow 2 (width + 1) = 2 * Nat.pow 2 width := Nat.pow_succ'
    rw [hcons, ih, hbit, hpow, Nat.mod_mul]

/-- Eight bits at a time make a byte. -/
theorem pack_append (b : UInt8) (bits : List Bool) :
    pack (bitsLE 8 b.toNat ++ bits) = b :: pack bits := by
  have hpack : pack (bitsLE 8 b.toNat ++ bits) =
      (numberLE (bitsLE 8 b.toNat)).toUInt8 :: pack bits := rfl
  rw [hpack, numberLE_bitsLE, Nat.mod_eq_of_lt b.toNat_lt]
  exact congrArg (· :: pack bits) UInt8.ofNat_toNat

/-- Bytes can be had back from their bits. -/
theorem pack_unpack (bytes : List UInt8) : pack (unpack bytes) = bytes := by
  induction bytes with
  | nil => rfl
  | cons b bytes ih =>
    rw [unpack, List.flatMap_cons, pack_append]
    exact congrArg (b :: ·) ih

/-! ### Readers -/

/-- Why nothing more can be read. -/
inductive Stop where
  /-- The bits have come to their end. -/
  | exhausted
  /-- The bits do not mean anything. -/
  | corrupt
deriving DecidableEq

/-- Reads something off the front of a list of bits. -/
abbrev Reader (α : Type) :=
  StateT (List Bool) (Except Stop) α

namespace Reader

/-- Refuses what has been read. -/
def refuse {α : Type} : Reader α :=
  fun _ => .error .corrupt

/-- Reads exactly `n` bits. -/
def take (n : Nat) : Reader (List Bool) := fun bits =>
  let (front, rest) := bits.splitAt n
  if front.length = n then .ok (front, rest) else .error .exhausted

/-- Reads a number of `width` bits, the least significant one first. -/
def number (width : Nat) : Reader Nat :=
  numberLE <$> take width

theorem take_append {front rest : List Bool} {n : Nat} (h : front.length = n) :
    take n (front ++ rest) = .ok (front, rest) := by
  subst h
  simp [take]

theorem number_append (width n : Nat) (rest : List Bool) :
    number width (bitsLE width n ++ rest) = .ok (n % Nat.pow 2 width, rest) := by
  have htake : take width (bitsLE width n ++ rest) = .ok (bitsLE width n, rest) :=
    take_append (length_bitsLE width n)
  rw [← numberLE_bitsLE]
  simp [number, Functor.map, StateT.map, htake, bind, Except.bind, pure, Except.pure]

/-- Goes on to the next whole byte, where the bits are those of whole bytes. -/
def align : Reader Unit := fun bits =>
  .ok ((), bits.drop (bits.length % 8))

/-- A reader that has an answer has read it. -/
theorem eq_ok_of_toOption {α : Type} {r : Except Stop α} {a : α} (h : r.toOption = some a) :
    r = .ok a := by
  cases r with
  | error => cases h
  | ok => exact congrArg Except.ok (Option.some.inj h)

end Reader

/-! ### Codes

A word is read bit by bit.  What has to be remembered on the way is how many of the possible words
of the current length lie between the bits read so far and the ones that are in use. -/


/-- The symbols of a code by the length of their words, beginning with words of one bit. -/
structure Code where
  levels : List (Array Nat)

namespace Code

/-- The greatest length of a word. -/
def maxLength : Nat :=
  15

/-- The symbols with a given length of word. -/
def symbolsOf (lengths : List Nat) (length : Nat) : Array Nat :=
  (lengths.zipIdx.filterMap fun (n, s) => if n = length then some s else none).toArray

/-- The code in which symbol number `s` has a word of length `lengths[s]`.  Symbols of length
zero are not used. -/
def ofLengths (lengths : List Nat) : Code :=
  ⟨(List.range maxLength).map fun n => symbolsOf lengths (n + 1)⟩

/-- How many words of the last length are left, given how many there are before the first one.
None if there are more symbols than words. -/
def spare? : List (Array Nat) → (before : Nat) → Option Nat
  | [], n => some n
  | symbols :: levels, n =>
    if symbols.size ≤ 2 * n then spare? levels (2 * n - symbols.size) else none

/-- Every sequence of bits begins with a word. -/
def Complete (c : Code) : Prop :=
  spare? c.levels 1 = some 0

instance (c : Code) : Decidable c.Complete :=
  inferInstanceAs (Decidable (_ = _))

/-- A code without symbols, or with one symbol of length one. -/
def Small (c : Code) : Prop :=
  let counts := c.levels.map Array.size
  let count := counts.foldl (· + ·) 0
  count = 0 ∨ count = 1 ∧ counts.head? = some 1

instance (c : Code) : Decidable c.Small :=
  inferInstanceAs (Decidable (_ ∨ _))

/-- Reads the rest of a word, after bits that lie `offset` words behind the last one in use. -/
def readFrom : List (Array Nat) → (offset : Nat) → Reader Nat
  | [], _ => Reader.refuse
  | symbols :: levels, offset => fun
    | [] => .error .exhausted
    | b :: bits =>
      let n := 2 * offset + b.toNat
      if h : n < symbols.size then
        .ok (symbols[n], bits)
      else
        readFrom levels (n - symbols.size) bits

/-- Reads the word of a symbol. -/
def read (c : Code) : Reader Nat :=
  readFrom c.levels 0

/-- What follows a word makes no difference to its symbol. -/
theorem readFrom_append {levels : List (Array Nat)} {offset s : Nat} {bits left : List Bool}
    (h : readFrom levels offset bits = .ok (s, left)) (rest : List Bool) :
    readFrom levels offset (bits ++ rest) = .ok (s, left ++ rest) := by
  induction levels generalizing offset bits with
  | nil => cases h
  | cons symbols levels ih =>
    cases bits with
    | nil => cases h
    | cons b bits =>
      rw [readFrom] at h
      rw [List.cons_append, readFrom]
      dsimp only at h ⊢
      split
      · next hn =>
        rw [dif_pos hn] at h
        cases h
        rfl
      · next hn =>
        rw [dif_neg hn] at h
        exact ih h

end Code

end Deflate

end Piet
