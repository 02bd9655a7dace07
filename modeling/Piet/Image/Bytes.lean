/-!
# Bytes and samples of image files

Fixed-width numbers as bytes, with the most or the least significant byte first; checksums of
bytes; and samples, which have between one and sixteen bits.  A sample is the amount of light in one
channel of a pixel, or the number of a colour in a palette.
-/

namespace Piet

/-! ### Numbers -/

namespace Bytes

/-- The number whose bytes are given, the least significant one first. -/
def numberLE (bytes : List UInt8) : Nat :=
  bytes.foldr (fun b n => b.toNat + 256 * n) 0

/-- The number whose bytes are given, the most significant one first. -/
def numberBE (bytes : List UInt8) : Nat :=
  bytes.foldl (fun n b => 256 * n + b.toNat) 0

/-- The lowest `width` bytes of a number, the least significant one first. -/
def encodeLE : (width : Nat) → Nat → List UInt8
  | 0, _ => []
  | width + 1, n => n.toUInt8 :: encodeLE width (n / 256)

/-- The lowest `width` bytes of a number, the most significant one first. -/
def encodeBE (width n : Nat) : List UInt8 :=
  (encodeLE width n).reverse

/-- Takes exactly `n` bytes off a list. -/
def take? (n : Nat) (bytes : List UInt8) : Option (List UInt8 × List UInt8) :=
  let (front, rest) := bytes.splitAt n
  if front.length = n then some (front, rest) else none

@[simp]
theorem length_encodeLE (width n : Nat) : (encodeLE width n).length = width := by
  induction width generalizing n with
  | zero => rfl
  | succ width ih => rw [encodeLE, List.length_cons, ih]

/-- What is written reads back, up to the width. -/
theorem numberLE_encodeLE (width n : Nat) : numberLE (encodeLE width n) = n % Nat.pow 256 width := by
  induction width generalizing n with
  | zero => exact (Nat.mod_one n).symm
  | succ width ih =>
    have hcons : numberLE (encodeLE (width + 1) n) =
        n.toUInt8.toNat + 256 * numberLE (encodeLE width (n / 256)) := rfl
    have hpow : Nat.pow 256 (width + 1) = 256 * Nat.pow 256 width := Nat.pow_succ'
    rw [hcons, ih, hpow, Nat.mod_mul]
    rfl

/-- The order of the bytes makes the difference between the two ways to read a number. -/
theorem numberBE_reverse (bytes : List UInt8) : numberBE bytes.reverse = numberLE bytes := by
  rw [numberBE, List.foldl_reverse, numberLE]
  simp only [Nat.add_comm]

/-- What is written reads back, up to the width. -/
theorem numberBE_encodeBE (width n : Nat) : numberBE (encodeBE width n) = n % Nat.pow 256 width := by
  rw [encodeBE, numberBE_reverse, numberLE_encodeLE]

@[simp]
theorem length_encodeBE (width n : Nat) : (encodeBE width n).length = width := by
  rw [encodeBE, List.length_reverse, length_encodeLE]

/-- What stands in front can be taken off. -/
theorem take?_append {front rest : List UInt8} {n : Nat} (h : front.length = n) :
    take? n (front ++ rest) = some (front, rest) := by
  subst h
  simp [take?]

end Bytes

/-! ### Checksums

A cyclic redundancy check, and the Adler sum. -/

namespace Checksum

/-- Divides one bit out of a cyclic redundancy check. -/
def crcShift (c : UInt32) : UInt32 :=
  if c &&& 1 = 1 then (c >>> 1) ^^^ 0xEDB88320 else c >>> 1

/-- Takes one byte into a cyclic redundancy check. -/
def crcByte (c : UInt32) (b : UInt8) : UInt32 :=
  Nat.repeat crcShift 8 (c ^^^ b.toUInt32)

/-- The cyclic redundancy check of some bytes. -/
def crc32 (bytes : List UInt8) : UInt32 :=
  bytes.foldl crcByte 0xFFFFFFFF ^^^ 0xFFFFFFFF

/-- The Adler sum of some bytes: the sum of the bytes, and in the upper half the sum of all its
intermediate values. -/
def adler32 (bytes : List UInt8) : Nat :=
  let (low, high) := bytes.foldl
    (fun (low, high) b =>
      let low := (low + b.toNat) % 65521
      (low, (high + low) % 65521))
    (1, 0)
  high * 65536 + low

end Checksum

/-! ### Samples -/

namespace Sample

/-- A sample of so many bits as a byte: the nearest one on the scale from 0 to 255. -/
def toByte (bits n : Nat) : UInt8 :=
  if bits = 8 then
    n.toUInt8
  else
    let greatest := Nat.pow 2 bits - 1
    ((n * 255 + greatest / 2) / greatest).toUInt8

/-- Number `k` of the samples that fill a row of bytes without gaps.  Samples of less than eight
bits begin with the highest bits of each byte, and samples of sixteen take two bytes, the more
significant one first. -/
def get (row : Array UInt8) (bits k : Nat) : Nat :=
  let byte (i : Nat) : Nat := (row[i]?.getD 0).toNat
  if bits = 8 then
    byte k
  else if bits < 8 then
    byte (k * bits / 8) / Nat.pow 2 (8 - bits - k * bits % 8) % Nat.pow 2 bits
  else
    256 * byte (2 * k) + byte (2 * k + 1)

/-- The number of bytes that so many samples fill, the last one perhaps not entirely. -/
def rowSize (bits count : Nat) : Nat :=
  (bits * count + 7) / 8

/-- A sample of eight bits is a byte already. -/
@[simp]
theorem toByte_eight (b : UInt8) : toByte 8 b.toNat = b := by
  rw [toByte, if_pos rfl]
  exact UInt8.ofNat_toNat

/-- The samples of eight bits are the bytes themselves. -/
@[simp]
theorem get_eight (row : Array UInt8) (k : Nat) : get row 8 k = (row[k]?.getD 0).toNat := by
  rw [get, if_pos rfl]

end Sample

end Piet
