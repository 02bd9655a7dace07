import Piet.Image.Deflate.Code

/-!
# Compressed blocks

Compressed bytes are a sequence of tokens, each of which is a byte or a copy of earlier bytes.
`tokens` finds copies, but only at one distance: pictures consist of long runs of equal pixels.

The deflate format is a sequence of blocks.  A block holds bytes as they are, or tokens in two
prefix codes: one for bytes, lengths and the end of the block, and one for distances.  The
codes are fixed ones or stand at the beginning of the block.

* `Deflate.compress` writes one block with the fixed codes, and `Codes.read_symbolBits` says
  that its words are those of that code.
* `Deflate.inflate?` reads blocks of all kinds.  Where the compressed bytes come to their end
  before the last block does, the answer is what could be read up to there.
-/

namespace Piet

namespace Deflate

/-! ### Tokens -/

/-- A byte, or a copy of bytes that stand some distance before. -/
inductive Token where
  | literal (b : UInt8)
  | copy (length distance : Nat)
deriving DecidableEq

/-! ### Expanding -/

/-- Appends `length` bytes, each equal to the one that stands `distance` before it. -/
def copyBytes (out : Array UInt8) (distance : Nat) : (length : Nat) → Option (Array UInt8)
  | 0 => some out
  | length + 1 =>
    if 0 < distance ∧ distance ≤ out.size then
      match out[out.size - distance]? with
      | some b => copyBytes (out.push b) distance length
      | none => none
    else
      none

/-- Appends what a token stands for. -/
def Token.appendTo? (out : Array UInt8) : Token → Option (Array UInt8)
  | literal b => some (out.push b)
  | copy length distance => copyBytes out distance length

/-! ### Finding copies -/

/-- How many bytes from number `i` on equal the ones that stand `distance` before them, at most
`bound` of them. -/
def runLength (bytes : Array UInt8) (distance : Nat) : (bound : Nat) → (i : Nat) → Nat
  | 0, _ => 0
  | bound + 1, i =>
    if distance ≤ i ∧ i < bytes.size ∧ bytes[i]? = bytes[i - distance]? then
      runLength bytes distance bound (i + 1) + 1
    else
      0

/-- The greatest length of a copy. -/
def maxCopy : Nat :=
  258

/-- Tokens for the bytes from number `i` on.  Wherever at least three bytes repeat what stands
`distance` before them, they become a copy. -/
def tokensFrom (bytes : Array UInt8) (distance : Nat) :
    (fuel : Nat) → (i : Nat) → Array Token → Array Token
  | 0, _, tokens => tokens
  | fuel + 1, i, tokens =>
    match bytes[i]? with
    | none => tokens
    | some b =>
      let n := runLength bytes distance maxCopy i
      if 3 ≤ n then
        tokensFrom bytes distance fuel (i + n) (tokens.push (.copy n distance))
      else
        tokensFrom bytes distance fuel (i + 1) (tokens.push (.literal b))

/-- Tokens for some bytes. -/
def tokens (bytes : Array UInt8) (distance : Nat) : Array Token :=
  tokensFrom bytes distance bytes.size 0 #[]

/-! ### Classes of lengths and distances -/

/-- A class of lengths or distances: the least of them, and the number of bits that tell how
much more it is. -/
structure Span where
  least : Nat
  extraBits : Nat

/-- The classes of lengths, which have the symbols from 257 on. -/
def lengthSpans : Array Span :=
  #[⟨3, 0⟩, ⟨4, 0⟩, ⟨5, 0⟩, ⟨6, 0⟩, ⟨7, 0⟩, ⟨8, 0⟩, ⟨9, 0⟩, ⟨10, 0⟩, ⟨11, 1⟩, ⟨13, 1⟩, ⟨15, 1⟩,
    ⟨17, 1⟩, ⟨19, 2⟩, ⟨23, 2⟩, ⟨27, 2⟩, ⟨31, 2⟩, ⟨35, 3⟩, ⟨43, 3⟩, ⟨51, 3⟩, ⟨59, 3⟩, ⟨67, 4⟩,
    ⟨83, 4⟩, ⟨99, 4⟩, ⟨115, 4⟩, ⟨131, 5⟩, ⟨163, 5⟩, ⟨195, 5⟩, ⟨227, 5⟩, ⟨258, 0⟩]

/-- The classes of distances. -/
def distanceSpans : Array Span :=
  #[⟨1, 0⟩, ⟨2, 0⟩, ⟨3, 0⟩, ⟨4, 0⟩, ⟨5, 1⟩, ⟨7, 1⟩, ⟨9, 2⟩, ⟨13, 2⟩, ⟨17, 3⟩, ⟨25, 3⟩, ⟨33, 4⟩,
    ⟨49, 4⟩, ⟨65, 5⟩, ⟨97, 5⟩, ⟨129, 6⟩, ⟨193, 6⟩, ⟨257, 7⟩, ⟨385, 7⟩, ⟨513, 8⟩, ⟨769, 8⟩,
    ⟨1025, 9⟩, ⟨1537, 9⟩, ⟨2049, 10⟩, ⟨3073, 10⟩, ⟨4097, 11⟩, ⟨6145, 11⟩, ⟨8193, 12⟩,
    ⟨12289, 12⟩, ⟨16385, 13⟩, ⟨24577, 13⟩]

/-- The number of the class of a length or distance: the last one that does not begin above
it. -/
def spanOf (spans : Array Span) (n : Nat) : Nat :=
  (spans.toList.takeWhile fun s => s.least ≤ n).length - 1

/-! ### Writing -/

/-- The symbol that ends a block. -/
def endSymbol : Nat :=
  256

/-- The word of a symbol in the fixed code for bytes, lengths and the end of the block. -/
def symbolBits (s : Nat) : List Bool :=
  if s < 144 then bitsBE 8 (48 + s)
  else if s < 256 then bitsBE 9 (400 + (s - 144))
  else if s < 280 then bitsBE 7 (s - 256)
  else bitsBE 8 (192 + (s - 280))

/-- The extra bits of a length or distance in its class. -/
def extraBits (spans : Array Span) (n : Nat) : List Bool :=
  match spans[spanOf spans n]? with
  | some s => bitsLE s.extraBits (n - s.least)
  | none => []

/-- The bits of a token in the fixed codes. -/
def Token.bits : Token → List Bool
  | literal b => symbolBits b.toNat
  | copy length distance =>
    symbolBits (257 + spanOf lengthSpans length) ++ extraBits lengthSpans length ++
      (bitsBE 5 (spanOf distanceSpans distance) ++ extraBits distanceSpans distance)

/-- Compresses some bytes into one block with the fixed codes. -/
def compress (bytes : Array UInt8) (distance : Nat) : List UInt8 :=
  pack ([true, true, false] ++ (tokens bytes distance).toList.flatMap Token.bits ++
    symbolBits endSymbol)

/-! ### Reading codes -/

/-- The codes of a block. -/
structure Codes where
  /-- The code for bytes, lengths and the end of the block. -/
  symbols : Code
  distances : Code

namespace Codes

/-- The fixed codes. -/
def fixed : Codes :=
  ⟨.ofLengths (List.replicate 144 8 ++ List.replicate 112 9 ++ List.replicate 24 7 ++
      List.replicate 8 8),
    .ofLengths (List.replicate 32 5)⟩

/-- The words that are written are those of the fixed code. -/
theorem read_symbolBits {s : Nat} (hs : s < 288) (rest : List Bool) :
    fixed.symbols.read (symbolBits s ++ rest) = .ok (s, rest) := by
  have h : ∀ s < 288,
      (Code.readFrom fixed.symbols.levels 0 (symbolBits s)).toOption = some (s, []) := by
    decide +kernel
  exact Code.readFrom_append (Reader.eq_ok_of_toOption (h s hs)) rest

/-- The words of distances in the fixed code are their numbers. -/
theorem read_distance {d : Nat} (hd : d < 32) (rest : List Bool) :
    fixed.distances.read (bitsBE 5 d ++ rest) = .ok (d, rest) := by
  have h : ∀ d < 32,
      (Code.readFrom fixed.distances.levels 0 (bitsBE 5 d)).toOption = some (d, []) := by
    decide +kernel
  exact Code.readFrom_append (Reader.eq_ok_of_toOption (h d hd)) rest

/-- The symbols for lengths of words, in the order in which the lengths of their own words
stand. -/
def lengthOrder : List Nat :=
  [16, 17, 18, 0, 8, 7, 9, 6, 10, 5, 11, 4, 12, 3, 13, 2, 14, 1, 15]

/-- Reads the lengths of words up to a total of them.  Symbol 16 repeats the length before, and
the two after it stand for several zeros. -/
def readLengths (c : Code) (total : Nat) : (fuel : Nat) → Array Nat → Reader (Array Nat)
  | 0, _ => Reader.refuse
  | fuel + 1, lengths => do
    if total ≤ lengths.size then
      return lengths
    let s ← c.read
    let (count, length?) ←
      match s with
      | 16 => do pure (3 + (← Reader.number 2), lengths.back?)
      | 17 => do pure (3 + (← Reader.number 3), some 0)
      | 18 => do pure (11 + (← Reader.number 7), some 0)
      | n => pure (1, some n)
    match length? with
    | none => Reader.refuse
    | some length =>
      if total < lengths.size + count then
        Reader.refuse
      else
        readLengths c total fuel (lengths ++ Array.replicate count length)

/-- Codes can be used if there is a word for the end of the block, and no sequence of bits is
without a word.  Only few distances need no complete code. -/
def Usable (lengths : List Nat) (c : Codes) : Prop :=
  lengths[endSymbol]?.getD 0 ≠ 0 ∧ c.symbols.Complete ∧ (c.distances.Small ∨ c.distances.Complete)

instance (lengths : List Nat) (c : Codes) : Decidable (c.Usable lengths) :=
  inferInstanceAs (Decidable (_ ∧ _))

/-- Reads the codes at the beginning of a block.  The lengths of their words are themselves
given in a code, whose words have lengths of three bits each. -/
def read : Reader Codes := do
  let symbolCount := 257 + (← Reader.number 5)
  let distanceCount := 1 + (← Reader.number 5)
  let count := 4 + (← Reader.number 4)
  if 286 < symbolCount ∨ 30 < distanceCount then
    Reader.refuse
  -- The code in which the lengths are given.
  let given ← (lengthOrder.take count).mapM fun s => do return (s, ← Reader.number 3)
  let code := Code.ofLengths ((List.range 19).map fun s => (given.lookup s).getD 0)
  if ¬ code.Complete then
    Reader.refuse
  -- Both codes in one sequence of lengths.
  let total := symbolCount + distanceCount
  let lengths := (← readLengths code total (total + 1) #[]).toList
  let codes : Codes :=
    ⟨.ofLengths (lengths.take symbolCount), .ofLengths (lengths.drop symbolCount)⟩
  if codes.Usable (lengths.take symbolCount) then
    return codes
  else
    Reader.refuse

end Codes

/-! ### Reading blocks -/

/-- Reads the rest of a length or distance whose class is known. -/
def readSpan (spans : Array Span) (number : Nat) : Reader Nat := do
  match spans[number]? with
  | some s => return s.least + (← Reader.number s.extraBits)
  | none => Reader.refuse

/-- Reads a token, or none at the end of the block. -/
def Codes.readToken (c : Codes) : Reader (Option Token) := do
  let s ← c.symbols.read
  if s < endSymbol then
    return some (.literal s.toUInt8)
  else if s = endSymbol then
    return none
  else
    let length ← readSpan lengthSpans (s - 257)
    let distance ← readSpan distanceSpans (← c.distances.read)
    return some (.copy length distance)

/-- Reads tokens up to the end of a block, at most `fuel` of them, and appends what they stand
for.  The answer is the bytes, and what is left or why no more could be read. -/
def Codes.expand (c : Codes) : (fuel : Nat) → List Bool → Array UInt8 →
    Array UInt8 × Except Stop (List Bool)
  | 0, _, out => (out, .error .exhausted)
  | fuel + 1, bits, out =>
    match c.readToken bits with
    | .error e => (out, .error e)
    | .ok (none, bits) => (out, .ok bits)
    | .ok (some t, bits) =>
      match t.appendTo? out with
      | some out => expand c fuel bits out
      | none => (#[], .error .corrupt)

/-- What a block holds. -/
inductive Block where
  /-- So many bytes as they are. -/
  | stored (length : Nat)
  /-- Tokens in some codes. -/
  | coded (codes : Codes)

/-- Reads the beginning of a block: whether it is the last one, and what it holds.  The length
of stored bytes is followed by its complement. -/
def Block.read : Reader (Bool × Block) := do
  let final ← Reader.number 1
  match ← Reader.number 2 with
  | 0 =>
    Reader.align
    let length ← Reader.number 16
    let complement ← Reader.number 16
    if length + complement = 65535 then
      return (final = 1, .stored length)
    else
      Reader.refuse
  | 1 => return (final = 1, .coded .fixed)
  | 2 => return (final = 1, .coded (← Codes.read))
  | _ => Reader.refuse

/-- Appends the content of a block. -/
def Block.expand (b : Block) (bits : List Bool) (out : Array UInt8) :
    Array UInt8 × Except Stop (List Bool) :=
  match b with
  | stored length =>
    let front := bits.take (8 * length)
    (out.appendList (pack front),
      if front.length = 8 * length then .ok (bits.drop (8 * length)) else .error .exhausted)
  | coded codes => codes.expand (bits.length + 1) bits out

/-- Reads blocks up to the last one, at most `fuel` of them. -/
def expandBlocks : (fuel : Nat) → List Bool → Array UInt8 → Array UInt8 × Except Stop (List Bool)
  | 0, _, out => (out, .error .exhausted)
  | fuel + 1, bits, out =>
    match Block.read bits with
    | .error e => (out, .error e)
    | .ok ((final, block), bits) =>
      match block.expand bits out with
      | (out, .ok bits) => if final then (out, .ok bits) else expandBlocks fuel bits out
      | (out, .error e) => (out, .error e)

/-- Reads compressed bytes, unless they are corrupt.  What follows the last block is not
looked at. -/
def inflate? (bytes : List UInt8) : Option (Array UInt8) :=
  let bits := unpack bytes
  match expandBlocks (bits.length + 1) bits #[] with
  | (_, .error .corrupt) => none
  | (out, _) => some out

end Deflate

end Piet
