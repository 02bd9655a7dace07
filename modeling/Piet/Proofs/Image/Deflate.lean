import Mathlib.Algebra.Ring.Nat
import Mathlib.Tactic.Common
import Piet.Image.Deflate.Block

/-!
# Compression loses nothing

What `Deflate.compress` writes is taken apart again in the order in which it was put together: the
bytes into bits, the bits into tokens, and the tokens into the bytes for which they were found.

* `unpack_pack`: the bits of packed bytes, up to zeros at the end.
* `Reads`: a reader finds what was written for it, whatever follows.
* `Reproduces`: tokens that stand for the rest of some bytes.
* `inflate?_compress`: compressed bytes are read as they were.
-/

namespace Piet

namespace Deflate

/-! ### Packed bits -/

/-- A number of few bits is written as these bits and zeros. -/
theorem bitsLE_numberLE {bits : List Bool} {width : ℕ} (h : bits.length ≤ width) :
    bitsLE width (numberLE bits) = bits ++ List.replicate (width - bits.length) false := by
  induction bits generalizing width with
  | nil =>
    induction width with
    | zero => rfl
    | succ width ih => exact congrArg (false :: ·) (ih (Nat.zero_le _))
  | cons b bits ih =>
    cases width with
    | zero => cases h
    | succ width =>
      have hrest : numberLE (b :: bits) / 2 = numberLE bits := by
        have : numberLE (b :: bits) = b.toNat + 2 * numberLE bits := rfl
        have := b.toNat_lt
        omega
      have hbit : (numberLE (b :: bits) % 2 == 1) = b := by
        have : numberLE (b :: bits) = b.toNat + 2 * numberLE bits := rfl
        cases b <;> simp_all [Nat.add_mod]
      rw [bitsLE, hrest, hbit, ih (Nat.le_of_succ_le_succ h), List.length_cons,
        Nat.add_sub_add_right]
      rfl

theorem numberLE_lt (bits : List Bool) : numberLE bits < 2 ^ bits.length := by
  induction bits with
  | nil => exact Nat.one_pos
  | cons b bits ih =>
    have : numberLE (b :: bits) = b.toNat + 2 * numberLE bits := rfl
    have := b.toNat_lt
    rw [List.length_cons, Nat.pow_succ]
    omega

/-- The bits of a byte that was packed. -/
theorem bitsLE_toUInt8 {bits : List Bool} (h : bits.length ≤ 8) :
    bitsLE 8 (numberLE bits).toUInt8.toNat =
      bits ++ List.replicate (8 - bits.length) false := by
  have hlt : numberLE bits < 256 :=
    Nat.lt_of_lt_of_le (numberLE_lt bits) (Nat.pow_le_pow_right Nat.two_pos h)
  have hbyte : (numberLE bits).toUInt8.toNat = numberLE bits :=
    (UInt8.toNat_ofNat' ..).trans (Nat.mod_eq_of_lt hlt)
  rw [hbyte, bitsLE_numberLE h]

theorem unpack_append (front rest : List UInt8) :
    unpack (front ++ rest) = unpack front ++ unpack rest :=
  List.flatMap_append

/-- Packed bits can be had back from their bytes, up to zeros at the end. -/
theorem unpack_pack (bits : List Bool) :
    ∃ k, unpack (pack bits) = bits ++ List.replicate k false := by
  induction bits using pack.induct with
  | case1 a b c d e f g h rest ih =>
    obtain ⟨k, ih⟩ := ih
    refine ⟨k, ?_⟩
    have hbyte : bitsLE 8 (numberLE [a, b, c, d, e, f, g, h]).toUInt8.toNat =
        [a, b, c, d, e, f, g, h] ++ [] :=
      bitsLE_toUInt8 (Nat.le_refl 8)
    rw [unpack] at ih ⊢
    rw [pack, List.flatMap_cons, hbyte, ih]
    rfl
  | case2 => exact ⟨0, rfl⟩
  | case3 rest h8 hnil =>
    -- Only a list of at least eight bits has the shape of the first case.
    have hlength : rest.length ≤ 8 := by
      rcases rest with _ | ⟨_, _ | ⟨_, _ | ⟨_, _ | ⟨_, _ | ⟨_, _ | ⟨_, _ | ⟨_, _ | ⟨_, _⟩⟩⟩⟩⟩⟩⟩⟩
      case cons.cons.cons.cons.cons.cons.cons.cons => exact (h8 _ _ _ _ _ _ _ _ _ rfl).elim
      all_goals exact Nat.le_of_ble_eq_true rfl
    refine ⟨8 - rest.length, ?_⟩
    rw [pack.eq_3 rest h8 hnil, unpack, List.flatMap_cons, bitsLE_toUInt8 hlength]
    exact List.append_nil _

/-! ### Reading what was written -/

/-- A reader finds a value in the bits in front, and leaves what follows them. -/
def Reads {α : Type} (reader : Reader α) (bits : List Bool) (a : α) : Prop :=
  ∀ rest, reader (bits ++ rest) = .ok (a, rest)

namespace Reads

variable {α β : Type} {reader : Reader α} {front bits : List Bool} {a : α} {b : β}

theorem pure (a : α) : Reads (Pure.pure a) [] a :=
  fun _ => rfl

/-- What is read in two parts was written in two parts. -/
theorem bind {next : α → Reader β} (h : Reads reader front a) (hnext : Reads (next a) bits b) :
    Reads (reader >>= next) (front ++ bits) b := fun rest => by
  have hfront : reader (front ++ (bits ++ rest)) = .ok (a, bits ++ rest) := h _
  rw [List.append_assoc]
  simp only [Bind.bind, StateT.bind, hfront, Except.bind]
  exact hnext rest

/-- What is computed at the end takes no bits. -/
theorem bind_pure {next : α → Reader β} (h : Reads reader front a)
    (hnext : next a = Pure.pure b) : Reads (reader >>= next) front b := by
  have hrest : Reads (next a) [] b := hnext ▸ pure b
  have hall := h.bind hrest
  rwa [List.append_nil] at hall

end Reads

theorem reads_number {width n : ℕ} (h : n < 2 ^ width) :
    Reads (Reader.number width) (bitsLE width n) n := fun rest => by
  rw [Reader.number_append]
  exact congrArg (fun k => Except.ok (k, rest)) (Nat.mod_eq_of_lt h)

theorem reads_symbol {s : ℕ} (h : s < 288) : Reads Codes.fixed.symbols.read (symbolBits s) s :=
  Codes.read_symbolBits h

theorem reads_distance {d : ℕ} (h : d < 32) : Reads Codes.fixed.distances.read (bitsBE 5 d) d :=
  Codes.read_distance h

/-- Some class holds a length or distance: it is the least in it, or not much more. -/
def Covers (spans : Array Span) (n : ℕ) : Prop :=
  ∃ s ∈ spans[spanOf spans n]?, s.least ≤ n ∧ n < s.least + 2 ^ s.extraBits

theorem Covers.spanOf_lt {spans : Array Span} {n : ℕ} (h : Covers spans n) :
    spanOf spans n < spans.size :=
  let ⟨_, hs, _⟩ := h
  (Array.getElem?_eq_some_iff.mp hs).1

theorem reads_span {spans : Array Span} {n : ℕ} (h : Covers spans n) :
    Reads (readSpan spans (spanOf spans n)) (extraBits spans n) n := by
  obtain ⟨s, hs, hle, hlt⟩ := h
  rw [readSpan, extraBits, hs]
  refine (reads_number (by omega)).bind_pure ?_
  rw [Nat.add_sub_cancel' hle]

/-- Every length of a copy has a class. -/
theorem covers_length {n : ℕ} (h : 3 ≤ n) (hmax : n ≤ maxCopy) : Covers lengthSpans n := by
  have hall : ∀ n ≤ maxCopy, 3 ≤ n → (lengthSpans[spanOf lengthSpans n]?).any fun s =>
      s.least ≤ n ∧ n < s.least + 2 ^ s.extraBits := by
    decide +kernel
  obtain ⟨s, hs, hn⟩ := Option.any_eq_true _ _ |>.mp (hall n hmax h)
  exact ⟨s, hs, of_decide_eq_true hn⟩

/-- A token can be written if its length and its distance have classes. -/
def Token.Writable : Token → Prop
  | literal _ => True
  | copy length distance => Covers lengthSpans length ∧ Covers distanceSpans distance

theorem reads_token {t : Token} (h : t.Writable) :
    Reads Codes.fixed.readToken t.bits (some t) := by
  cases t with
  | literal b =>
    have hb : b.toNat < endSymbol := b.toNat_lt
    refine (reads_symbol (Nat.lt_trans hb (by decide))).bind_pure ?_
    rw [if_pos hb]
    exact congrArg (fun b => Pure.pure (some (Token.literal b))) UInt8.ofNat_toNat
  | copy length distance =>
    obtain ⟨hlength, hdistance⟩ := h
    have hl : spanOf lengthSpans length < 29 := hlength.spanOf_lt
    have hd : spanOf distanceSpans distance < 30 := hdistance.spanOf_lt
    have hsymbol := reads_symbol (s := 257 + spanOf lengthSpans length) (by omega)
    rw [Token.bits, List.append_assoc]
    refine hsymbol.bind ?_
    rw [if_neg (by simp only [endSymbol]; omega), if_neg (by simp only [endSymbol]; omega),
      Nat.add_sub_cancel_left]
    refine (reads_span hlength).bind ((reads_distance (by omega)).bind ?_)
    exact (reads_span hdistance).bind_pure rfl

theorem reads_end : Reads Codes.fixed.readToken (symbolBits endSymbol) none :=
  (reads_symbol (by decide)).bind_pure rfl

/-! ### Tokens for some bytes -/

/-- What a run consists of: bytes that equal the ones so far before them. -/
theorem runLength_spec (bytes : Array UInt8) (distance bound i : ℕ) :
    runLength bytes distance bound i ≤ bound ∧
      ∀ k < runLength bytes distance bound i,
        distance ≤ i + k ∧ i + k < bytes.size ∧ bytes[i + k]? = bytes[i + k - distance]? := by
  induction bound generalizing i with
  | zero => exact ⟨Nat.le_refl 0, fun k hk => (Nat.not_lt_zero k hk).elim⟩
  | succ bound ih =>
    rw [runLength]
    split
    · next hfirst =>
      obtain ⟨hle, hrest⟩ := ih (i + 1)
      refine ⟨Nat.succ_le_succ hle, fun k hk => ?_⟩
      cases k with
      | zero => exact hfirst
      | succ k =>
        rw [show i + (k + 1) = i + 1 + k by omega]
        exact hrest k (Nat.lt_of_succ_lt_succ hk)
    · exact ⟨Nat.zero_le _, fun k hk => (Nat.not_lt_zero k hk).elim⟩

/-- A copy of a run goes on with the bytes of which it is a run. -/
theorem copyBytes_take {bytes : Array UInt8} {distance length i : ℕ} (hpos : 0 < distance)
    (hrun : ∀ k < length, distance ≤ i + k ∧ i + k < bytes.size ∧
      bytes[i + k]? = bytes[i + k - distance]?) :
    copyBytes (bytes.extract 0 i) distance length = some (bytes.extract 0 (i + length)) := by
  induction length generalizing i with
  | zero => rfl
  | succ length ih =>
    obtain ⟨hle, hlt, heq⟩ := hrun 0 (Nat.succ_pos _)
    rw [Nat.add_zero] at hle hlt heq
    have hsize : (bytes.extract 0 i).size = i := by
      rw [Array.size_extract]
      omega
    have hbyte : (bytes.extract 0 i)[i - distance]? = some bytes[i] := by
      rw [Array.getElem?_extract, if_pos (by omega), Nat.zero_add, ← heq,
        Array.getElem?_eq_getElem hlt]
    have hpush : (bytes.extract 0 i).push bytes[i] = bytes.extract 0 (i + 1) := by
      rw [Array.push_extract_getElem, Nat.zero_min]
    rw [copyBytes, if_pos ⟨hpos, by omega⟩, hsize, hbyte]
    dsimp only
    rw [hpush, show i + (length + 1) = i + 1 + length by omega]
    refine ih fun k hk => ?_
    rw [show i + 1 + k = i + (k + 1) by omega]
    exact hrun (k + 1) (Nat.succ_lt_succ hk)

/-- A token that has a class, and stands for a byte or for a copy at the given distance. -/
def Token.At (distance : ℕ) : Token → Prop
  | literal _ => True
  | copy length d => 3 ≤ length ∧ length ≤ maxCopy ∧ d = distance

/-- Some tokens stand for the bytes from number `i` on. -/
structure Reproduces (bytes : Array UInt8) (distance i : ℕ) (ts : List Token) : Prop where
  expands : ts.foldlM Token.appendTo? (bytes.extract 0 i) = some bytes
  each : ∀ t ∈ ts, t.At distance

/-- No tokens are needed at the end. -/
theorem Reproduces.nil (bytes : Array UInt8) (distance : ℕ) :
    Reproduces bytes distance bytes.size [] where
  expands := by
    rw [Array.extract_size]
    rfl
  each := List.forall_mem_nil _

/-- One more token in front: it goes on with the bytes up to where the others begin. -/
theorem Reproduces.cons {bytes : Array UInt8} {distance i j : ℕ} {t : Token} {ts : List Token}
    (h : Reproduces bytes distance j ts) (ht : t.At distance)
    (happend : t.appendTo? (bytes.extract 0 i) = some (bytes.extract 0 j)) :
    Reproduces bytes distance i (t :: ts) where
  expands := by
    rw [List.foldlM_cons, happend]
    exact h.expands
  each := List.forall_mem_cons.mpr ⟨ht, h.each⟩

/-- The search finds tokens for all bytes that are left. -/
theorem tokensFrom_reproduces {bytes : Array UInt8} {distance fuel i : ℕ} (hpos : 0 < distance)
    (hi : i ≤ bytes.size) (hfuel : bytes.size - i ≤ fuel) (found : Array Token) :
    ∃ ts, (tokensFrom bytes distance fuel i found).toList = found.toList ++ ts ∧
      Reproduces bytes distance i ts := by
  induction fuel generalizing i found with
  | zero =>
    obtain rfl : i = bytes.size := by omega
    exact ⟨[], (List.append_nil _).symm, .nil bytes distance⟩
  | succ fuel ih =>
    rw [tokensFrom]
    by_cases hlt : i < bytes.size
    case neg =>
      obtain rfl : i = bytes.size := by omega
      rw [Array.getElem?_eq_none (Nat.le_refl _)]
      exact ⟨[], (List.append_nil _).symm, .nil bytes distance⟩
    rw [Array.getElem?_eq_getElem hlt]
    obtain ⟨hmax, hrun⟩ := runLength_spec bytes distance maxCopy i
    dsimp only
    split
    -- A run becomes a copy only if it is long enough to have a class.
    case isTrue hlong =>
      set n := runLength bytes distance maxCopy i with hn
      obtain ⟨-, hlast, -⟩ := hrun (n - 1) (by omega)
      obtain ⟨ts, hts, hrest⟩ := ih (i := i + n) (by omega) (by omega)
        (found.push (.copy n distance))
      refine ⟨.copy n distance :: ts, ?_, hrest.cons ⟨hlong, hmax, rfl⟩ ?_⟩
      · rw [hts, Array.toList_push, List.append_assoc]
        rfl
      · exact copyBytes_take hpos hrun
    case isFalse =>
      obtain ⟨ts, hts, hrest⟩ := ih (i := i + 1) (by omega) (by omega)
        (found.push (.literal bytes[i]))
      refine ⟨.literal bytes[i] :: ts, ?_, hrest.cons trivial ?_⟩
      · rw [hts, Array.toList_push, List.append_assoc]
        rfl
      · rw [Token.appendTo?, Array.push_extract_getElem, Nat.zero_min]

/-- The tokens of some bytes stand for them. -/
theorem tokens_reproduces (bytes : Array UInt8) {distance : ℕ} (h : 0 < distance) :
    Reproduces bytes distance 0 (tokens bytes distance).toList := by
  have hfuel : bytes.size - 0 ≤ bytes.size := Nat.sub_le ..
  obtain ⟨ts, hts, hrep⟩ := tokensFrom_reproduces h (Nat.zero_le _) hfuel #[]
  rw [tokens, hts]
  exact hrep

/-! ### Expanding -/

/-- Every token takes at least one bit. -/
theorem length_bits_pos (t : Token) : 0 < t.bits.length := by
  have hsymbol (s : ℕ) : 0 < (symbolBits s).length := by
    rw [symbolBits]
    split_ifs <;> simp [bitsBE]
  cases t with
  | literal b => exact hsymbol _
  | copy length distance =>
    rw [Token.bits, List.append_assoc, List.length_append]
    exact Nat.add_pos_left (hsymbol _) _

theorem length_le_length_flatMap (ts : List Token) : ts.length ≤ (ts.flatMap Token.bits).length := by
  induction ts with
  | nil => exact Nat.le_refl 0
  | cons t ts ih =>
    have ht := length_bits_pos t
    rw [List.flatMap_cons, List.length_append, List.length_cons]
    omega

/-- Written tokens are expanded up to the end of the block. -/
theorem expand_tokens {ts : List Token} {fuel : ℕ} {out bytes : Array UInt8}
    (hwritable : ∀ t ∈ ts, t.Writable) (h : ts.foldlM Token.appendTo? out = some bytes)
    (hfuel : ts.length < fuel) (rest : List Bool) :
    Codes.fixed.expand fuel (ts.flatMap Token.bits ++ (symbolBits endSymbol ++ rest)) out =
      (bytes, .ok rest) := by
  induction ts generalizing fuel out with
  | nil =>
    obtain ⟨fuel, rfl⟩ := Nat.exists_eq_add_one_of_ne_zero (Nat.ne_of_gt hfuel)
    obtain rfl := Option.some.inj h
    rw [List.flatMap_nil, List.nil_append, Codes.expand, reads_end]
  | cons t ts ih =>
    obtain ⟨ht, hts⟩ := List.forall_mem_cons.mp hwritable
    obtain ⟨fuel, rfl⟩ := Nat.exists_eq_add_one_of_ne_zero (Nat.ne_of_gt (Nat.zero_lt_of_lt hfuel))
    rw [List.foldlM_cons] at h
    obtain ⟨out', happend, hrest⟩ := Option.bind_eq_some_iff.mp h
    rw [List.flatMap_cons, List.append_assoc, Codes.expand, reads_token ht]
    dsimp only
    rw [happend]
    exact ih hts hrest (Nat.lt_of_succ_lt_succ hfuel)

/-- The beginning of a block that is the last one and has the fixed codes. -/
theorem reads_block : Reads Block.read [true, true, false] (true, .coded .fixed) :=
  have hfinal : Reads (Reader.number 1) [true] 1 := @reads_number 1 1 (by decide)
  have hkind : Reads (Reader.number 2) [true, false] 1 := @reads_number 2 1 (by decide)
  hfinal.bind (hkind.bind_pure rfl)

/-- **Compression loses nothing.**  What follows the compressed bytes makes no difference. -/
theorem inflate?_compress {distance : ℕ} (h : Covers distanceSpans distance) (hpos : 0 < distance)
    (bytes : Array UInt8) (rest : List UInt8) :
    inflate? (compress bytes distance ++ rest) = some bytes := by
  obtain ⟨hexpand, heach⟩ := tokens_reproduces bytes hpos
  rw [Array.extract_zero] at hexpand
  have hwritable : ∀ t ∈ (tokens bytes distance).toList, t.Writable := by
    intro t ht
    cases t with
    | literal b => trivial
    | copy length d =>
      obtain ⟨hmin, hmax, rfl⟩ := heach _ ht
      exact ⟨covers_length hmin hmax, h⟩
  rw [compress]
  set ts := (tokens bytes distance).toList
  obtain ⟨k, hbits⟩ := unpack_pack
    ([true, true, false] ++ ts.flatMap Token.bits ++ symbolBits endSymbol)
  have hfuel := length_le_length_flatMap ts
  rw [inflate?, unpack_append, hbits, List.append_assoc, List.append_assoc, List.append_assoc,
    expandBlocks, reads_block]
  dsimp only [Block.expand]
  rw [expand_tokens hwritable hexpand (by rw [List.length_append]; omega)]
  rfl

end Deflate

end Piet
