import Mathlib.Data.Nat.Notation
import Mathlib.Tactic.Common
import Piet.Image.Png.Basic
import Piet.Proofs.Image.Deflate
import Piet.Proofs.Image.Raster

/-!
# PNG files lose nothing

A reader finds in a file what was written there part by part: the chunks, the header, the compressed
data, the rows and the pixels in them.

* `Png.readData?_dataChunks`: the pieces of the image data come together again.
* `Png.pixels?_rowBytes`: the pixels in the rows of a raster are those of the raster.
* `Png.decode?_encode?`: a raster with pixels has a file, and the file holds the raster.
-/

namespace Piet

namespace Png

/-! ### Chunks -/

section Chunks

variable {tag : Tag} {content rest : List UInt8}

theorem length_encode (htag : tag.length = 4) :
    (Chunk.encode tag content).length = content.length + 12 := by
  simp only [Chunk.encode, List.length_append, Bytes.length_encodeBE, htag]
  omega

/-- The tag of a chunk can be told before the chunk is read. -/
theorem nextTag?_encode (htag : tag.length = 4) :
    Chunk.nextTag? (Chunk.encode tag content ++ rest) = some tag := by
  rw [Chunk.nextTag?, Chunk.encode]
  simp only [List.append_assoc, Bytes.take?_append (Bytes.length_encodeBE 4 _),
    Bytes.take?_append htag, bind, Option.bind, pure]

/-- A chunk is read as it was written, and leaves what follows it. -/
theorem take?_encode (htag : tag.length = 4) (hlength : content.length < UInt32.size) :
    Chunk.take? (Chunk.encode tag content ++ rest) =
      some (⟨tag, content, Chunk.expected tag content⟩, rest) := by
  have hsize : Bytes.numberBE (Bytes.encodeBE 4 content.length) = content.length := by
    rw [Bytes.numberBE_encodeBE]
    exact Nat.mod_eq_of_lt hlength
  have hsum : Bytes.numberBE (Bytes.encodeBE 4 (Chunk.expected tag content)) =
      Chunk.expected tag content := by
    rw [Bytes.numberBE_encodeBE]
    exact Nat.mod_eq_of_lt (UInt32.toNat_lt _)
  rw [Chunk.take?, Chunk.encode]
  simp only [List.append_assoc, Bytes.take?_append (Bytes.length_encodeBE 4 _),
    Bytes.take?_append htag, hsize, Bytes.take?_append (rfl : content.length = _), hsum, bind,
    Option.bind, pure]

theorem dataChunks_nil (count : ℕ) : dataChunks count [] = [] := by
  cases count <;> rfl

theorem dataChunks_succ (h : content ≠ []) (count : ℕ) :
    dataChunks (count + 1) content =
      Chunk.encode Tag.data (content.take maxPiece) ++
        dataChunks count (content.drop maxPiece) := by
  cases content with
  | nil => exact absurd rfl h
  | cons => rfl

theorem nextTag?_dataChunks (h : content ≠ []) :
    Chunk.nextTag? (dataChunks content.length content ++ rest) = some Tag.data := by
  obtain ⟨n, hn⟩ := Nat.exists_eq_add_one_of_ne_zero
    (Nat.ne_of_gt (List.length_pos_iff.mpr h))
  rw [hn, dataChunks_succ h, List.append_assoc, nextTag?_encode rfl]

/-- The end of the file ends the image data. -/
theorem readData?_close {fuel : ℕ} (hfuel : 0 < fuel) (number : ℕ) :
    readData? Tag.data fuel number (Chunk.encode Tag.close []) = some [] := by
  obtain ⟨fuel, rfl⟩ := Nat.exists_eq_add_one_of_ne_zero (Nat.ne_of_gt hfuel)
  rfl

/-- A chunk of image data goes in front of what the other ones hold. -/
theorem readData?_append {fuel number : ℕ} {more : List UInt8}
    (hlength : content.length < UInt32.size)
    (h : readData? Tag.data fuel (number + 1) rest = some more) :
    readData? Tag.data (fuel + 1) number (Chunk.encode Tag.data content ++ rest) =
      some (content ++ more) := by
  have hintact : (⟨Tag.data, content, Chunk.expected Tag.data content⟩ : Chunk).Intact := rfl
  have hkind : Tag.data ≠ Tag.frameData := by decide
  have htake : Chunk.take? (Chunk.encode Tag.data content ++ rest) =
      some (⟨Tag.data, content, Chunk.expected Tag.data content⟩, rest) :=
    take?_encode rfl hlength
  rw [readData?, nextTag?_encode rfl]
  simp only [htake, hintact, hkind, h, bind, Option.bind, pure, ne_eq,
    not_true_eq_false, and_false, if_false]

/-- The pieces of the image data come together again, up to the end of the file. -/
theorem readData?_dataChunks {fuel count : ℕ} (hcount : content.length ≤ count)
    (hfuel : (dataChunks count content).length < fuel) (number : ℕ) :
    readData? Tag.data fuel number (dataChunks count content ++ Chunk.encode Tag.close []) =
      some content := by
  -- One chunk more for each round: it takes bytes of the file, so that the fuel lasts, and bytes of
  -- the content, so that the rounds do.
  induction count generalizing content fuel number with
  | zero =>
    obtain rfl := List.eq_nil_of_length_eq_zero (Nat.le_zero.mp hcount)
    rw [dataChunks_nil, List.nil_append]
    exact readData?_close (Nat.zero_lt_of_lt hfuel) number
  | succ count ih =>
    by_cases hcontent : content = []
    case pos =>
      subst hcontent
      rw [dataChunks_nil, List.nil_append]
      exact readData?_close (Nat.zero_lt_of_lt hfuel) number
    rw [dataChunks_succ hcontent] at hfuel ⊢
    rw [List.length_append, length_encode rfl] at hfuel
    obtain ⟨fuel, rfl⟩ : ∃ k, fuel = k + 1 := Nat.exists_eq_add_one_of_ne_zero (by omega)
    have hpiece : (content.take maxPiece).length < UInt32.size := by
      have hmax : maxPiece < UInt32.size := by decide
      exact Nat.lt_of_le_of_lt (List.length_take_le ..) hmax
    have hpos : 0 < maxPiece := by decide
    have hdrop := List.length_pos_iff.mpr hcontent
    have hleft : (content.drop maxPiece).length ≤ count := by
      rw [List.length_drop]
      omega
    have hfuel' : (dataChunks count (content.drop maxPiece)).length < fuel := by omega
    rw [List.append_assoc, readData?_append hpiece (ih hleft hfuel' (number + 1)),
      List.take_append_drop]

end Chunks

/-! ### Rows and pixels -/

section Pixels

variable {r : Raster}

/-- What is written for a pixel. -/
def pixelBytes (c : Rgb) : List UInt8 :=
  [c.red, c.green, c.blue]

/-- What is written for a row. -/
def rowContent (r : Raster) (y : ℕ) : List UInt8 :=
  0 :: (r.row y).flatMap pixelBytes

theorem toList_rowBytes (r : Raster) :
    (rowBytes r).toList = (List.range r.height).flatMap (rowContent r) := by
  refine toList_foldl (fun out y => ?_) _ _
  rw [← Array.foldl_toList]
  refine (toList_foldl (f := pixelBytes) (fun out c => ?_) _ _).trans ?_
  · simp [pixelBytes]
  · rw [Array.toList_push, List.append_assoc]
    rfl

theorem length_rowContent {y : ℕ} (hy : y < r.height) :
    (rowContent r y).length = 1 + 3 * r.width := by
  have hpixels : ((r.row y).flatMap pixelBytes).length = 3 * (r.row y).length :=
    length_flatMap_const fun _ _ => rfl
  rw [rowContent, List.length_cons, hpixels, Raster.length_row hy, Nat.add_comm]

theorem size_rowBytes (r : Raster) : (rowBytes r).size = (1 + 3 * r.width) * r.height := by
  rw [← Array.length_toList, toList_rowBytes,
    length_flatMap_const fun y hy => length_rowContent (List.mem_range.mp hy), List.length_range]

/-- A place in the rows: the number of the row, and the place in it. -/
theorem getElem?_rowBytes {y j : ℕ} (hy : y < r.height) (hj : j < 1 + 3 * r.width) :
    (rowBytes r)[(1 + 3 * r.width) * y + j]? = (rowContent r y)[j]? := by
  rw [← Array.getElem?_toList, toList_rowBytes]
  exact getElem?_flatMap_const (fun y hy => length_rowContent (List.mem_range.mp hy))
    (by rw [List.getElem?_range hy]) hj

/-- Rows without filters are read as they are. -/
theorem readRows?_plain {bytes : Array UInt8} {pixelSize size count start : ℕ}
    (hfilter : ∀ k < count, bytes[start + (1 + size) * k]? = some 0)
    (hsize : start + (1 + size) * count ≤ bytes.size) (above : Array UInt8)
    (rows : Array (Array UInt8)) :
    Pass.readRows? pixelSize size bytes count start above rows =
      some (rows ++ ((List.range count).map fun k =>
        bytes.extract (start + (1 + size) * k + 1) (start + (1 + size) * (k + 1))).toArray) := by
  induction count generalizing start above rows with
  | zero => rw [Pass.readRows?, List.range_zero, List.map_nil, Array.append_empty]
  | succ count ih =>
    have hfirst : bytes[start]? = some 0 := hfilter 0 (Nat.succ_pos _)
    have hnext (k : ℕ) : start + 1 + size + (1 + size) * k = start + (1 + size) * (k + 1) := by
      rw [Nat.mul_succ]
      omega
    have henough : ¬ bytes.size < start + 1 + size := by
      have := hnext count
      omega
    rw [Pass.readRows?, hfirst]
    simp only [bind, Option.bind, Filter.ofByte?, if_neg henough, Filter.restore_plain]
    rw [ih (fun k hk => hnext k ▸ hfilter (k + 1) (Nat.succ_lt_succ hk)) (hnext count ▸ hsize)]
    have hrow : start + 1 + size = start + (1 + size) * (0 + 1) := hnext 0
    rw [List.range_succ_eq_map, List.map_cons, List.map_map, hrow, Array.push_eq_append,
      Array.append_assoc, Nat.mul_zero, Nat.add_zero]
    simp only [← hrow, hnext]
    exact congrArg (fun more => some (rows ++ more)) (List.append_toArray [_] _)

/-- The header of the file of a raster. -/
def headerOf (r : Raster) : Header :=
  ⟨r.width, r.height, 8, .rgb, false⟩

theorem pixelAt_headerOf (palette : Palette) (row : Array UInt8) (x : ℕ) :
    pixelAt (headerOf r) palette row x =
      ⟨row[x * 3]?.getD 0, row[x * 3 + 1]?.getD 0, row[x * 3 + 2]?.getD 0⟩ := by
  simp only [pixelAt, headerOf, ColorType.channels, Sample.get_eight, Sample.toByte_eight,
    Nat.add_zero]

/-- The rows that are read from those of a raster. -/
def readBack (r : Raster) (y : ℕ) : Array UInt8 :=
  (rowBytes r).extract ((1 + 3 * r.width) * y + 1) ((1 + 3 * r.width) * (y + 1))

/-- A byte of a row is a channel of a pixel in it. -/
theorem getElem?_readBack {x y k : ℕ} {c : Rgb} (hy : y < r.height) (hc : (r.row y)[x]? = some c)
    (hk : k < 3) : (readBack r y)[x * 3 + k]? = (pixelBytes c)[k]? := by
  have hx : x < r.width := by
    rw [← Raster.length_row hy]
    exact (List.getElem?_eq_some_iff.mp hc).1
  have hlast : (1 + 3 * r.width) * (y + 1) ≤ (rowBytes r).size := by
    rw [size_rowBytes]
    exact Nat.mul_le_mul_left _ hy
  have hthree : ∀ c ∈ r.row y, (pixelBytes c).length = 3 := fun _ _ => rfl
  -- The byte in front of the row tells the filter; the channels stand one place further.
  have hplace : (1 + 3 * r.width) * y + 1 + (x * 3 + k) =
      (1 + 3 * r.width) * y + (3 * x + k + 1) := by
    omega
  have hnext : (1 + 3 * r.width) * (y + 1) = (1 + 3 * r.width) * y + (1 + 3 * r.width) :=
    Nat.mul_succ ..
  rw [readBack, Array.getElem?_extract, if_pos (by omega), hplace,
    getElem?_rowBytes hy (by omega), rowContent, List.getElem?_cons_succ,
    getElem?_flatMap_const hthree hc hk]

/-- There is one pass over all pixels. -/
theorem readAll?_rowBytes (hwidth : r.width ≠ 0) :
    Pass.readAll? (headerOf r) (rowBytes r) Pass.plain 0 =
      some [(⟨0, 0, 1, 1⟩, ((List.range r.height).map (readBack r)).toArray)] := by
  have hcolumns : Pass.columns ⟨0, 0, 1, 1⟩ (headerOf r) = r.width := Nat.div_one _
  have hcount : Pass.rows ⟨0, 0, 1, 1⟩ (headerOf r) = r.height := by
    rw [Pass.rows, hcolumns, if_neg hwidth]
    exact Nat.div_one _
  have hbits : (headerOf r).pixelBits = 24 := rfl
  have hpixel : (headerOf r).pixelSize = 3 := by rw [Header.pixelSize, hbits]
  have hsize : Pass.rowSize ⟨0, 0, 1, 1⟩ (headerOf r) = 3 * r.width := by
    rw [Pass.rowSize, hcolumns, hbits, Sample.rowSize]
    omega
  have hrows : Pass.readRows? 3 (3 * r.width) (rowBytes r) r.height 0 #[] #[] =
      some ((List.range r.height).map (readBack r)).toArray := by
    rw [readRows?_plain]
    · simp only [Nat.zero_add, Array.empty_append]
      rfl
    · intro k hk
      rw [Nat.zero_add, ← Nat.add_zero (_ * k), getElem?_rowBytes hk (by omega)]
      rfl
    · exact Nat.le_of_eq ((Nat.zero_add _).trans (size_rowBytes r).symm)
  simp only [Pass.plain, Pass.readAll?, hcount, hsize, hpixel, hrows, bind, Option.bind, pure]

theorem find?_plain (rows : Array (Array UInt8)) (y x : ℕ) :
    Pass.find? ⟨0, 0, 1, 1⟩ rows y x = rows[y]?.map fun row => (row, x) := by
  simp only [Pass.find?, Nat.zero_le, Nat.mod_one, Nat.sub_zero, Nat.div_one, and_true, if_true]

/-- **The pixels in the rows of a raster** are those of the raster. -/
theorem pixels?_rowBytes (hwidth : r.width ≠ 0) (palette : Palette) :
    pixels? (headerOf r) palette (rowBytes r) = some r.pixels := by
  have hplain : (headerOf r).interlaced = false := rfl
  rw [pixels?, hplain, if_neg Bool.false_ne_true, readAll?_rowBytes hwidth]
  refine congrArg some ((congrArg Array.ofFn (funext fun i => ?_)).trans
    (Raster.pixels_eq_ofFn (fun y x => pixelAt (headerOf r) palette (readBack r y) x) ?_))
  · have hy : i / r.width < r.height := Nat.div_lt_of_lt_mul i.isLt
    have hrow : ((List.range r.height).map (readBack r)).toArray[i.val / r.width]? =
        some (readBack r (i / r.width)) := by
      rw [List.getElem?_toArray, List.getElem?_map, List.getElem?_range hy, Option.map_some]
    have hfind : Pass.find? ⟨0, 0, 1, 1⟩ ((List.range r.height).map (readBack r)).toArray
        (i / (headerOf r).width) (i % (headerOf r).width) =
          some (readBack r (i / r.width), i % r.width) :=
      (find?_plain ..).trans (congrArg _ hrow)
    simp only [List.findSome?_cons, hfind]
  · intro y x hy hx
    have hlt : x < (r.row y).length := by rwa [Raster.length_row hy]
    have hc := List.getElem?_eq_getElem hlt
    have hbyte (k : ℕ) (hk : k < 3) := getElem?_readBack hy hc hk
    rw [hc, pixelAt_headerOf, hbyte 1 (by decide), hbyte 2 (by decide),
      ← Nat.add_zero (x * 3), hbyte 0 (by decide)]
    rfl

end Pixels

/-! ### Files -/

section Files

variable {r : Raster}

/-- The header of a raster with pixels is read as it was written. -/
theorem ofBytes?_encode (hwidth : r.width ≠ 0) (hheight : r.height ≠ 0) :
    Header.ofBytes? (Header.encode r.width r.height) = some (headerOf r) := by
  have hw : Bytes.numberBE (Bytes.encodeBE 4 r.width) = r.width := by
    rw [Bytes.numberBE_encodeBE]
    exact Nat.mod_eq_of_lt r.width_lt
  have hh : Bytes.numberBE (Bytes.encodeBE 4 r.height) = r.height := by
    rw [Bytes.numberBE_encodeBE]
    exact Nat.mod_eq_of_lt r.height_lt
  have hvalid : 0 < r.width ∧ 0 < r.height ∧ (8 : UInt8).toNat ∈ ColorType.rgb.depths ∧
      (0 : UInt8) = 0 ∧ (0 : UInt8) = 0 ∧ (0 : UInt8).toNat ≤ 1 :=
    ⟨Nat.pos_of_ne_zero hwidth, Nat.pos_of_ne_zero hheight, by decide, rfl, rfl, by decide⟩
  rw [Header.ofBytes?, Header.encode, List.append_assoc,
    Bytes.take?_append (Bytes.length_encodeBE 4 _)]
  dsimp only [bind, Option.bind]
  rw [Bytes.take?_append (Bytes.length_encodeBE 4 _)]
  dsimp only
  rw [hw, hh]
  exact if_pos hvalid

/-- Image data that follows the header at once has nothing before it. -/
theorem read?_of_nextTag? {fuel : ℕ} {p : Preamble} {bytes : List UInt8}
    (h : Chunk.nextTag? bytes = some Tag.data) (hfuel : 0 < fuel) :
    Preamble.read? fuel p bytes = some (p, bytes) := by
  obtain ⟨fuel, rfl⟩ := Nat.exists_eq_add_one_of_ne_zero (Nat.ne_of_gt hfuel)
  rw [Preamble.read?, h]
  rfl

/-- Compressed data is expanded to what it was. -/
theorem expand?_compress (bytes : Array UInt8) : expand? (compress bytes) = some bytes := by
  have hcovers : Deflate.Covers Deflate.distanceSpans 3 := ⟨⟨3, 0⟩, rfl, by decide, by decide⟩
  have hannounced : (0x78 : UInt8).toNat % 16 = 8 ∧ (0x78 : UInt8).toNat / 16 ≤ 7 ∧
      ((0x78 : UInt8).toNat * 256 + (0x01 : UInt8).toNat) % 31 = 0 ∧
      (0x01 : UInt8).toNat / 32 % 2 = 0 := by decide
  rw [compress, List.append_assoc, List.cons_append, List.singleton_append, expand?,
    if_pos hannounced, Deflate.inflate?_compress hcovers (Nat.succ_pos 2)]

/-- What stands in a file whose image data follows the header at once. -/
theorem decode?_of_parts {h : Header} {content chunks data : List UInt8} {bytes : Array UInt8}
    {pixels : Array Rgb} (hshort : content.length < UInt32.size)
    (hheader : Header.ofBytes? content = some h) (hcolor : h.colorType ≠ .indexed)
    (hnext : Chunk.nextTag? chunks = some Tag.data)
    (hread : readData? Tag.data chunks.length 0 chunks = some data)
    (hexpand : expand? data = some bytes) (hpixels : pixels? h #[] bytes = some pixels) :
    decode? (signature ++ Chunk.encode Tag.header content ++ chunks).toArray =
      Raster.ofPixels? h.width h.height pixels := by
  have hsignature : Bytes.take? 8 (signature ++ (Chunk.encode Tag.header content ++ chunks)) =
      some (signature, Chunk.encode Tag.header content ++ chunks) :=
    Bytes.take?_append rfl
  have htake : Chunk.take? (Chunk.encode Tag.header content ++ chunks) =
      some (⟨Tag.header, content, Chunk.expected Tag.header content⟩, chunks) :=
    take?_encode rfl hshort
  have hintact : (⟨Tag.header, content, Chunk.expected Tag.header content⟩ : Chunk).Intact := rfl
  have hlength : 0 < chunks.length := Nat.pos_of_ne_zero fun h0 => by
    rw [List.eq_nil_of_length_eq_zero h0] at hnext
    cases hnext
  have hpreamble := read?_of_nextTag? (p := .ofHeader h) hnext hlength
  have hstart : (Preamble.ofHeader h).nextNumber = 0 := rfl
  have hpalette : (Preamble.ofHeader h).palette? = none := rfl
  simp only [decode?, List.append_assoc, hsignature, htake, hintact, hheader, hpreamble, hnext,
    hstart, hpalette, hcolor, hread, hexpand, hpixels, bind, Option.bind, ne_eq,
    not_true_eq_false, or_self, false_and, if_false, Option.getD_none]

/-- **PNG files lose nothing.**  A raster with pixels has a file, and the file holds the raster. -/
theorem decode?_encode? (hwidth : r.width ≠ 0) (hheight : r.height ≠ 0) :
    ∃ bytes, encode? r = some bytes ∧ decode? bytes = some r := by
  refine ⟨_, if_neg (not_or.mpr ⟨hwidth, hheight⟩), ?_⟩
  have hdata : compress (rowBytes r) ≠ [] := List.cons_ne_nil _ _
  set data := compress (rowBytes r) with hcompress
  set chunks := dataChunks data.length data ++ Chunk.encode Tag.close [] with hchunks
  have hread : readData? Tag.data chunks.length 0 chunks = some data := by
    have hclose : (Chunk.encode Tag.close []).length = 12 := rfl
    exact readData?_dataChunks (Nat.le_refl _) (by rw [hchunks, List.length_append]; omega) 0
  have hshort : (Header.encode r.width r.height).length < UInt32.size :=
    (by decide : 13 < UInt32.size)
  have hcolor : ColorType.rgb ≠ .indexed := by decide
  rw [List.append_assoc, ← hchunks,
    decode?_of_parts hshort (ofBytes?_encode hwidth hheight) hcolor (nextTag?_dataChunks hdata)
      hread (expand?_compress _) (pixels?_rowBytes hwidth #[])]
  exact r.ofPixels?_pixels

end Files

end Png

end Piet
