import Mathlib.Algebra.Order.Floor.Div
import Piet.Proofs.Paint.Lanes

/-!
# Composed pictures

What `compose` does for every payload, every key and every number of bytes in a lane.

* `compose_outcome`: it fails if the key is empty or the picture would be too large, and never for
  another reason.
* `interpret_plain`: a picture without a key prints its payload, whatever its input, and stops by
  itself after a known number of steps.
* `interpret_keyed`: a picture with a key prints what its input makes of the bytes that it holds,
  and its payload if it is given the key.

All of them follow from `Compose.exists_paintLanes`: the lanes can be painted, in the same picture
for any input, and what has been painted is a finished program.
-/

namespace Piet

/-! ### Pieces -/

section Pieces

variable {α β : Type} {size fuel : ℕ}

theorem piecesFor_cons (size fuel : ℕ) (a : α) (l : List α) :
    piecesFor size (fuel + 1) (a :: l) =
      (a :: l).take size :: piecesFor size fuel ((a :: l).drop size) := rfl

theorem piecesFor_map (f : α → β) (size fuel : ℕ) (l : List α) :
    piecesFor size fuel (l.map f) = (piecesFor size fuel l).map (List.map f) := by
  induction fuel generalizing l with
  | zero => rfl
  | succ fuel ih =>
    cases l with
    | nil => rfl
    | cons a l =>
      have hrest := ih ((a :: l).drop size)
      rw [List.map_drop] at hrest
      rw [List.map_cons, piecesFor_cons, piecesFor_cons, ← List.map_cons, hrest, ← List.map_take,
        ← List.map_cons]

theorem pieces_map (f : α → β) (size : ℕ) (l : List α) :
    pieces size (l.map f) = (pieces size l).map (List.map f) := by
  rw [pieces, List.length_map, piecesFor_map, pieces]

/-- Nothing is lost or changed in order. -/
theorem flatten_piecesFor (hsize : 0 < size) {l : List α} (hfuel : l.length ≤ fuel) :
    (piecesFor size fuel l).flatten = l := by
  induction fuel generalizing l with
  | zero =>
    obtain rfl := List.length_eq_zero_iff.mp (Nat.le_zero.mp hfuel)
    rfl
  | succ fuel ih =>
    cases l with
    | nil => rfl
    | cons a l =>
      have hrest : ((a :: l).drop size).length ≤ fuel := by
        rw [List.length_drop]
        omega
      rw [piecesFor_cons, List.flatten_cons, ih hrest, List.take_append_drop]

/-- All pieces but the last have the full size. -/
theorem flatten_take_piecesFor (hsize : 0 < size) {l : List α} (hfuel : l.length ≤ fuel) (n : ℕ) :
    ((piecesFor size fuel l).take n).flatten = l.take (n * size) := by
  induction fuel generalizing l n with
  | zero =>
    obtain rfl := List.length_eq_zero_iff.mp (Nat.le_zero.mp hfuel)
    simp [piecesFor]
  | succ fuel ih =>
    cases l with
    | nil => simp [piecesFor]
    | cons a l =>
      cases n with
      | zero => simp
      | succ n =>
        have hrest : ((a :: l).drop size).length ≤ fuel := by
          rw [List.length_drop]
          omega
        rw [piecesFor_cons, List.take_succ_cons, List.flatten_cons, ih hrest, Nat.succ_mul,
          Nat.add_comm, List.take_add]

/-- There are as many pieces as it takes. -/
theorem length_piecesFor (hsize : 0 < size) {l : List α} (hfuel : l.length ≤ fuel) :
    (piecesFor size fuel l).length = l.length ⌈/⌉ size := by
  induction fuel generalizing l with
  | zero =>
    obtain rfl := List.length_eq_zero_iff.mp (Nat.le_zero.mp hfuel)
    exact (zero_ceilDiv size).symm
  | succ fuel ih =>
    cases l with
    | nil => exact (zero_ceilDiv size).symm
    | cons a l =>
      have hlength : ((a :: l).drop size).length = (a :: l).length - size := List.length_drop
      have hpos : 0 < (a :: l).length := List.length_pos_of_ne_nil (List.cons_ne_nil a l)
      rw [piecesFor_cons, List.length_cons, ih (by omega), hlength, Nat.ceilDiv_eq_add_pred_div,
        Nat.ceilDiv_eq_add_pred_div]
      rcases Nat.lt_or_ge (a :: l).length size with hlt | hle
      · have hone : ((a :: l).length + size - 1) / size = 1 :=
          Nat.div_eq_of_lt_le (by omega) (by omega)
        rw [Nat.sub_eq_zero_of_le hlt.le, Nat.zero_add, Nat.div_eq_of_lt (by omega), hone]
      · have hsub : (a :: l).length + size - 1 = (a :: l).length - size + size - 1 + size := by
          omega
        rw [hsub, Nat.add_div_right _ hsize]

end Pieces

namespace Payload

theorem length_keyStream (key : Array UInt8) (n : ℕ) : (keyStream key n).length = n := by
  rw [keyStream, List.length_map, List.length_range]

theorem getElem_keyStream {key : Array UInt8} {n i : ℕ} (hi : i < (keyStream key n).length) :
    (keyStream key n)[i] = key[i % key.size]! := by
  simp only [keyStream, List.getElem_map, List.getElem_range]
  rw [getElem!_def]
  cases key[i % key.size]? <;> rfl

theorem size_feed (data : Array UInt8) {key : Option (Array UInt8)} (hkey : key.isSome = true) :
    (feed data key).size = data.size := by
  obtain ⟨key, rfl⟩ := Option.isSome_iff_exists.mp hkey
  rw [feed, List.size_toArray, length_keyStream]

end Payload

namespace Compose

open Payload (byteStrokes byteSteps laneStrokes laneSteps masked)

variable {data : Array UInt8} {key : Option (Array UInt8)} {cols : ℕ}

/-! ### The bytes of every lane -/

/-- The bytes that are painted into every lane. -/
def byteLanes (data : Array UInt8) (key : Option (Array UInt8)) (cols : ℕ) : List (List UInt8) :=
  match pieces (max cols 1) (masked data key) with
  | [] => [[]]
  | lanes => lanes

theorem lanes_eq (data : Array UInt8) (key : Option (Array UInt8)) (cols : ℕ) :
    lanes data key cols = (byteLanes data key cols).map (laneStrokes key.isSome) := by
  have hpieces : (pieces (max cols 1) ((masked data key).map (byteStrokes key.isSome))).map
      List.flatten = (pieces (max cols 1) (masked data key)).map (laneStrokes key.isSome) := by
    rw [pieces_map, List.map_map]
    rfl
  rw [lanes, byteLanes, hpieces]
  cases pieces (max cols 1) (masked data key) <;> rfl

theorem byteLanes_ne_nil (data : Array UInt8) (key : Option (Array UInt8)) (cols : ℕ) :
    byteLanes data key cols ≠ [] := by
  rw [byteLanes]
  cases pieces (max cols 1) (masked data key) <;> exact List.cons_ne_nil _ _

theorem flatten_byteLanes (data : Array UInt8) (key : Option (Array UInt8)) (cols : ℕ) :
    (byteLanes data key cols).flatten = masked data key := by
  have hflatten : (pieces (max cols 1) (masked data key)).flatten = masked data key :=
    flatten_piecesFor (by omega) le_rfl
  refine Eq.trans ?_ hflatten
  rw [byteLanes]
  cases pieces (max cols 1) (masked data key) <;> rfl

theorem flatten_take_byteLanes (hcols : 0 < cols) (n : ℕ) :
    ((byteLanes data key cols).take n).flatten = (masked data key).take (n * cols) := by
  have hpieces : ((pieces cols (masked data key)).take n).flatten =
      (masked data key).take (n * cols) := flatten_take_piecesFor hcols le_rfl n
  rw [← hpieces, byteLanes, Nat.max_eq_left hcols]
  cases pieces cols (masked data key) with
  | nil => cases n <;> simp
  | cons piece pieces => rfl

theorem length_masked (data : Array UInt8) (key : Option (Array UInt8)) :
    (masked data key).length = data.size := by
  cases key with
  | none => exact Array.length_toList
  | some key =>
    rw [masked, List.length_zipWith, Payload.length_keyStream, Array.length_toList, Nat.min_self]

/-- The number of lanes that so many bytes take. -/
def lanesFor (count cols : ℕ) : ℕ :=
  max 1 (count ⌈/⌉ cols)

theorem length_byteLanes (data : Array UInt8) (key : Option (Array UInt8)) (hcols : 0 < cols) :
    (byteLanes data key cols).length = lanesFor data.size cols := by
  have hlength : (pieces (max cols 1) (masked data key)).length = data.size ⌈/⌉ max cols 1 := by
    rw [pieces, length_piecesFor (by omega) le_rfl, length_masked]
  rw [Nat.max_eq_left hcols] at hlength
  rw [byteLanes, lanesFor, ← hlength, Nat.max_eq_left hcols]
  cases pieces cols (masked data key) with
  | nil => rfl
  | cons lane lanes => exact (Nat.max_eq_right (Nat.le_add_left _ _)).symm

theorem length_lanes (data : Array UInt8) (key : Option (Array UInt8)) (hcols : 0 < cols) :
    (lanes data key cols).length = lanesFor data.size cols := by
  rw [lanes_eq, List.length_map, length_byteLanes data key hcols]

/-- A lane that is followed by another one is full. -/
theorem lt_of_succ_lt_lanesFor {count idx : ℕ} (hcols : 0 < cols)
    (hidx : idx + 1 < lanesFor count cols) : (idx + 1) * cols < count := by
  by_contra hle
  have hlanes : count ⌈/⌉ cols ≤ idx + 1 := by
    rw [ceilDiv_le_iff_le_mul hcols, Nat.mul_comm]
    exact Nat.le_of_not_lt hle
  rw [lanesFor] at hidx
  omega

/-! ### Painting -/

/-- The picture cannot be laid out. -/
def Overfull (data : Array UInt8) (key : Option (Array UInt8)) (cols : ℕ) : Prop :=
  cols = 0 ∨ maxSide < widthFor (lanes data key cols) ∨ maxSide < heightFor (lanes data key cols)

/-- The longest lane, and nine cells more. -/
theorem widthFor_eq (lanes : List (List Stroke)) :
    widthFor lanes = 9 + (lanes.map Stroke.totalCount).foldl max 0 := by
  rw [widthFor, turnLength]
  omega

/-- The sides of a picture, in terms of the pieces into which the strokes of its bytes are cut. -/
theorem sides_lanes (data : Array UInt8) (key : Option (Array UInt8)) (cols : ℕ) :
    let chunks := pieces (max cols 1) ((masked data key).map (byteStrokes key.isSome))
    widthFor (lanes data key cols) =
        9 + (chunks.map fun chunk => Stroke.totalCount chunk.flatten).foldl max 0 ∧
      heightFor (lanes data key cols) = 2 * max 1 chunks.length := by
  intro chunks
  have hchunks : chunks = (pieces (max cols 1) (masked data key)).map
      (List.map (byteStrokes key.isSome)) := pieces_map _ _ _
  rw [hchunks, lanes_eq, byteLanes]
  cases pieces (max cols 1) (masked data key) with
  | nil => exact ⟨rfl, rfl⟩
  | cons piece pieces =>
    have hcount : max 1 (piece :: pieces).length = (piece :: pieces).length :=
      Nat.max_eq_right (Nat.le_add_left _ _)
    dsimp only
    constructor
    · rw [widthFor_eq, List.map_map, List.map_map]
      have hsame : (Stroke.totalCount ∘ laneStrokes key.isSome) =
          (fun chunk => Stroke.totalCount chunk.flatten) ∘ List.map (byteStrokes key.isSome) := by
        funext bytes
        rfl
      rw [hsame]
    · rw [heightFor, List.length_map, List.length_map, hcount]

theorem totalCount_le_widthFor {strokes : List Stroke} {lanes : List (List Stroke)}
    (h : strokes ∈ lanes) : Stroke.totalCount strokes + 9 ≤ widthFor lanes := by
  have hmem : Stroke.totalCount strokes ∈ lanes.map Stroke.totalCount := List.mem_map_of_mem h
  have hle := List.le_max_of_mem hmem
  rw [widthFor, List.foldl_max_eq_max (List.ne_nil_of_mem hmem), turnLength]
  omega

/-- A picture that is not overfull has room for its lanes. -/
theorem start_fits (hfits : ¬ Overfull data key cols) (input : Array UInt8) :
    let width := widthFor (lanes data key cols)
    Pen.InLane input 0 width true (.start input) ∧
      (Pen.start input).Fits width true key.isSome (byteLanes data key cols) := by
  intro width
  obtain ⟨hcols, hwidth, hheight⟩ : cols ≠ 0 ∧ width ≤ maxSide ∧
      heightFor (lanes data key cols) ≤ maxSide := by
    simpa [Overfull, not_or] using hfits
  have hlanes := lanes_eq data key cols
  have hfit : ∀ bytes ∈ byteLanes data key cols,
      Stroke.totalCount (laneStrokes key.isSome bytes) + 9 ≤ width := fun bytes hbytes =>
    totalCount_le_widthFor (hlanes ▸ List.mem_map_of_mem hbytes)
  have hpos : 0 < width := by
    show 0 < widthFor _
    rw [widthFor]
    omega
  have hrows : (Pen.start input).tip.y + 2 * (byteLanes data key cols).length ≤ maxSide := by
    rw [heightFor, hlanes, List.length_map] at hheight
    exact (Nat.zero_add _).trans_le hheight
  exact ⟨.start input hpos, rfl, hfit, hwidth, hrows⟩

/-- **The lanes can be painted**, in the same picture for any input, and lead to a finished
program that prints the bytes held by the picture. -/
theorem exists_paintLanes (hfits : ¬ Overfull data key cols) (input input' : Array UInt8) :
    let width := widthFor (lanes data key cols)
    ∃ pen pen', paintLanes width (.start input) true (lanes data key cols) = (pen, none) ∧
      paintLanes width (.start input') true (lanes data key cols) = (pen', none) ∧
      pen.canvas = pen'.canvas ∧
      pen'.Finished input' (laneSteps key.isSome (byteLanes data key cols)) ∧
      pen'.shadow.output.written =
        ((Machine.start input').printBytes key.isSome (masked data key)).output.written := by
  intro width
  have hlanes := lanes_eq data key cols
  obtain ⟨hlane, hlanesFit⟩ := start_fits hfits input
  obtain ⟨hlane', hlanesFit'⟩ := start_fits hfits input'
  have halike : Pen.Alike Machine.SameHeading (.start input) (.start input') :=
    ⟨rfl, rfl, rfl, rfl, rfl, rfl⟩
  obtain ⟨pen, hpaint, -⟩ := hlane.paintLanes hlanesFit (byteLanes_ne_nil data key cols)
  obtain ⟨pen', hpaint', hfinished, d, hshadow⟩ :=
    hlane'.paintLanes hlanesFit' (byteLanes_ne_nil data key cols)
  have hlike := hlane.paintLanes_alike hlane' halike hlanesFit
  rw [hpaint, hpaint'] at hlike
  rw [← hlanes] at hpaint hpaint'
  rw [Nat.zero_add] at hfinished
  refine ⟨pen, pen', hpaint, hpaint', hlike.2.canvas, hfinished, ?_⟩
  rw [hshadow, flatten_byteLanes]
  rfl

end Compose

/-! ### What is printed -/

namespace Payload

/-- The byte that a picture with a key holds in the place of one of its payload. -/
def heldAt (data key : Array UInt8) (i : ℕ) : UInt8 :=
  data[i]! + key[i % key.size]!

theorem masked_some (data key : Array UInt8) :
    masked data (some key) = (List.range data.size).map (heldAt data key) := by
  refine List.ext_getElem ?_ fun i hi hi' => ?_
  · rw [Compose.length_masked, List.length_map, List.length_range]
  · have hlt : i < data.size := by rwa [Compose.length_masked] at hi
    simp only [masked, List.getElem_zipWith, getElem_keyStream, List.getElem_map,
      List.getElem_range, heldAt, getElem!_pos data i hlt, Array.getElem_toList]

/-- What a picture with a key prints, given some bytes to read. -/
theorem written_keyed (data key input : Array UInt8) :
    ((Machine.start input).printBytes true (masked data (some key))).output.written.toList =
      (List.range data.size).map fun i =>
        if i < input.size then heldAt data key i - input[i]! else heldAt data key i := by
  have hempty : (Machine.start input).output.written.toList = [] := rfl
  rw [Machine.written_printBytes, masked_some, hempty, List.nil_append]
  refine List.ext_getElem (by simp) fun i hi hi' => ?_
  have hnext : (Machine.start input).input.bytes[(Machine.start input).input.cursor + i]? =
      input[i]? := congrArg (input[·]?) (Nat.zero_add i)
  rw [List.getElem_mapIdx, List.getElem_map, List.getElem_map, List.getElem_range, if_pos rfl,
    hnext]
  by_cases hlt : i < input.size
  · rw [Array.getElem?_eq_getElem hlt, if_pos hlt, getElem!_pos input i hlt]
  · rw [Array.getElem?_eq_none (Nat.le_of_not_lt hlt), if_neg hlt]

/-- A picture without a key prints what it holds. -/
theorem written_plain (data input : Array UInt8) :
    ((Machine.start input).printBytes false (masked data none)).output.written = data := by
  have hempty : (Machine.start input).output.written.toList = [] := rfl
  rw [← Array.toList_inj, Machine.written_printBytes, hempty, List.nil_append]
  refine List.ext_getElem (List.length_mapIdx) fun i hi hi' => ?_
  rw [List.getElem_mapIdx]
  rfl

/-- Given its key over and over, a picture prints its payload. -/
theorem written_cycled {data key input : Array UInt8} (hsize : data.size ≤ input.size)
    (hcycle : ∀ i < data.size, input[i]! = key[i % key.size]!) :
    ((Machine.start input).printBytes true (masked data (some key))).output.written = data := by
  rw [← Array.toList_inj, written_keyed]
  refine List.ext_getElem (by simp) fun i hi hi' => ?_
  have hlt : i < data.size := by simpa using hi'
  rw [List.getElem_map, List.getElem_range, if_pos (by omega), hcycle i hlt, heldAt,
    UInt8.add_sub_cancel, getElem!_pos data i hlt, Array.getElem_toList]

theorem written_feed (data : Array UInt8) (key : Option (Array UInt8)) :
    ((Machine.start (feed data key)).printBytes key.isSome
      (masked data key)).output.written = data := by
  cases key with
  | none => exact written_plain data _
  | some key =>
    have hsize : (feed data (some key)).size = data.size := size_feed data rfl
    refine written_cycled hsize.ge fun i hi => ?_
    rw [getElem!_pos _ i (by omega)]
    exact getElem_keyStream _

end Payload

/-! ### Composing -/

open Payload (byteStrokes byteSteps heldAt laneSteps masked)

variable {data : Array UInt8} {key : Option (Array UInt8)} {cols : ℕ} {c : Composition}

/-- What fits is composed, and its program does the same as a machine that prints its bytes. -/
theorem compose_of_fits (hkey : key ≠ some #[]) (hfits : ¬ Compose.Overfull data key cols) :
    ∃ c, compose data key cols = .ok c ∧ ∀ input limit,
      let last := laneSteps key.isSome (Compose.byteLanes data key cols) + 7
      (last < limit →
          (c.grid.interpret input limit).output = ((Machine.start input).printBytes key.isSome
            (masked data key)).output.written ∧
          (c.grid.interpret input limit).ending = .halted .finished) ∧
        (limit ≤ last → (c.grid.interpret input limit).ending = .halted .stepLimit) := by
  have hpaint := Compose.exists_paintLanes hfits (Payload.feed data key)
  obtain ⟨pen, _, hpen, hpen', -, -, hwritten⟩ := hpaint (Payload.feed data key)
  obtain rfl := Prod.mk.inj (hpen.symm.trans hpen') |>.1
  rw [Payload.written_feed] at hwritten
  have hcompose : compose data key cols =
      .ok ⟨pen.canvas.toGrid, (Compose.lanes data key cols).length,
        Compose.widthFor (Compose.lanes data key cols), pen.notices⟩ := by
    rw [compose, if_neg hkey]
    refine (if_neg hfits).trans ?_
    rw [hpen]
    exact if_pos hwritten
  refine ⟨_, hcompose, fun input limit => ?_⟩
  obtain ⟨pen₁, pen₂, hpen₁, -, hcanvas, hfinished, hprinted⟩ := hpaint input
  obtain rfl := Prod.mk.inj (hpen.symm.trans hpen₁) |>.1
  dsimp only
  rw [hcanvas, ← hprinted]
  exact hfinished.interpret limit

theorem compose_of_overfull (hkey : key ≠ some #[]) (hfull : Compose.Overfull data key cols) :
    compose data key cols =
      .error (.capacity (Compose.widthFor (Compose.lanes data key cols))
        (Compose.heightFor (Compose.lanes data key cols)) Compose.maxSide) := by
  rw [compose, if_neg hkey]
  exact if_pos hfull

/-- What has been composed has a key that is not empty, and room for its lanes. -/
theorem fits_of_compose (h : compose data key cols = .ok c) :
    key ≠ some #[] ∧ ¬ Compose.Overfull data key cols := by
  have hkey : key ≠ some #[] := by
    rintro rfl
    cases h
  refine ⟨hkey, fun hfull => ?_⟩
  rw [compose_of_overfull hkey hfull] at h
  cases h

/-- **The outcome of composing.**  It fails for two reasons only: the key is empty, or the picture
cannot be laid out, since no bytes may be put into a lane, the longest lane and the nine cells
around it are more than a side may have, or so are the lanes at two rows each. -/
theorem compose_outcome (data : Array UInt8) (key : Option (Array UInt8)) (cols : ℕ) :
    let chunks := pieces (max cols 1) ((masked data key).map (byteStrokes key.isSome))
    let longest := (chunks.map fun chunk => Stroke.totalCount chunk.flatten).foldl max 0
    let overfull := cols = 0 ∨ 16384 < 9 + longest ∨ 16384 < 2 * max 1 chunks.length
    (compose data key cols = .error .emptyKey ↔ key = some #[]) ∧
      ((∃ width height side, compose data key cols = .error (.capacity width height side)) ↔
        key ≠ some #[] ∧ overfull) ∧
      ((∃ c, compose data key cols = .ok c) ↔ key ≠ some #[] ∧ ¬ overfull) ∧
      ∀ e, compose data key cols = .error e →
        e = .emptyKey ∨ ∃ width height side, e = .capacity width height side := by
  intro chunks longest overfull
  have hfull : Compose.Overfull data key cols ↔ overfull := by
    obtain ⟨hwidth, hheight⟩ := Compose.sides_lanes data key cols
    rw [Compose.Overfull, hwidth, hheight]
    exact Iff.rfl
  by_cases hkey : key = some #[]
  · subst hkey
    have hcompose : compose data (some #[]) cols = .error .emptyKey := rfl
    simp [hcompose]
  · by_cases hover : overfull
    · have hcompose := compose_of_overfull hkey (hfull.mpr hover)
      simp [hcompose, hkey, hover]
    · obtain ⟨c, hcompose, -⟩ := compose_of_fits hkey (mt hfull.mp hover)
      simp [hcompose, hkey, hover]

/-! ### Running what was composed -/

/-- The number of steps after which the program of a picture without a key has stopped. -/
def plainSteps (data : Array UInt8) (cols : ℕ) : ℕ :=
  (data.toList.map fun b => if b = 0 then 5 else 4).sum +
    6 * (Compose.lanesFor data.size cols - 1) + 9

/-- The number of steps after which the program of a picture with a key has stopped. -/
def keyedSteps (data key : Array UInt8) (cols : ℕ) : ℕ :=
  ((List.range data.size).map fun i => if data[i]! + key[i % key.size]! = 0 then 11 else 10).sum +
    6 * (Compose.lanesFor data.size cols - 1) + 9

theorem laneSteps_byteLanes (data : Array UInt8) (key : Option (Array UInt8)) (hcols : 0 < cols) :
    laneSteps key.isSome (Compose.byteLanes data key cols) + 7 =
      ((masked data key).map (byteSteps key.isSome)).sum +
        6 * (Compose.lanesFor data.size cols - 1) + 9 := by
  rw [laneSteps, Compose.flatten_byteLanes, Compose.length_byteLanes data key hcols]

/-- What has been composed was fit for it, so its run is known. -/
theorem compose_run (h : compose data key cols = .ok c) (input : Array UInt8) (limit : ℕ) :
    let last := ((masked data key).map (byteSteps key.isSome)).sum +
      6 * (Compose.lanesFor data.size cols - 1) + 9
    (last < limit →
        (c.grid.interpret input limit).output = ((Machine.start input).printBytes key.isSome
          (masked data key)).output.written ∧
        (c.grid.interpret input limit).ending = .halted .finished) ∧
      (limit ≤ last → (c.grid.interpret input limit).ending = .halted .stepLimit) := by
  intro last
  obtain ⟨hkey, hfits⟩ := fits_of_compose h
  obtain ⟨c', hc', hrun⟩ := compose_of_fits hkey hfits
  obtain rfl : c = c' := Except.ok.inj (h.symm.trans hc')
  have hcols : 0 < cols := Nat.pos_of_ne_zero fun hzero => hfits (.inl hzero)
  have hlast := laneSteps_byteLanes data key hcols
  have hends := hrun input limit
  rwa [hlast] at hends

/-- **A picture without a key prints its payload**, whatever it is given to read.  It stops by
itself within any limit above `plainSteps`, and any other limit cuts it off. -/
theorem interpret_plain (h : compose data none cols = .ok c) (input : Array UInt8) (limit : ℕ) :
    (plainSteps data cols < limit →
        (c.grid.interpret input limit).output = data ∧
          (c.grid.interpret input limit).ending = .halted .finished) ∧
      (limit ≤ plainSteps data cols →
        (c.grid.interpret input limit).ending = .halted .stepLimit) := by
  have hends := compose_run h input limit
  rw [Option.isSome_none, Payload.written_plain] at hends
  exact hends

theorem interpret_plain_two_lanes : ∃ c, compose #[2, 0] none 1 = .ok c ∧
    (c.grid.interpret #[7] 25).output = #[2, 0] ∧
      (c.grid.interpret #[7] 25).ending = .halted .finished ∧
      (c.grid.interpret #[7] 24).ending = .halted .stepLimit := by
  have hok : (compose #[2, 0] none 1).isOk = true := by decide +kernel
  cases hcompose : compose #[2, 0] none 1 with
  | error e =>
    rw [hcompose] at hok
    cases hok
  | ok c =>
    obtain ⟨houtput, hending⟩ := (interpret_plain hcompose #[7] 25).1 (by decide)
    exact ⟨c, rfl, houtput, hending, (interpret_plain hcompose #[7] 24).2 (by decide)⟩

/-- **A picture with a key prints what its input makes of it.**  Each byte is the sum of one of the
payload and one of the key, less the byte in its place of the input, if there is one; so the payload
is printed if the input repeats the key often enough. -/
theorem interpret_keyed {key : Array UInt8} (h : compose data (some key) cols = .ok c) {limit : ℕ}
    (hlimit : keyedSteps data key cols < limit) (input : Array UInt8) :
    (c.grid.interpret input limit).ending = .halted .finished ∧
      (c.grid.interpret input limit).output.size = data.size ∧
      (∀ i < data.size, (c.grid.interpret input limit).output[i]! =
        if i < input.size then data[i]! + key[i % key.size]! - input[i]!
        else data[i]! + key[i % key.size]!) ∧
      (data.size ≤ input.size → (∀ i < data.size, input[i]! = key[i % key.size]!) →
        (c.grid.interpret input limit).output = data) := by
  have hsteps : keyedSteps data key cols = ((masked data (some key)).map (byteSteps true)).sum +
      6 * (Compose.lanesFor data.size cols - 1) + 9 := by
    rw [keyedSteps, Payload.masked_some, List.map_map]
    congr 4
    funext i
    rw [Function.comp_apply, byteSteps, heldAt]
    split <;> rfl
  have hends := compose_run h input limit
  rw [Option.isSome_some, ← hsteps] at hends
  obtain ⟨houtput, hending⟩ := hends.1 hlimit
  have hwritten := Payload.written_keyed data key input
  rw [← houtput] at hwritten
  refine ⟨hending, ?_, fun i hi => ?_, fun hsize hcycle => ?_⟩
  · rw [← Array.length_toList, hwritten, List.length_map, List.length_range]
  · have hlength : i < (c.grid.interpret input limit).output.toList.length := by
      rwa [hwritten, List.length_map, List.length_range]
    rw [getElem!_pos _ i hlength, ← Array.getElem_toList, List.getElem_of_eq hwritten,
      List.getElem_map, List.getElem_range]
    rfl
  · rw [houtput, Payload.written_cycled hsize hcycle]

theorem interpret_keyed_two_lanes : ∃ c, compose #[2, 0] (some #[3]) 1 = .ok c ∧
    keyedSteps #[2, 0] #[3] 1 < 36 ∧
      (c.grid.interpret #[3, 3] 36).output = #[2, 0] ∧
      (c.grid.interpret #[1] 36).ending = .halted .finished ∧
      (c.grid.interpret #[1] 36).output.size = 2 ∧
      (c.grid.interpret #[1] 36).output[0]! = 4 ∧ (c.grid.interpret #[1] 36).output[1]! = 3 := by
  have hok : (compose #[2, 0] (some #[3]) 1).isOk = true := by decide +kernel
  have hlimit : keyedSteps #[2, 0] #[3] 1 < 36 := by decide
  cases hcompose : compose #[2, 0] (some #[3]) 1 with
  | error e =>
    rw [hcompose] at hok
    cases hok
  | ok c =>
    obtain ⟨-, -, -, hright⟩ := interpret_keyed hcompose hlimit #[3, 3]
    obtain ⟨hending, hsize, hbytes, -⟩ := interpret_keyed hcompose hlimit #[1]
    exact ⟨c, rfl, hlimit, hright (by decide) (by decide), hending, hsize,
      hbytes 0 (by decide), hbytes 1 (by decide)⟩

end Piet
