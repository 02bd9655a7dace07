import Mathlib.Algebra.Order.BigOperators.Group.List
import Piet.Cli.Session
import Piet.Proofs.Image.Format
import Piet.Proofs.Paint.Extent

/-!
# Peeling an image that prints images

The picture of the last round prints an image file, in which the picture of the round before is
found, and so on, down to the first one, which prints the source.  Each of them has to be given the
key of its own round, repeated at least as often as it takes.

* `Rounds.Prints`: what a picture prints in its round.
* `Rounds.Peels`: the source can be had back from a picture in so many rounds.
* `generate_peels`: what has been generated and saved can be peeled.
-/

namespace Piet

variable {data : Array UInt8} {key : Option (Array UInt8)} {cols : ℕ} {p : Composition} {g : Grid}

/-! ### The pictures of rounds -/

/-- A composed picture has sides of a raster. -/
theorem Compose.fitsRaster (h : compose data key cols = .ok p) : p.grid.FitsRaster := by
  obtain ⟨-, hfits⟩ := fits_of_compose h
  obtain ⟨-, hwidthFor, hheightFor⟩ : cols ≠ 0 ∧
      widthFor (lanes data key cols) ≤ maxSide ∧ heightFor (lanes data key cols) ≤ maxSide := by
    simpa [Overfull, not_or] using hfits
  obtain ⟨hw, hh⟩ := sides_eq h
  have hmax : maxSide + 1 < UInt32.size := by decide
  exact ⟨width_pos h, by omega, by omega, by omega⟩

namespace Rounds

variable {c : Rounds} {number more : ℕ} {source file : Array UInt8} {log log' : Log}

/-- What the program of a round is given to read: so many bytes of its key, which is repeated over
and over, or nothing if there are no keys. -/
def fed (c : Rounds) (number n : ℕ) : Array UInt8 :=
  match c.keys[number % c.keys.length]? with
  | none => #[]
  | some key => (Payload.keyStream key n).toArray

/-- The picture of a round prints some bytes and finishes, given its key for at least as many
bytes. -/
def Prints (c : Rounds) (number : ℕ) (g : Grid) (data : Array UInt8) : Prop :=
  ∀ n, data.size ≤ n → (g.interpret (c.fed number n) c.stepLimit).ending = .halted .finished ∧
    (g.interpret (c.fed number n) c.stepLimit).output = data

/-- The picture of a round leads back to the source: the first one prints it, and any later one
prints an image file in which there is a picture that leads back to it. -/
inductive Peels (c : Rounds) (source : Array UInt8) : (number : ℕ) → Grid → Prop
  | first {g : Grid} (hprints : c.Prints 0 g source) : Peels c source 0 g
  | next {number : ℕ} {g inner : Grid} {file : Array UInt8} (hprints : c.Prints (number + 1) g file)
      (hread : c.png.read file false = .ok inner) (hinner : Peels c source number inner) :
      Peels c source (number + 1) g

/-! ### One round -/

/-- What a round has composed and tried. -/
theorem round_eq_ok (h : c.round number data log = (log', .ok g)) :
    ∃ p, compose data (c.key? number) c.bytesPerLane = .ok p ∧ p.grid = g ∧
      (g.interpret (Payload.feed data (c.key? number)) c.stepLimit).ending =
        .halted .finished := by
  rw [round] at h
  dsimp only at h
  split at h
  · cases h
  next p hcompose =>
  split at h
  · next hends =>
    obtain rfl : p.grid = g := Except.ok.inj (congrArg Prod.snd h)
    exact ⟨p, hcompose, rfl, hends.1⟩
  · cases h

/-- A key for at least as many bytes makes a picture print its payload. -/
theorem written_fed (c : Rounds) (number : ℕ) {n : ℕ} (hn : data.size ≤ n) :
    ((Machine.start (c.fed number n)).printBytes (c.key? number).isSome
      (Payload.masked data (c.key? number))).output.written = data := by
  have hkey : c.key? number = c.keys[number % c.keys.length]? := rfl
  rw [fed, hkey]
  cases c.keys[number % c.keys.length]? with
  | none => exact Payload.written_plain data #[]
  | some key =>
    have hsize : (Payload.keyStream key n).toArray.size = n := by
      rw [List.size_toArray, Payload.length_keyStream]
    refine Payload.written_cycled (hsize.symm ▸ hn) fun i hi => ?_
    dsimp only
    rw [getElem!_pos _ i (by omega)]
    exact Payload.getElem_keyStream _

/-- **A round that succeeds** has made a picture that prints its bytes.  The round has tried it with
just as many bytes of the key, and more of them make no difference. -/
theorem prints_of_round (h : c.round number data log = (log', .ok g)) : c.Prints number g data := by
  obtain ⟨p, hcompose, rfl, hending⟩ := round_eq_ok h
  intro n hn
  have hlast := compose_run hcompose (Payload.feed data (c.key? number)) c.stepLimit
  obtain ⟨hbelow, -⟩ := compose_run hcompose (c.fed number n) c.stepLimit
  rw [written_fed c number hn] at hbelow
  refine (hbelow (Nat.lt_of_not_le fun hle => ?_)).symm
  rw [hlast.2 hle] at hending
  cases hending

/-- The picture of a round is found in its image file, if the format loses nothing. -/
theorem read_of_round (hpng : ∀ r, c.png.Lossless r) (h : c.round number data log = (log', .ok g))
    (hwrite : c.png.write g = .ok file) : c.png.read file false = .ok g := by
  obtain ⟨p, hcompose, rfl, -⟩ := round_eq_ok h
  exact Format.read_of_write (Compose.fitsRaster hcompose) (hpng _) hwrite false

/-- A round succeeds if its key is not empty, the picture is not too large, and the limit of steps
leaves enough of them for every byte and every lane. -/
theorem exists_round (hkey : c.key? number ≠ some #[])
    (hfits : ¬ Compose.Overfull data (c.key? number) c.bytesPerLane)
    (hlimit : 11 * data.size + 6 * Compose.lanesFor data.size c.bytesPerLane + 9 < c.stepLimit)
    (log : Log) : ∃ p, compose data (c.key? number) c.bytesPerLane = .ok p ∧
      (c.round number data log).2 = .ok p.grid := by
  obtain ⟨p, hcompose, -⟩ := compose_of_fits hkey hfits
  obtain ⟨hbelow, -⟩ := compose_run hcompose (Payload.feed data (c.key? number)) c.stepLimit
  have hbytes : ((Payload.masked data (c.key? number)).map
      (Payload.byteSteps (c.key? number).isSome)).sum ≤ data.size * 11 := by
    rw [← Compose.length_masked data (c.key? number), ← List.length_map]
    refine List.sum_le_card_nsmul _ 11 fun n hn => ?_
    obtain ⟨b, -, rfl⟩ := List.mem_map.mp hn
    rw [Payload.byteSteps]
    split_ifs <;> decide
  obtain ⟨houtput, hending⟩ := hbelow (by omega)
  rw [Payload.written_feed] at houtput
  refine ⟨p, hcompose, ?_⟩
  rw [round, hcompose]
  dsimp only
  rw [if_pos ⟨hending, houtput⟩]

/-! ### All rounds -/

theorem runFrom_succ_eq_ok (h : c.runFrom (more + 1) number data log = (log', .ok g)) :
    ∃ log₁ inner file, c.round number data log = (log₁, .ok inner) ∧
      c.png.write inner = .ok file ∧
      c.runFrom more (number + 1) file log₁ = (log', .ok g) := by
  rw [runFrom] at h
  split at h
  · cases h
  next log₁ inner hround =>
  split at h
  · cases h
  next file hwrite => exact ⟨log₁, inner, file, hround, hwrite, h⟩

theorem runFrom_succ (h : (c.round number data log).2 = .ok g)
    (hwrite : c.png.write g = .ok file) : c.runFrom (more + 1) number data log =
      c.runFrom more (number + 1) file (c.round number data log).1 := by
  have hround : c.round number data log = ((c.round number data log).1, .ok g) :=
    Prod.ext rfl h
  rw [runFrom, hround]
  dsimp only
  rw [hwrite]

/-- What leads on to the last round: any picture that prints the bytes of this one, in this round,
peels. -/
theorem peels_of_runFrom (hpng : ∀ r, c.png.Lossless r)
    (h : c.runFrom more number data log = (log', .ok g))
    (hpeels : ∀ inner, c.Prints number inner data → c.Peels source number inner) :
    c.Peels source (number + more) g := by
  induction more generalizing number data log with
  | zero => exact hpeels g (prints_of_round h)
  | succ more ih =>
    obtain ⟨log₁, inner, file, hround, hwrite, hrest⟩ := runFrom_succ_eq_ok h
    rw [← Nat.add_assoc, Nat.add_right_comm]
    exact ih hrest fun outer hprints =>
      .next hprints (read_of_round hpng hround hwrite) (hpeels inner (prints_of_round hround))

/-- All rounds together lead back to the source. -/
theorem peels_of_run (hpng : ∀ r, c.png.Lossless r) {recurse : ℕ}
    (h : c.run recurse source = (log, .ok g)) : c.Peels source recurse g := by
  have hpeels := peels_of_runFrom hpng h fun _ => .first
  rwa [Nat.zero_add] at hpeels

end Rounds

/-! ### Generating -/

namespace GenerateOptions

/-- What a command that succeeds has generated and saved. -/
theorem perform_eq_ok {σ : Type} {disk : Disk (StateM σ)} {o : GenerateOptions} {s s' : σ}
    {log : Log} {done : Completion} (h : o.perform disk s = ((log, .ok done), s')) :
    ∃ source s₁ g, o.sourceBytes disk s = (.ok source, s₁) ∧
      (o.rounds disk.formats.png).run o.recurse source = (log, .ok g) ∧
      disk.save g o.output s₁ = (.ok (), s') := by
  rw [perform] at h
  simp only [bind, StateT.bind] at h
  rcases hsource : o.sourceBytes disk s with ⟨e | source, s₁⟩ <;> rw [hsource] at h
  case error => cases h
  dsimp only at h
  rcases hrun : (o.rounds disk.formats.png).run o.recurse source with ⟨log₁, e | g⟩ <;> rw [hrun] at h
  case error => cases h
  dsimp only [StateT.bind, bind] at h
  rcases hsave : disk.save g o.output s₁ with ⟨e | saved, s₂⟩ <;> rw [hsave] at h
  case error => cases h
  cases h
  exact ⟨source, s₁, g, rfl, hrun, hsave⟩

theorem perform_of_run {σ : Type} {disk : Disk (StateM σ)} {o : GenerateOptions} {s s₁ s' : σ}
    {source : Array UInt8} {log : Log} (hsource : o.sourceBytes disk s = (.ok source, s₁))
    (hrun : (o.rounds disk.formats.png).run o.recurse source = (log, .ok g))
    (hsave : disk.save g o.output s₁ = (.ok (), s')) :
    o.perform disk s = ((log, .ok ⟨#[], none⟩), s') := by
  simp only [perform, bind, StateT.bind, hsource, hrun, hsave]
  rfl

end GenerateOptions

/-- **What is generated can be peeled.**  From the picture of the last round, each program prints
the image file in which the picture of the round before is found, and the first program prints the
source.  This holds of all rounds that succeed, whatever their keys, and of what is saved by a
command that succeeds, on any disk.  Of the format of the image files in between it is assumed that
the file of a raster holds that raster. -/
theorem generate_peels :
    (∀ (c : Rounds) (recurse : ℕ) (source : Array UInt8) (log : Log) (g : Grid),
        (∀ r, c.png.Lossless r) → c.run recurse source = (log, .ok g) →
          c.Peels source recurse g) ∧
      ∀ (σ : Type) (disk : Disk (StateM σ)) (o : GenerateOptions) (s s' : σ) (log : Log)
        (done : Completion), (∀ r, disk.formats.png.Lossless r) →
          o.perform disk s = ((log, .ok done), s') →
            ∃ source s₁ g, o.sourceBytes disk s = (.ok source, s₁) ∧
              disk.save g o.output s₁ = (.ok (), s') ∧
              (o.rounds disk.formats.png).Peels source o.recurse g := by
  refine ⟨fun c recurse source log g hpng => Rounds.peels_of_run hpng,
    fun σ disk o s s' log done hpng h => ?_⟩
  obtain ⟨source, s₁, g, hsource, hrun, hsave⟩ := GenerateOptions.perform_eq_ok h
  exact ⟨source, s₁, g, hsource, hsave, Rounds.peels_of_run hpng hrun⟩

/-- A command for two rounds with two keys, of which the first prints nothing at all. -/
def twoRounds : GenerateOptions :=
  ⟨"", "a.png", 58, ["x", "yz"], 1, 5000⟩

/-- Either round succeeds with a few bytes. -/
theorem exists_round_twoRounds (number : ℕ)
    (hkey : (twoRounds.rounds .png).key? number ≠ some #[]) (hsize : data.size ≤ 200) (log : Log) :
    ∃ p, compose data ((twoRounds.rounds .png).key? number) 58 = .ok p ∧
      ((twoRounds.rounds .png).round number data log).2 = .ok p.grid := by
  have hlanes : Compose.lanesFor data.size (twoRounds.rounds .png).bytesPerLane ≤ 4 := by
    have hcols : (twoRounds.rounds .png).bytesPerLane = 58 := rfl
    rw [Compose.lanesFor, hcols, Nat.ceilDiv_eq_add_pred_div]
    omega
  have hsteps : (twoRounds.rounds .png).stepLimit = 5000 := rfl
  exact (twoRounds.rounds .png).exists_round hkey
    (Compose.not_overfull (by decide) (by decide) (hlanes.trans (by decide))) (by omega) log

theorem exists_run_twoRounds : ∃ log g file,
    (twoRounds.rounds .png).run 1 #[] = (log, .ok g) ∧ Format.png.write g = .ok file := by
  have hempty : (#[] : Array UInt8).size ≤ 200 := Nat.zero_le 200
  obtain ⟨p, hp, hfirst⟩ := exists_round_twoRounds 0 (by decide) hempty #[]
  obtain ⟨file, hwrite⟩ := Format.exists_write_png (Compose.fitsRaster hp)
  have hsize : file.size ≤ 200 := by
    have hall : (compose #[] ((twoRounds.rounds .png).key? 0) 58).toOption.all (fun p =>
        (Format.png.encode? (.ofGrid p.grid)).all (·.size ≤ 200)) = true := by decide +kernel
    rw [hp, Except.toOption, Option.all_some, Format.write_eq_ok_iff.mp hwrite] at hall
    exact of_decide_eq_true hall
  obtain ⟨p', hp', hsecond⟩ := exists_round_twoRounds 1 (by decide) hsize
    ((twoRounds.rounds .png).round 0 #[] #[]).1
  obtain ⟨file', hwrite'⟩ := Format.exists_write_png (Compose.fitsRaster hp')
  exact ⟨_, p'.grid, file', (Rounds.runFrom_succ hfirst hwrite).trans (Prod.ext rfl hsecond),
    hwrite'⟩

theorem generate_peels_twoRounds :
    (∀ r, Format.png.Lossless r) ∧
    (∃ log g, (twoRounds.rounds .png).run 1 #[] = (log, .ok g) ∧
      (twoRounds.rounds .png).Peels #[] 1 g) ∧
    ∃ log s', twoRounds.perform Folder.disk .empty = ((log, .ok ⟨#[], none⟩), s') ∧
      ∃ g, Folder.disk.save g "a.png" .empty = (.ok (), s') ∧
        (twoRounds.rounds .png).Peels #[] 1 g := by
  obtain ⟨log, g, file, hrun, hwrite⟩ := exists_run_twoRounds
  have hsource : twoRounds.sourceBytes Folder.disk .empty = (.ok #[], .empty) := rfl
  have hsave := Folder.disk.save_eq ofPath_png hwrite (Folder.write_eq place_png file .empty)
  have hperform := GenerateOptions.perform_of_run hsource hrun hsave
  have hpng := Format.png_lossless
  obtain ⟨hpeels, hsaves⟩ := generate_peels
  refine ⟨hpng, ⟨log, g, hrun, hpeels _ _ _ _ _ hpng hrun⟩, _, _, hperform, ?_⟩
  obtain ⟨source, s₁, g', hsource', hsaved, hg⟩ := hsaves _ _ _ _ _ _ _ hpng hperform
  cases hsource.symm.trans hsource'
  exact ⟨g', hsaved, hg⟩

end Piet
