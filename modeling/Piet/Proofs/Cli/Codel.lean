import Piet.Cli.Session
import Piet.Proofs.Grid.Scale
import Piet.Proofs.Image.Format

/-!
# Running enlarged pictures

Images of programs are often drawn with enlarged pixels, and a run takes one pixel of each block.  If
the picture has a run of a single pixel, the size of the blocks is found out, and running the enlarged
picture is running the picture itself (`enlarge_recovered`).
-/

namespace Piet

/-- Notices are added behind what is in the log. -/
theorem Log.notices_append (log log' : Log) (ns : Array Notice) :
    (log ++ log').notices ns = log ++ log'.notices ns := by
  have hnotices : ∀ log : Log, log.notices ns = log ++ ns.map fun n => ⟨.debug, n.message⟩ := by
    intro log
    exact Array.foldl_push_eq_append rfl
  rw [hnotices, hnotices log', Array.append_assoc]

theorem Log.info_append (log log' : Log) (text : String) :
    (log ++ log').info text = log ++ log'.info text :=
  Array.push_append

namespace RunOptions

/-- What is in the log before a run stays at its beginning, and makes no difference. -/
theorem execute_append {m : Type → Type} [Monad m] [LawfulMonad m] (disk : Disk m) (o : RunOptions)
    (log log' : Log) (g : Grid) :
    o.execute disk (log ++ log') g = (fun r => (log ++ r.1, r.2)) <$> o.execute disk log' g := by
  rw [execute, execute, map_bind]
  refine bind_congr fun created => ?_
  rcases created with _ | _
  · rw [Bool.not_false, if_pos rfl, if_pos rfl, map_pure]
  · rw [Bool.not_true, if_neg Bool.false_ne_true, if_neg Bool.false_ne_true]
    split
    · rw [map_pure]
    · simp only [Log.notices_append]
      split
      · rw [map_pure]
      · rw [map_bind]
        refine bind_congr fun written => ?_
        split
        · rw [map_pure, Log.info_append]
        · rw [map_pure]

/-- Once a picture has been loaded, a run goes on with it. -/
theorem perform_of_load {σ : Type} {disk : Disk (StateM σ)} {o : RunOptions} {s s₁ : σ} {g : Grid}
    (hload : disk.load o.image o.lenient s = (.ok g, s₁)) :
    o.perform disk s = o.execute disk (o.reduced g).1 (o.reduced g).2 s₁ := by
  simp only [perform, bind, StateT.bind, hload]

/-- The size of the blocks, given or found out, leads back to the picture. -/
theorem reduced_enlarge {g : Grid} {n : ℕ} {hw : n * g.width < Pos.limit}
    {hh : n * g.height < Pos.limit} (hn : 1 ≤ n) {o : RunOptions}
    (hside : (g.enlarge n hw hh).smallestSide = n) (hsize : o.codelSize = 0 ∨ o.codelSize = n) :
    (o.reduced (g.enlarge n hw hh)).2 = g := by
  have hback : (g.enlarge n hw hh).scaleDown n = g := Grid.scaleDown_enlarge hn
  have hcodel : (if o.codelSize = 0 then (g.enlarge n hw hh).smallestSide else o.codelSize) = n := by
    rcases hsize with hzero | hn'
    · rw [if_pos hzero, hside]
    · rw [hn', if_neg (by omega)]
  rw [reduced]
  simp only [hcodel]
  split
  · exact hback
  · rwa [Grid.scaleDown, dif_pos (by omega)] at hback

end RunOptions

/-- **Enlarged programs are recovered.**  Let every pixel of a picture that has one be drawn as a block
of `n × n` pixels.  Then the smallest side grows by the factor `n`, and the top left pixels of the
blocks are the picture.  If some row or column of the picture has a run of a single pixel, the smallest
side is `n`.  So if the size of the codels is to be found out, or is given as `n`, the picture that is
run is the one before, and the run of an image file with the enlarged picture leaves the same behind as
the run of one with the picture itself, except that it begins the log with a line of its own. -/
theorem enlarge_recovered {g : Grid} (hg : g.isEmpty = false) {n : ℕ} (hn : 1 ≤ n)
    (hw : n * g.width < Pos.limit) (hh : n * g.height < Pos.limit) :
    let u := g.enlarge n hw hh
    u.smallestSide = n * g.smallestSide ∧ u.scaleDown n = g ∧
      (1 ∈ g.runLengths → u.smallestSide = n ∧
        ∀ o : RunOptions, o.codelSize = 0 ∨ o.codelSize = n →
          (o.reduced u).2 = g ∧
            ∀ (σ : Type) (disk : Disk (StateM σ)) (path : String) (s s₁ : σ),
              disk.load o.image o.lenient s = (.ok u, s₁) →
              disk.load path o.lenient s = (.ok g, s₁) →
                let run := { o with image := path, codelSize := 1 }.perform disk s
                o.perform disk s = (((o.reduced u).1 ++ run.1.1, run.1.2), run.2)) := by
  intro u
  have hgrown : u.smallestSide = n * g.smallestSide := Grid.smallestSide_enlarge hn hg
  refine ⟨hgrown, Grid.scaleDown_enlarge hn, fun hone => ?_⟩
  have hleast := Grid.isLeast_smallestSide hg
  have hside : g.smallestSide = 1 :=
    Nat.le_antisymm (hleast.2 hone) (Grid.pos_of_mem_runLengths hleast.1)
  rw [hside, Nat.mul_one] at hgrown
  refine ⟨hgrown, fun o hsize => ?_⟩
  have hback : (o.reduced u).2 = g := RunOptions.reduced_enlarge hn hgrown hsize
  refine ⟨hback, fun σ disk path s s₁ hload hload' => ?_⟩
  intro run
  have hplain : run = o.execute disk #[] g s₁ := RunOptions.perform_of_load hload'
  have hexecute := RunOptions.execute_append disk o (o.reduced u).1 #[] g
  rw [Array.append_empty] at hexecute
  calc o.perform disk s = o.execute disk (o.reduced u).1 (o.reduced u).2 s₁ :=
        RunOptions.perform_of_load hload
    _ = o.execute disk (o.reduced u).1 g s₁ := by rw [hback]
    _ = ((fun r => ((o.reduced u).1 ++ r.1, r.2)) <$> o.execute disk #[] g) s₁ :=
        congrFun hexecute s₁
    _ = (((o.reduced u).1 ++ run.1.1, run.1.2), run.2) := by
        rw [hplain]
        rfl

/-- A picture of two rows, with a run of one pixel in the upper one. -/
def notch : Grid :=
  (Grid.ofCells? 3 2 #[.shade (.ofInts 0 0), .shade (.ofInts 0 0), .white, .shade (.ofInts 0 0),
    .shade (.ofInts 0 0), .shade (.ofInts 0 0)]).get (by decide)

/-- The same picture with pixels of twice the size. -/
def largeNotch : Grid :=
  notch.enlarge 2 (by decide) (by decide)

/-- A disk that has the file `a.png` and another one, and forgets what it is to keep. -/
def twoFiles (first second : Array UInt8) : Disk (StateM Unit) where
  formats := .standard
  contains _ := pure true
  read? path := pure (some (if path = "a.png" then first else second))
  write _ _ := pure true

theorem load_twoFiles {path : String} {first second bytes : Array UInt8} {g : Grid}
    (hformat : NameFormat.ofPath path = .of .png)
    (hbytes : (if path = "a.png" then first else second) = bytes)
    (hread : ∀ lenient, Format.png.read bytes lenient = .ok g) (lenient : Bool) :
    (twoFiles first second).load path lenient () = (.ok g, ()) := by
  subst hbytes
  have hload := (twoFiles first second).load_eq (s := ()) hformat rfl lenient
  exact Prod.ext (hload.trans (hread lenient)) rfl

/-- Run options that ask for the size of the codels to be found out. -/
def findOut : RunOptions :=
  ⟨"a.png", none, "", 20, 0, 0, false⟩

theorem enlarge_recovered_notch :
    notch.isEmpty = false ∧ 1 ∈ notch.runLengths ∧ largeNotch.smallestSide = 2 ∧
      largeNotch.scaleDown 2 = notch ∧ (findOut.reduced largeNotch).2 = notch ∧
      ∃ first second, findOut.codelSize = 0 ∧
        (twoFiles first second).load "a.png" false () = (.ok largeNotch, ()) ∧
        (twoFiles first second).load "b.png" false () = (.ok notch, ()) ∧
        let run := { findOut with image := "b.png", codelSize := 1 }.perform
          (twoFiles first second) ()
        findOut.perform (twoFiles first second) () =
          (((findOut.reduced largeNotch).1 ++ run.1.1, run.1.2), run.2) := by
  have hpixel : notch.isEmpty = false := by decide
  have hone : 1 ∈ notch.runLengths := by
    refine .inl ⟨0, by decide, 2, by decide, by decide, fun j hj => ?_, fun j hj => ?_, by decide⟩
    · obtain rfl := Nat.lt_one_iff.mp hj
      rfl
    · obtain rfl := Nat.succ.inj hj
      decide
  obtain ⟨-, hback, hrest⟩ :=
    enlarge_recovered hpixel (n := 2) (by decide) (by decide) (by decide)
  obtain ⟨hside, hruns⟩ := hrest hone
  obtain ⟨hreduced, hrun⟩ := hruns findOut (.inl rfl)
  have hfits : largeNotch.FitsRaster := ⟨by decide, by decide, by decide, by decide⟩
  have hfits' : notch.FitsRaster := ⟨by decide, by decide, by decide, by decide⟩
  obtain ⟨first, hfirst⟩ := Format.exists_write_png hfits
  obtain ⟨second, hsecond⟩ := Format.exists_write_png hfits'
  have hread := Format.read_of_write hfits (Format.png_lossless _) hfirst
  have hread' := Format.read_of_write hfits' (Format.png_lossless _) hsecond
  have hformat : NameFormat.ofPath "b.png" = .of .png := by
    have hslash : "b.png".splitOn "/" = ["b.png"] := by
      simp +decide [String.splitOn, String.splitOnAux]
    have hdots : "b.png".splitOn "." = ["b", "png"] := by
      simp +decide [String.splitOn, String.splitOnAux]
    exact ofPath_of_splitOn (by decide) (by decide) hslash hdots
  have hload : (twoFiles first second).load "a.png" false () = (.ok largeNotch, ()) :=
    load_twoFiles ofPath_png (if_pos rfl) hread false
  have hload' : (twoFiles first second).load "b.png" false () = (.ok notch, ()) :=
    load_twoFiles hformat (if_neg (by decide)) hread' false
  exact ⟨hpixel, hone, hside, hback, hreduced, first, second, rfl, hload, hload',
    hrun Unit (twoFiles first second) "b.png" () () hload hload'⟩

end Piet
