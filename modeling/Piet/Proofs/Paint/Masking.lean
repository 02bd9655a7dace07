import Piet.Proofs.Paint.Extent

/-!
# What a picture with a key gives away

A picture is composed by running its program on a machine that is given the key, so the bytes of the
payload and of the key pass over the stack of that machine.  They leave no trace: the picture is laid
out by the heading of the machine, which they never reach, and the machine always ends with the
payload printed.

* `compose_masked`: payloads and keys with the same sums are composed into the same picture, or fail
  for the same reason.
* `masked_eq_of_grid_eq`: the sums themselves can be read off the picture, by running it without
  input.
-/

namespace Piet

open Payload (byteSteps heldAt masked)

variable {data data' key key' : Array UInt8} {cols : ℕ} {c c' : Composition}

namespace Payload

/-- The bytes that a picture holds are known by their sums. -/
theorem masked_congr (hsize : data.size = data'.size)
    (hsums : ∀ i < data.size, heldAt data key i = heldAt data' key' i) :
    masked data (some key) = masked data' (some key') := by
  rw [masked_some, masked_some, ← hsize]
  exact List.map_congr_left fun i hi => hsums i (List.mem_range.mp hi)

end Payload

namespace Compose

/-- The strokes of a picture depend on the bytes that it holds only. -/
theorem lanes_congr {key key' : Option (Array UInt8)} (hmasked : masked data key = masked data' key')
    (hkey : key.isSome = key'.isSome) (cols : ℕ) :
    lanes data key cols = lanes data' key' cols := by
  rw [lanes, lanes, hmasked, hkey]

/-- Pictures of the same strokes are the same. -/
theorem grid_congr {key key' : Option (Array UInt8)}
    (hlanes : lanes data key cols = lanes data' key' cols) (hc : compose data key cols = .ok c)
    (hc' : compose data' key' cols = .ok c') : c.grid = c'.grid := by
  obtain ⟨-, hfits⟩ := fits_of_compose hc
  obtain ⟨pen, hpaint, hgrid⟩ := exists_pen hc
  obtain ⟨pen', hpaint', hgrid'⟩ := exists_pen hc'
  obtain ⟨pen₁, pen₁', hpaint₁, hpaint₁', hcanvas, -⟩ :=
    exists_paintLanes hfits (Payload.feed data key) (Payload.feed data' key')
  rw [← hlanes] at hpaint'
  obtain rfl : pen = pen₁ := congrArg Prod.fst (hpaint.symm.trans hpaint₁)
  obtain rfl : pen' = pen₁' := congrArg Prod.fst (hpaint'.symm.trans hpaint₁')
  rw [hgrid, hgrid', hcanvas]

end Compose

/-- **A picture with a key hides everything but the sums it holds.**  Of two payloads of the same
length, each with a key that is not empty, let the sums of payload and repeated key be the same.  Then
both are composed into the same picture, or neither is, for the same reason. -/
theorem compose_masked (hsize : data.size = data'.size) (hkey : key ≠ #[]) (hkey' : key' ≠ #[])
    (hsums : ∀ i < data.size,
      data[i]! + key[i % key.size]! = data'[i]! + key'[i % key'.size]!) (cols : ℕ) :
    (compose data (some key) cols).map Composition.grid =
      (compose data' (some key') cols).map Composition.grid := by
  have hsome : ∀ {k : Array UInt8}, k ≠ #[] → some k ≠ some #[] := fun hk h => hk (Option.some.inj h)
  have hlanes : Compose.lanes data (some key) cols = Compose.lanes data' (some key') cols :=
    Compose.lanes_congr (Payload.masked_congr hsize hsums) rfl cols
  by_cases hfull : Compose.Overfull data (some key) cols
  · have hfull' : Compose.Overfull data' (some key') cols := by
      rwa [Compose.Overfull, ← hlanes]
    rw [compose_of_overfull (hsome hkey) hfull, compose_of_overfull (hsome hkey') hfull', hlanes]
  · have hfits' : ¬ Compose.Overfull data' (some key') cols := by
      rwa [Compose.Overfull, ← hlanes]
    obtain ⟨c, hc, -⟩ := compose_of_fits (hsome hkey) hfull
    obtain ⟨c', hc', -⟩ := compose_of_fits (hsome hkey') hfits'
    rw [hc, hc']
    exact congrArg Except.ok (Compose.grid_congr hlanes hc hc')

theorem compose_masked_two_keys :
    ((compose #[2, 250] (some #[3, 9, 1]) 1).map Composition.grid =
      (compose #[4, 4] (some #[1, 255]) 1).map Composition.grid) ∧
      ((compose #[2, 250] (some #[3, 9, 1]) 1).isOk = true) :=
  ⟨@compose_masked #[2, 250] #[4, 4] #[3, 9, 1] #[1, 255] rfl (by decide) (by decide) (by decide) 1,
    by decide +kernel⟩

/-- **The sums can be read off the picture**: without input its program prints them. -/
theorem masked_eq_of_grid_eq (hc : compose data (some key) cols = .ok c) {cols' : ℕ}
    (hc' : compose data' (some key') cols' = .ok c') (hgrid : c.grid = c'.grid) :
    masked data (some key) = masked data' (some key') := by
  have hprints : ∀ {data key : Array UInt8} {cols : ℕ} {c : Composition},
      compose data (some key) cols = .ok c → ∃ last, ∀ limit, last < limit →
        (c.grid.interpret #[] limit).output.toList = masked data (some key) := by
    intro data key cols c hc
    refine ⟨((masked data (some key)).map (byteSteps true)).sum +
      6 * (Compose.lanesFor data.size cols - 1) + 9, fun limit hlt => ?_⟩
    rw [((compose_run hc #[] limit).1 hlt).1, Option.isSome_some, Payload.written_keyed,
      Payload.masked_some]
    rfl
  obtain ⟨last, hlast⟩ := hprints hc
  obtain ⟨last', hlast'⟩ := hprints hc'
  rw [← hlast (last + last' + 1) (by omega), ← hlast' (last + last' + 1) (by omega), hgrid]

end Piet
