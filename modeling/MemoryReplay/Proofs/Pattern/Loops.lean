import MemoryReplay.Proofs.Pattern.Sweep

/-!
# Stages and sweeps as loops of exact numbers

What a stage and a sweep compute, written out as nested loops over exact numbers, with every sum and
product that the evaluation of their formulas forms on the way. Most of these are no larger than the
result. The exception is a product that is formed before it is multiplied by the number of sub-tiles,
of which there may be none: it fits because the check of a tiling has looked at all four halves.

- `StageVariant.loopAddresses`, `StageVariant.partials`: the loop of a stage, and what is computed at
  a position of it.
- `generate_exact`: a stage that succeeds has the addresses of its loop, and the largest one is the
  last address that was checked.
- `StageVariant.loopStarts`, `StageVariant.sweepPartials`: the same for a sweep.
- `sweepStarts_exact`: a sweep that succeeds has the start words of its loop.
-/

namespace MemoryReplay

namespace Pattern

theorem map_box {α : Type} (a b c : Nat) (f : Nat × Nat × Nat → α) :
    (box a b c).map f = (List.range a).flatMap fun i =>
      (List.range b).flatMap fun j => (List.range c).map fun k => f (i, j, k) := by
  simp only [box, List.map_flatMap, List.map_map, map_grid, Function.comp_def]

end Pattern

namespace StageVariant

open Pattern

variable {variant : StageVariant} {start units blocks : UInt64} {g : StageGeometry}

/-! ### Stages -/

/-- The addresses of a stage, as its loop computes them in exact numbers. -/
def loopAddresses (variant : StageVariant) (start : Nat) (g : StageGeometry) : List Nat :=
  let row := g.rowElements.toNat
  let subtiles := g.subtiles.toNat
  match variant with
  | icWiseFirstHalf =>
    (List.range g.iterations.toNat).flatMap fun i => (List.range g.channels.toNat).map fun channel =>
      (channel * g.channelSpan.toNat + (start + i * row * subtiles)) * 2 ^ g.wordShift.toNat
  | icWiseSecondHalf =>
    (List.range g.channels.toNat).flatMap fun channel => (List.range g.iterations.toNat).map fun i =>
      (channel * g.channelSpan.toNat + (start + i * row)) * 2 ^ g.wordShift.toNat
  | irWiseFirstHalf => (List.range subtiles).map fun subtile => start + subtile
  | irWiseSecondHalf =>
    (List.range g.iterations.toNat).map fun subtile => start + subtile * subtiles

/-- Every sum and product up to the word that a stage reads at a position of its loop. -/
def partials (variant : StageVariant) (start : Nat) (g : StageGeometry) : Nat × Nat → List Nat
  | (i, j) =>
    let base := j * g.channelSpan.toNat
    let rows := i * g.rowElements.toNat
    let subtiles := g.subtiles.toNat
    match variant with
    | icWiseFirstHalf =>
      [base, rows, rows * subtiles, start + rows * subtiles, base + (start + rows * subtiles)]
    | icWiseSecondHalf => [base, rows, start + rows, base + (start + rows)]
    | irWiseFirstHalf => [start + j]
    | irWiseSecondHalf => [j * subtiles, start + j * subtiles]

theorem loopAddresses_eq (variant : StageVariant) (s : Nat) (g : StageGeometry) :
    variant.loopAddresses s g = (variant.positions g).map (variant.exactAddress s g) := by
  cases variant with
  | icWiseFirstHalf =>
    rw [positions, map_grid]
    rfl
  | icWiseSecondHalf =>
    rw [positions, List.map_map, map_grid]
    rfl
  | irWiseFirstHalf | irWiseSecondHalf =>
    -- the outer loop of these halves makes one round, and their shift is by nothing
    rw [positions, map_grid, List.range_one, List.flatMap_singleton]
    exact List.map_congr_left fun _ _ => (Nat.mul_one _).symm

/-- Nothing that is computed on the way leaves 64 bits where the last address fits. -/
theorem partials_lt (hg : g.Fits) (hend : variant.exactEnd start.toNat g < UInt64.size)
    {p : Nat × Nat} (hp : p ∈ variant.positions g) :
    ∀ n ∈ variant.partials start.toNat g p, n < UInt64.size := by
  have hword := Nat.lt_of_le_of_lt exactWord_le_exactAddress
    (Nat.lt_of_le_of_lt (exactAddress_le_exactEnd hp) hend)
  obtain ⟨i, j⟩ := p
  obtain ⟨hi : i < _, -⟩ := mem_positions.mp hp
  intro n hn
  cases variant with
  | icWiseFirstHalf =>
    -- with no sub-tiles the rows are no part of the word
    have hrows := rows_lt hg hi
    dsimp only [exactWord] at hword
    simp only [partials, List.mem_cons, List.not_mem_nil, or_false] at hn
    omega
  | icWiseSecondHalf | irWiseFirstHalf | irWiseSecondHalf =>
    dsimp only [exactWord] at hword
    simp only [partials, List.mem_cons, List.not_mem_nil, or_false] at hn
    omega

/-- The largest address of a stage is the one that its check has looked at. -/
theorem isGreatest_last {last : UInt64} {trace : List Request}
    (hlast : variant.lastAddress start g = .ok last)
    (htrace : FreshAt trace (variant.loopAddresses start.toNat g) .read) (hne : trace ≠ []) :
    (∃ r ∈ trace, r.address = last) ∧ ∀ r ∈ trace, r.address ≤ last := by
  have hend := exactEnd_of_lastAddress hlast
  rw [loopAddresses_eq] at htrace
  constructor
  · have hpositions : variant.positions g ≠ [] := by
      intro hnil
      have haddresses := htrace.addresses_eq
      rw [hnil, List.map_nil, List.map_eq_nil_iff] at haddresses
      exact hne haddresses
    have hmem := List.mem_map_of_mem (f := variant.exactAddress start.toNat g)
      (lastPosition_mem hpositions)
    obtain ⟨r, hr, haddress⟩ := htrace.mem_addresses_iff.mp hmem
    exact ⟨r, hr, UInt64.toNat_inj.mp (haddress.trans hend.symm)⟩
  · intro r hr
    obtain ⟨p, hp, haddress⟩ := List.mem_map.mp (htrace.mem_addresses_iff.mpr ⟨r, hr, rfl⟩)
    rw [UInt64.le_iff_toNat_le, hend, ← haddress]
    exact exactAddress_le_exactEnd hp

/-- **A stage computes its formula exactly.** Once its check has passed, nothing that is computed at
any position of its loop leaves 64 bits, and the shift loses no bit. A stage that succeeds has fresh
reads at the addresses of its loop, in this order, and the largest of them is the last address that
was checked. -/
theorem generate_exact (variant : StageVariant) (start : UInt64) (g : StageGeometry) :
    (variant.check start g = .ok () → ∀ p ∈ variant.positions g,
      (∀ n ∈ variant.partials start.toNat g p, n < UInt64.size) ∧
      Word.Yields (variant.addressAt start g p) (variant.exactAddress start.toNat g p)) ∧
    ∀ trace, variant.generate start g = .ok trace →
      variant.check start g = .ok () ∧
      FreshAt trace (variant.loopAddresses start.toNat g) .read ∧
      (trace ≠ [] → ∃ last, variant.lastAddress start g = .ok last ∧
        (∃ r ∈ trace, r.address = last) ∧ ∀ r ∈ trace, r.address ≤ last) := by
  constructor
  · intro hcheck p hp
    obtain ⟨hvalid, last, hlast⟩ := of_check_eq_ok hcheck
    have hfits := g.fits_of_validate hvalid
    have hend : variant.exactEnd start.toNat g < UInt64.size :=
      exactEnd_of_lastAddress hlast ▸ last.toNat_lt
    exact ⟨partials_lt hfits hend hp, addressAt_yields hfits hend hp⟩
  · intro trace h
    have hcheck := check_of_generate h
    obtain ⟨hvalid, last, hlast⟩ := of_check_eq_ok hcheck
    obtain ⟨hend, -, rfl⟩ := (generate_eq_ok_iff hvalid).mp h
    have hfresh : FreshAt (variant.requests start.toNat g)
        (variant.loopAddresses start.toNat g) .read := loopAddresses_eq .. ▸ freshAt_requests hend
    exact ⟨hcheck, hfresh, fun hne => ⟨last, hlast, isGreatest_last hlast hfresh hne⟩⟩

/-- A tiling of two channels whose iterations have rows, but no sub-tiles. -/
def noSubtiles : StageGeometry where
  channels := 2
  iterations := 3
  rowElements := 4
  subtiles := 0
  channelSpan := 32

/-- Six reads are made from word seven on, and the rows of the last iteration are counted. -/
theorem generate_exact_noSubtiles :
    (∃ trace, icWiseFirstHalf.generate 7 noSubtiles = .ok trace ∧
      trace.map (·.address.toNat) = [224, 1248, 224, 1248, 224, 1248] ∧
      ∀ r ∈ trace, r.address ≤ 1248) ∧
    icWiseFirstHalf.check 7 noSubtiles = .ok () ∧
    icWiseFirstHalf.partials 7 noSubtiles (2, 1) = [32, 8, 0, 7, 39] ∧
    ∀ n ∈ icWiseFirstHalf.partials 7 noSubtiles (2, 1), n < UInt64.size := by
  obtain ⟨trace, htrace⟩ : ∃ trace, icWiseFirstHalf.generate 7 noSubtiles = .ok trace := ⟨_, rfl⟩
  obtain ⟨hpartials, hexact⟩ := generate_exact icWiseFirstHalf 7 noSubtiles
  obtain ⟨hcheck, hfresh, hlargest⟩ := hexact trace htrace
  have hne : trace ≠ [] := by
    rintro rfl
    exact absurd hfresh.addresses_eq (by decide)
  obtain ⟨last, hlast, -, hle⟩ := hlargest hne
  obtain rfl : 1248 = last := Except.ok.inj ((show _ = _ from rfl).symm.trans hlast)
  refine ⟨⟨trace, htrace, hfresh.addresses_eq, hle⟩, hcheck, rfl, ?_⟩
  exact (hpartials hcheck (2, 1) (by decide)).1

/-! ### Sweeps -/

/-- The start words of a sweep, as its loop computes them in exact numbers. -/
def loopStarts (variant : StageVariant) (blocks : Nat) (g : StageGeometry) : List Nat :=
  let row := g.rowElements.toNat
  match variant with
  | icWiseFirstHalf =>
    (List.range g.subtiles.toNat).flatMap fun subtile =>
      (List.range g.iterations.toNat).flatMap fun outer =>
        (List.range row).map fun inner => outer * row ^ 2 + subtile * row + inner
  | icWiseSecondHalf =>
    (List.range g.iterations.toNat).flatMap fun subtile =>
      (List.range blocks).flatMap fun outer =>
        (List.range blocks).map fun inner =>
          outer * row ^ 2 + subtile * row * g.subtiles.toNat + inner
  | irWiseFirstHalf | irWiseSecondHalf =>
    (List.range blocks).flatMap fun outer =>
      (List.range row).map fun innerRow => outer * row ^ 2 + innerRow * g.irRowPitch.toNat

/-- Every sum and product up to the start word at a position of a sweep's loop. -/
def sweepPartials (variant : StageVariant) (g : StageGeometry) : Nat × Nat × Nat → List Nat
  | (subtile, outer, inner) =>
    let plane := outer * g.rowElements.toNat ^ 2
    let rows := subtile * g.rowElements.toNat
    let subtiles := g.subtiles.toNat
    match variant with
    | icWiseFirstHalf => [plane, rows, plane + rows, plane + rows + inner]
    | icWiseSecondHalf =>
      [plane, rows, rows * subtiles, plane + rows * subtiles, plane + rows * subtiles + inner]
    | irWiseFirstHalf | irWiseSecondHalf =>
      [plane, inner * g.irRowPitch.toNat, plane + inner * g.irRowPitch.toNat]

theorem loopStarts_eq (variant : StageVariant) (blocks : UInt64) (g : StageGeometry) :
    variant.loopStarts blocks.toNat g =
      (variant.sweepPositions blocks g).map (variant.exactStart g) := by
  cases variant with
  | icWiseFirstHalf | icWiseSecondHalf =>
    rw [sweepPositions, sweepBounds, map_box]
    simp only [loopStarts, exactStart, Nat.pow_two]
  | irWiseFirstHalf | irWiseSecondHalf =>
    rw [sweepPositions, sweepBounds, map_box, List.range_one, List.flatMap_singleton]
    simp only [loopStarts, exactStart, Nat.pow_two]

/-- Nothing that is computed on the way leaves 64 bits where the largest start word fits. -/
theorem sweepPartials_lt (hg : g.Fits) (hreach : variant.sweepReach blocks g < UInt64.size)
    {p : Nat × Nat × Nat} (hp : p ∈ variant.sweepPositions blocks g) :
    ∀ n ∈ variant.sweepPartials g p, n < UInt64.size := by
  have hfits := Nat.lt_of_le_of_lt (exactStart_le_sweepReach hp) hreach
  obtain ⟨subtile, outer, inner⟩ := p
  obtain ⟨hsubtile : subtile < _, -⟩ := mem_box.mp hp
  intro n hn
  cases variant with
  | icWiseSecondHalf =>
    have hrows := rows_lt hg hsubtile
    dsimp only [exactStart] at hfits
    simp only [sweepPartials, Nat.pow_two, List.mem_cons, List.not_mem_nil, or_false] at hn
    omega
  | icWiseFirstHalf | irWiseFirstHalf | irWiseSecondHalf =>
    dsimp only [exactStart] at hfits
    simp only [sweepPartials, Nat.pow_two, List.mem_cons, List.not_mem_nil, or_false] at hn
    omega

/-- The check of a sweep leaves 64 bits nowhere. -/
theorem sweepPlan_ne_overflow : variant.sweepPlan units g ≠ .error .overflow := by
  intro h
  unfold sweepPlan at h
  split at h
  · cases h
  rcases Outcome.bind_eq_error_iff.mp h with h | ⟨_, hvalid, h⟩
  · exact Outcome.ofExcept_ne_overflow h
  rcases Outcome.bind_eq_error_iff.mp h with h | ⟨plane, -, h⟩
  · -- the planes fit in a tiling that has passed its check
    have hplane := (g.fits_of_validate (Outcome.ofExcept_eq_ok hvalid)).plane
    obtain ⟨w, hw, -⟩ := Word.yields_mul? rfl rfl hplane
    unfold StageGeometry.planeSpan at h
    rw [hw] at h
    cases h
  rcases Outcome.bind_eq_error_iff.mp h with h | ⟨count, -, h⟩
  · exact Outcome.ofExcept_ne_overflow h
  rcases Outcome.bind_eq_error_iff.mp h with h | ⟨last, -, h⟩
  · exact Outcome.ofExcept_ne_overflow h
  · cases h

/-- **A sweep computes its start words exactly.** It never leaves 64 bits, and refuses zero units
before it divides by them. Once its check has passed, nothing that is computed at any position of its
loop leaves 64 bits. A sweep that succeeds has no more start words than the limit, and they are those
of its loop, in this order. -/
theorem sweepStarts_exact (variant : StageVariant) (units : UInt64) (g : StageGeometry) :
    variant.sweepStarts units g ≠ .error .overflow ∧
    (units = 0 → variant.sweepStarts units g =
      .error (.reported ⟨"butterfly_units", .outsideRange g.rowElements⟩)) ∧
    (∀ plan, variant.sweepPlan units g = .ok plan →
      ∀ p ∈ variant.sweepPositions plan.blocks g,
        (∀ n ∈ variant.sweepPartials g p, n < UInt64.size) ∧
        Word.Yields (variant.sweepStart plan.plane g p) (variant.exactStart g p)) ∧
    ∀ starts, variant.sweepStarts units g = .ok starts →
      starts.length ≤ maxRequests ∧
      starts.map UInt64.toNat = variant.loopStarts (g.rowElements.toNat / units.toNat) g := by
  refine ⟨?_, ?_, ?_, ?_⟩
  · intro h
    rcases Outcome.bind_eq_error_iff.mp h with hplan | ⟨plan, hplan, -⟩
    · exact sweepPlan_ne_overflow hplan
    · cases (sweepStarts_of_plan hplan).symm.trans h
  · rintro rfl
    rfl
  · intro plan hplan p hp
    obtain ⟨-, -, hvalid, hplane, hblocks, -, hreach⟩ := of_sweepPlan_eq_ok hplan
    rw [hblocks] at hp
    have hfits := g.fits_of_validate hvalid
    exact ⟨sweepPartials_lt hfits hreach hp, sweepStart_yields hfits hplane hreach hp⟩
  · intro starts h
    obtain ⟨plan, hplan, -⟩ := Outcome.bind_eq_ok_iff.mp h
    obtain ⟨-, -, -, -, -, hfew, hreach⟩ := of_sweepPlan_eq_ok hplan
    obtain rfl := Except.ok.inj ((sweepStarts_of_plan hplan).symm.trans h)
    rw [List.length_map, List.map_map, ← UInt64.toNat_div, loopStarts_eq]
    refine ⟨hfew, List.map_congr_left fun p hp => ?_⟩
    exact UInt64.toNat_ofNat_of_lt' (Nat.lt_of_le_of_lt (exactStart_le_sweepReach hp) hreach)

/-- The sub-tiles of this tiling lie nowhere apart, so two units start three times at the same four
words; the rows before each of them are counted all the same. -/
theorem sweepStarts_exact_noSubtiles :
    icWiseSecondHalf.sweepStarts 2 noSubtiles = .ok [0, 1, 16, 17, 0, 1, 16, 17, 0, 1, 16, 17] ∧
    icWiseSecondHalf.loopStarts 2 noSubtiles = [0, 1, 16, 17, 0, 1, 16, 17, 0, 1, 16, 17] ∧
    icWiseSecondHalf.sweepPartials noSubtiles (2, 1, 1) = [16, 8, 0, 16, 17] ∧
    ∀ n ∈ icWiseSecondHalf.sweepPartials noSubtiles (2, 1, 1), n < UInt64.size := by
  have hstarts : icWiseSecondHalf.sweepStarts 2 noSubtiles =
    .ok [0, 1, 16, 17, 0, 1, 16, 17, 0, 1, 16, 17] := rfl
  obtain ⟨-, -, hpartials, hexact⟩ := sweepStarts_exact icWiseSecondHalf 2 noSubtiles
  obtain ⟨-, hloop⟩ := hexact _ hstarts
  refine ⟨hstarts, hloop.symm, rfl, ?_⟩
  exact (hpartials { plane := 16, blocks := 2 } rfl (2, 1, 1) (by decide)).1

end StageVariant

end MemoryReplay
