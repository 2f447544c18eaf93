import MemoryReplay.Proofs.Pattern.Stage

/-!
# Sweeps in exact numbers

A sweep is checked like a stage, at the last position of its loop. So its start words are exact, and
the last of them is the largest. Whether the stage fits from there is not part of the check.

- `StageVariant.exactStart`: the formula of a sweep in exact numbers, and
  `StageVariant.sweepReach`, its value at the last position.
- `of_sweepPlan_eq_ok`: what the check of a sweep has found. `sweepStarts_of_plan`,
  `of_sweepStarts_eq_ok`: the start words of a sweep that has passed it. `firstSweepStarts_eq`: the
  first ones of them.
-/

namespace MemoryReplay

namespace Pattern

theorem mem_box {a b c : Nat} {p : Nat × Nat × Nat} :
    p ∈ box a b c ↔ p.1 < a ∧ p.2.1 < b ∧ p.2.2 < c := by
  obtain ⟨i, j, k⟩ := p
  simp only [box, List.mem_flatMap, List.mem_map, List.mem_range, mem_grid, Prod.mk.injEq]
  constructor
  · rintro ⟨_, hi, _, hjk, rfl, rfl⟩
    exact ⟨hi, hjk⟩
  · rintro ⟨hi, hjk⟩
    exact ⟨i, hi, (j, k), hjk, rfl, rfl⟩

end Pattern

namespace StageVariant

open Pattern

variable {variant : StageVariant} {g : StageGeometry} {units plane blocks : UInt64}
  {p q : Nat × Nat × Nat}

/-! ### The formula -/

/-- The start word that a sweep's formula stands for at a position of its loop. -/
def exactStart (variant : StageVariant) (g : StageGeometry) : Nat × Nat × Nat → Nat
  | (subtile, outer, inner) =>
    let row := g.rowElements.toNat
    match variant with
    | icWiseFirstHalf => outer * (row * row) + subtile * row + inner
    | icWiseSecondHalf => outer * (row * row) + subtile * row * g.subtiles.toNat + inner
    | irWiseFirstHalf | irWiseSecondHalf => outer * (row * row) + inner * g.irRowPitch.toNat

/-- The positions of a sweep's loop. -/
def sweepPositions (variant : StageVariant) (blocks : UInt64) (g : StageGeometry) :
    List (Nat × Nat × Nat) :=
  let (a, b, c) := variant.sweepBounds blocks g
  box a b c

/-- The last position of a sweep's loop; the first one for an index without a value. -/
def lastSweepPosition (variant : StageVariant) (blocks : UInt64) (g : StageGeometry) :
    Nat × Nat × Nat :=
  let (a, b, c) := variant.sweepBounds blocks g
  (a - 1, b - 1, c - 1)

/-- The start word of the last position. -/
def sweepReach (variant : StageVariant) (blocks : UInt64) (g : StageGeometry) : Nat :=
  variant.exactStart g (variant.lastSweepPosition blocks g)

/-- The formula grows with all three indices. -/
theorem exactStart_mono (h₁ : p.1 ≤ q.1) (h₂ : p.2.1 ≤ q.2.1) (h₃ : p.2.2 ≤ q.2.2) :
    variant.exactStart g p ≤ variant.exactStart g q := by
  obtain ⟨i, j, k⟩ := p
  obtain ⟨i', j', k'⟩ := q
  cases variant <;> dsimp only [exactStart] at h₁ h₂ h₃ ⊢ <;> gcongr

theorem exactStart_le_sweepReach (h : p ∈ variant.sweepPositions blocks g) :
    variant.exactStart g p ≤ variant.sweepReach blocks g := by
  obtain ⟨h₁, h₂, h₃⟩ := mem_box.mp h
  exact exactStart_mono (Nat.le_sub_one_of_lt h₁) (Nat.le_sub_one_of_lt h₂) (Nat.le_sub_one_of_lt h₃)

/-- The last position belongs to a loop that makes anything. -/
theorem lastSweepPosition_mem (h : variant.sweepPositions blocks g ≠ []) :
    variant.lastSweepPosition blocks g ∈ variant.sweepPositions blocks g := by
  obtain ⟨p, hp⟩ := List.exists_mem_of_ne_nil _ h
  obtain ⟨h₁, h₂, h₃⟩ := mem_box.mp hp
  exact mem_box.mpr ⟨Nat.sub_one_lt_of_lt h₁, Nat.sub_one_lt_of_lt h₂, Nat.sub_one_lt_of_lt h₃⟩

/-! ### The check of a sweep -/

/-- The largest start word is that of the last position. -/
theorem of_sweepEnd_eq_some {w : UInt64}
    (hplane : plane.toNat = g.rowElements.toNat * g.rowElements.toNat)
    (h : variant.sweepEnd plane blocks g = some w) : w.toNat = variant.sweepReach blocks g := by
  unfold sweepEnd at h
  cases variant with
  | icWiseFirstHalf =>
    obtain ⟨outer, houter, h⟩ := Option.bind_eq_some_iff.mp h
    obtain ⟨subtile, hsubtile, h⟩ := Option.bind_eq_some_iff.mp h
    rw [Word.add?_bind_add?, Word.ofNat?_eq_some_iff, Word.mul?_eq_some_iff.mp houter,
      Word.mul?_eq_some_iff.mp hsubtile, toNat_lastIndex, toNat_lastIndex, toNat_lastIndex, hplane] at h
    exact h
  | icWiseSecondHalf =>
    obtain ⟨outer, houter, h⟩ := Option.bind_eq_some_iff.mp h
    obtain ⟨step, hstep, h⟩ := Option.bind_eq_some_iff.mp h
    obtain ⟨subtile, hsubtile, h⟩ := Option.bind_eq_some_iff.mp h
    rw [Word.add?_bind_add?, Word.ofNat?_eq_some_iff, Word.mul?_eq_some_iff.mp houter,
      Word.mul?_eq_some_iff.mp hsubtile, Word.mul?_eq_some_iff.mp hstep, toNat_lastIndex,
      toNat_lastIndex, hplane, ← Nat.mul_assoc _ g.rowElements.toNat g.subtiles.toNat] at h
    exact h
  | irWiseFirstHalf | irWiseSecondHalf =>
    obtain ⟨outer, houter, h⟩ := Option.bind_eq_some_iff.mp h
    obtain ⟨inner, hinner, h⟩ := Option.bind_eq_some_iff.mp h
    rw [Word.add?_eq_some_iff, Word.mul?_eq_some_iff.mp houter, Word.mul?_eq_some_iff.mp hinner,
      toNat_lastIndex, toNat_lastIndex, hplane] at h
    exact h

/-- There are as many start words as positions. -/
theorem of_sweepCount_eq_some {w : UInt64} (h : variant.sweepCount blocks g = some w) :
    w.toNat = (variant.sweepPositions blocks g).length := by
  unfold sweepCount at h
  cases variant with
  | icWiseFirstHalf | icWiseSecondHalf =>
    obtain ⟨outer, houter, h⟩ := Option.bind_eq_some_iff.mp h
    rw [Word.mul?_eq_some_iff.mp h, Word.mul?_eq_some_iff.mp houter, Nat.mul_assoc]
    exact (length_box ..).symm
  | irWiseFirstHalf | irWiseSecondHalf =>
    rw [Word.mul?_eq_some_iff.mp h, ← Nat.one_mul (_ * _)]
    exact (length_box ..).symm

/-- What the check of a sweep has found. -/
theorem of_sweepPlan_eq_ok {plan : SweepPlan} (h : variant.sweepPlan units g = .ok plan) :
    units ≠ 0 ∧ units ≤ g.rowElements ∧ g.validate = .ok () ∧
      plan.plane.toNat = g.rowElements.toNat * g.rowElements.toNat ∧
      plan.blocks = g.rowElements / units ∧
      (variant.sweepPositions (g.rowElements / units) g).length ≤ maxRequests ∧
      variant.sweepReach (g.rowElements / units) g < UInt64.size := by
  unfold sweepPlan at h
  split at h
  · cases h
  next hunits =>
  obtain ⟨_, hvalid, h⟩ := Outcome.bind_eq_ok_iff.mp h
  obtain ⟨plane, hplane, h⟩ := Outcome.bind_eq_ok_iff.mp h
  obtain ⟨count, hcount, h⟩ := Outcome.bind_eq_ok_iff.mp h
  obtain ⟨last, hlast, h⟩ := Outcome.bind_eq_ok_iff.mp h
  obtain rfl := Except.ok.inj h
  have hplane := Word.mul?_eq_some_iff.mp (Outcome.ofChecked_eq_ok hplane)
  have hlast := Parameter.exact_eq_ok_iff.mp (Outcome.ofExcept_eq_ok hlast)
  obtain ⟨⟨w, hw, rfl⟩, hfew⟩ :=
    Parameter.requestCount_eq_ok_iff.mp (Outcome.ofExcept_eq_ok hcount)
  have hpositive : units ≠ 0 := fun h => hunits (.inl h)
  have hle : units ≤ g.rowElements := UInt64.not_lt.mp fun h => hunits (.inr h)
  refine ⟨hpositive, hle, Outcome.ofExcept_eq_ok hvalid, hplane, rfl, ?_, ?_⟩
  · rwa [← of_sweepCount_eq_some hw]
  · rw [← of_sweepEnd_eq_some hplane hlast]
    exact last.toNat_lt

/-- The start words of a sweep are exact where the largest one fits. -/
theorem sweepStart_yields (hg : g.Fits)
    (hplane : plane.toNat = g.rowElements.toNat * g.rowElements.toNat)
    (hreach : variant.sweepReach blocks g < UInt64.size) (hp : p ∈ variant.sweepPositions blocks g) :
    Word.Yields (variant.sweepStart plane g p) (variant.exactStart g p) := by
  have hfits := Nat.lt_of_le_of_lt (exactStart_le_sweepReach hp) hreach
  obtain ⟨subtile, outer, inner⟩ := p
  obtain ⟨h₁ : subtile < _, h₂ : outer < _, h₃ : inner < _⟩ := mem_box.mp hp
  have houter : outer < UInt64.size := by
    cases variant
    · exact Nat.lt_trans h₂ g.iterations.toNat_lt
    all_goals exact Nat.lt_trans h₂ blocks.toNat_lt
  have hplanes : outer * (g.rowElements.toNat * g.rowElements.toNat) < UInt64.size := by
    refine Nat.lt_of_le_of_lt ?_ hfits
    cases variant <;> dsimp only [exactStart] <;> omega
  unfold sweepStart
  dsimp only
  rw [← bind_assoc]
  refine (Word.yields_multiple houter hplane hplanes).bind fun base hbase => ?_
  cases variant with
  | icWiseFirstHalf =>
    dsimp only [exactStart] at hfits ⊢
    rw [← bind_assoc]
    refine (Word.yields_multiple (Nat.lt_trans h₁ g.subtiles.toNat_lt) rfl (by omega)).bind
      fun rows hrows => ?_
    refine (Word.yields_add? hbase hrows (by omega)).bind fun row hrow => ?_
    refine (Word.yields_ofNat? (by omega)).bind fun k hk => ?_
    exact Word.yields_add? hrow hk hfits
  | icWiseSecondHalf =>
    dsimp only [exactStart] at hfits ⊢
    rw [← bind_assoc]
    refine (rows_yield hg h₁).bind fun rows hrows => ?_
    refine (Word.yields_mul? hrows rfl (by omega)).bind fun offset hoffset => ?_
    refine (Word.yields_add? hbase hoffset (by omega)).bind fun row hrow => ?_
    refine (Word.yields_ofNat? (by omega)).bind fun k hk => ?_
    exact Word.yields_add? hrow hk hfits
  | irWiseFirstHalf | irWiseSecondHalf =>
    dsimp only [exactStart] at hfits ⊢
    rw [← bind_assoc]
    refine (Word.yields_multiple (Nat.lt_trans h₃ g.rowElements.toNat_lt) rfl (by omega)).bind
      fun offset hoffset => ?_
    exact Word.yields_add? hbase hoffset hfits

/-- A sweep that has passed its check has all its start words. -/
theorem sweepStarts_of_plan {plan : SweepPlan} (h : variant.sweepPlan units g = .ok plan) :
    variant.sweepStarts units g = .ok ((variant.sweepPositions (g.rowElements / units) g).map
      fun p => UInt64.ofNat (variant.exactStart g p)) := by
  obtain ⟨-, -, hvalid, hplane, hblocks, -, hreach⟩ := of_sweepPlan_eq_ok h
  have hstarts := Checked.mapM_eq_some fun p hp =>
    (sweepStart_yields (g.fits_of_validate hvalid) hplane hreach hp).eq_some
  unfold sweepStarts
  rw [h]
  show Outcome.ofChecked ((variant.sweepPositions plan.blocks g).mapM _) = _
  rw [hblocks, hstarts]
  rfl

/-- **The start words of a sweep that has passed its check**, in the order of its loop. -/
theorem of_sweepStarts_eq_ok {starts : List UInt64} (h : variant.sweepStarts units g = .ok starts) :
    units ≠ 0 ∧ units ≤ g.rowElements ∧ g.validate = .ok () ∧
      variant.sweepReach (g.rowElements / units) g < UInt64.size ∧
      starts = (variant.sweepPositions (g.rowElements / units) g).map
        fun p => UInt64.ofNat (variant.exactStart g p) := by
  obtain ⟨plan, hplan, -⟩ := Outcome.bind_eq_ok_iff.mp h
  obtain ⟨hpositive, hle, hvalid, -, -, -, hreach⟩ := of_sweepPlan_eq_ok hplan
  refine ⟨hpositive, hle, hvalid, hreach, ?_⟩
  exact Except.ok.inj (h.symm.trans (sweepStarts_of_plan hplan))

/-- The first start words of such a sweep. -/
theorem firstSweepStarts_eq {starts : List UInt64} {n : Nat}
    (h : variant.sweepStarts units g = .ok starts) :
    variant.firstSweepStarts n units g = .ok (starts.take n) := by
  unfold sweepStarts at h
  obtain ⟨plan, hplan, h⟩ := Outcome.bind_eq_ok_iff.mp h
  unfold firstSweepStarts
  rw [hplan]
  show Outcome.ofChecked ((boxFirst ..).mapM _) = _
  rw [boxFirst_eq, Checked.mapM_take (Outcome.ofChecked_eq_ok h)]
  rfl

end StageVariant

end MemoryReplay
