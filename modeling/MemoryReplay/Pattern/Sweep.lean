import MemoryReplay.Pattern.Stage

/-!
# Sweeps over a stage

A stage pattern covers one block; a sweep is the list of start words that covers the whole tile,
one call of the stage for each. Several butterfly units share the work, which thins the sweep out.

- `Pattern.box`: the loop of a sweep, as the list of its positions.
- `StageVariant.sweepStart`: the start word at a position.
- `StageVariant.sweepPlan`: the checks before a sweep.
- `StageVariant.sweepStarts`: the start words, in order.
- `StageVariant.firstSweepStarts`: as many of them as are needed.
-/

namespace MemoryReplay

namespace Pattern

/-- The triples of indices below three bounds, the last index running fastest. -/
def box (a b c : Nat) : List (Nat × Nat × Nat) :=
  (List.range a).flatMap fun i => (grid b c).map fun p => (i, p)

/-- The first `count` triples of a box, found without making all of them. -/
def boxFirst (count a b c : Nat) : List (Nat × Nat × Nat) :=
  (box (min a (count / (b * c) + 1)) b c).take count

theorem length_grid (b c : Nat) : (grid b c).length = b * c := by
  simp only [grid, List.length_flatMap, List.length_map, List.length_range, List.map_const',
    List.sum_replicate_nat]

theorem length_box (a b c : Nat) : (box a b c).length = a * (b * c) := by
  simp only [box, List.length_flatMap, List.length_map, length_grid, List.length_range,
    List.map_const', List.sum_replicate_nat]

theorem box_add (a k b c : Nat) :
    ∃ rest, box (a + k) b c = box a b c ++ rest := by
  refine ⟨((List.range k).map (a + ·)).flatMap fun i => (grid b c).map fun p => (i, p), ?_⟩
  rw [box, box, ← List.flatMap_append, List.range_add]

theorem boxFirst_eq (count a b c : Nat) : boxFirst count a b c = (box a b c).take count := by
  unfold boxFirst
  rcases Nat.le_total a (count / (b * c) + 1) with h | h
  · rw [Nat.min_eq_left h]
  · obtain ⟨rest, e⟩ := box_add (count / (b * c) + 1) (a - (count / (b * c) + 1)) b c
    rw [Nat.add_sub_cancel' h] at e
    rw [Nat.min_eq_right h, e, List.take_append]
    rcases Nat.eq_zero_or_pos (b * c) with zero | pos
    · have all : (box a b c).length = 0 := by rw [length_box, zero, Nat.mul_zero]
      rw [e, List.length_append] at all
      have : rest = [] := List.eq_nil_of_length_eq_zero (by omega)
      simp [this]
    · have reach : count ≤ (count / (b * c) + 1) * (b * c) := by
        have := Nat.lt_mul_div_succ count pos
        rw [Nat.mul_comm]
        omega
      rw [length_box, Nat.sub_eq_zero_of_le reach]
      simp

end Pattern

namespace StageVariant

open Pattern

/-- The bounds of a sweep's loop: sub-tile, outer index and inner index. A second half and an
IR-wise sweep have only as many blocks as the butterfly units leave. -/
def sweepBounds (variant : StageVariant) (blocks : UInt64) (g : StageGeometry) : Nat × Nat × Nat :=
  match variant with
  | icWiseFirstHalf => (g.subtiles.toNat, g.iterations.toNat, g.rowElements.toNat)
  | icWiseSecondHalf => (g.iterations.toNat, blocks.toNat, blocks.toNat)
  | irWiseFirstHalf | irWiseSecondHalf => (1, blocks.toNat, g.rowElements.toNat)

/-- The start word at a position of a sweep's loop, the planes being `plane` words apart. -/
def sweepStart (variant : StageVariant) (plane : UInt64) (g : StageGeometry) :
    Nat × Nat × Nat → Checked UInt64
  | (subtile, outer, inner) => do
    let base ← Word.mul? (← Word.ofNat? outer) plane
    match variant with
    | icWiseFirstHalf =>
      let row ← Word.add? base (← Word.mul? (← Word.ofNat? subtile) g.rowElements)
      Word.add? row (← Word.ofNat? inner)
    | icWiseSecondHalf =>
      let offset ← Word.mul? (← Word.mul? (← Word.ofNat? subtile) g.rowElements) g.subtiles
      Word.add? (← Word.add? base offset) (← Word.ofNat? inner)
    | irWiseFirstHalf | irWiseSecondHalf =>
      Word.add? base (← Word.mul? (← Word.ofNat? inner) g.irRowPitch)

/-- Number of start words of a sweep. -/
def sweepCount (variant : StageVariant) (blocks : UInt64) (g : StageGeometry) : Checked UInt64 :=
  match variant with
  | icWiseFirstHalf => do Word.mul? (← Word.mul? g.subtiles g.iterations) g.rowElements
  | icWiseSecondHalf => do Word.mul? (← Word.mul? g.iterations blocks) blocks
  | irWiseFirstHalf | irWiseSecondHalf => Word.mul? blocks g.rowElements

/-- The largest start word of a sweep. -/
def sweepEnd (variant : StageVariant) (plane blocks : UInt64) (g : StageGeometry) :
    Checked UInt64 :=
  match variant with
  | icWiseFirstHalf => do
    let outer ← Word.mul? (lastIndex g.iterations) plane
    let subtile ← Word.mul? (lastIndex g.subtiles) g.rowElements
    Word.add? (← Word.add? outer subtile) (lastIndex g.rowElements)
  | icWiseSecondHalf => do
    let outer ← Word.mul? (lastIndex blocks) plane
    let subtile ← Word.mul? (lastIndex g.iterations) (← Word.mul? g.rowElements g.subtiles)
    Word.add? (← Word.add? outer subtile) (lastIndex blocks)
  | irWiseFirstHalf | irWiseSecondHalf => do
    let outer ← Word.mul? (lastIndex blocks) plane
    let inner ← Word.mul? (lastIndex g.rowElements) g.irRowPitch
    Word.add? outer inner

/-- What a sweep is made from once it has been checked. -/
structure SweepPlan where
  /-- Words between two planes. -/
  plane : UInt64
  /-- Blocks that each butterfly unit leaves. -/
  blocks : UInt64
  deriving Repr, DecidableEq

/-- Checks a sweep: the number of butterfly units, the tiling, the number of start words and the
largest of them. -/
def sweepPlan (variant : StageVariant) (butterflyUnits : UInt64) (g : StageGeometry) :
    Outcome ParameterError SweepPlan := do
  if butterflyUnits = 0 ∨ g.rowElements < butterflyUnits then
    Outcome.report ⟨"butterfly_units", .outsideRange g.rowElements⟩
  g.validate
  let plane ← g.planeSpan
  let blocks := g.rowElements / butterflyUnits
  let _ ← Parameter.requestCount "butterfly_units" (variant.sweepCount blocks g)
  let _ ← Parameter.exact "geometry" (variant.sweepEnd plane blocks g)
  return { plane, blocks }

/-- The start words that cover a stage with `butterflyUnits` units. -/
def sweepStarts (variant : StageVariant) (butterflyUnits : UInt64) (g : StageGeometry) :
    Outcome ParameterError (List UInt64) := do
  let plan ← variant.sweepPlan butterflyUnits g
  let (a, b, c) := variant.sweepBounds plan.blocks g
  Outcome.ofChecked ((box a b c).mapM (variant.sweepStart plan.plane g))

/-- The first `count` start words. -/
def firstSweepStarts (variant : StageVariant) (count : Nat) (butterflyUnits : UInt64)
    (g : StageGeometry) : Outcome ParameterError (List UInt64) := do
  let plan ← variant.sweepPlan butterflyUnits g
  let (a, b, c) := variant.sweepBounds plan.blocks g
  Outcome.ofChecked ((boxFirst count a b c).mapM (variant.sweepStart plan.plane g))

end StageVariant

end MemoryReplay
