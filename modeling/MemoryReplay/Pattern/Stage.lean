import MemoryReplay.Pattern.Columnwise

/-!
# Patterns of a blocked transform

The reads that one stage of a blocked number-theoretic transform makes, with its data tiled over
the channels. The IC-wise stages walk across channels, the IR-wise stages walk sub-tiles inside a
row.

- `StageGeometry`: the tiling constants, with `StageGeometry.validate`.
- `StageVariant`: the four stage halves, with the largest address of each
  (`StageVariant.lastAddress`) and its trace (`StageVariant.generate`).
- `StageVariant.positions`, `StageVariant.addressAt`: a stage's loop and the formula in it.
- `StageVariant.requestCount`: how many requests that makes.
-/

namespace MemoryReplay

/-- Tiling constants of the transform. -/
structure StageGeometry where
  /-- Channels the tile is spread across. -/
  channels : UInt64 := 16
  /-- Outer iterations of a stage. -/
  iterations : UInt64 := 32
  /-- Elements of a tile row. -/
  rowElements : UInt64 := 512
  /-- Sub-tiles of a row. -/
  subtiles : UInt64 := 16
  /-- Words between the slices of two channels. -/
  channelSpan : UInt64 := 134217728
  /-- Shift from a word's index to its byte address. -/
  wordShift : UInt32 := 5
  /-- Words between two inner rows of the IR-wise sweeps. -/
  irRowPitch : UInt64 := 29
  deriving Repr, DecidableEq

/-- The four stage halves. -/
inductive StageVariant where
  /-- IC-wise, stages 0 to 4: for every iteration, all channels. -/
  | icWiseFirstHalf
  /-- IC-wise, stages 5 to 8: for every channel, all iterations. -/
  | icWiseSecondHalf
  /-- IR-wise, stages 0 to 4: neighbouring sub-tiles. -/
  | irWiseFirstHalf
  /-- IR-wise, stages 5 to 8: sub-tiles as far apart as there are sub-tiles. -/
  | irWiseSecondHalf
  deriving Repr, DecidableEq

namespace StageVariant

open Pattern

/-- Every stage half, in stage order. -/
def all : List StageVariant :=
  [icWiseFirstHalf, icWiseSecondHalf, irWiseFirstHalf, irWiseSecondHalf]

/-- The name of a stage half in a configuration. -/
def name : StageVariant → String
  | icWiseFirstHalf => "ic_wise_first_half"
  | icWiseSecondHalf => "ic_wise_second_half"
  | irWiseFirstHalf => "ir_wise_first_half"
  | irWiseSecondHalf => "ir_wise_second_half"

/-- The stage half of a name. -/
def ofName? (name : String) : Option StageVariant :=
  all.find? (·.name == name)

/-- The largest address of an IC-wise stage, its iterations being `step` words apart. -/
def lastIcAddress (start : UInt64) (g : StageGeometry) (step : Checked UInt64) :
    Except ParameterError UInt64 := do
  let channelBase ← Parameter.exact "channel_span" (Word.mul? (lastIndex g.channels) g.channelSpan)
  let offset ← Parameter.exact "iterations" do
    Word.mul? (lastIndex g.iterations) (← step)
  let word ← Parameter.exact "start" do
    Word.add? (← Word.add? channelBase start) offset
  Parameter.exact "word_shift" (Word.scale? word g.wordShift.toNat)

/-- The largest address that a stage reads from `start` on, or the parameter to blame if it does
not fit. -/
def lastAddress (variant : StageVariant) (start : UInt64) (g : StageGeometry) :
    Except ParameterError UInt64 :=
  match variant with
  | icWiseFirstHalf => lastIcAddress start g (Word.mul? g.rowElements g.subtiles)
  | icWiseSecondHalf => lastIcAddress start g (some g.rowElements)
  | irWiseFirstHalf => Parameter.exact "start" (Word.add? start (lastIndex g.subtiles))
  | irWiseSecondHalf => Parameter.exact "start" do
    Word.add? start (← Word.mul? (lastIndex g.iterations) g.subtiles)

end StageVariant

namespace StageGeometry

/-- Words between two tile planes. -/
def planeSpan (g : StageGeometry) : Checked UInt64 :=
  Word.mul? g.rowElements g.rowElements

/-- Refuses tilings whose addresses leave 64 bits, or whose patterns have too many requests. -/
def validate (g : StageGeometry) : Except ParameterError Unit := do
  if 64 ≤ g.wordShift.toNat then
    throw ⟨"word_shift", .shiftTooWide g.wordShift⟩
  let _ ← Parameter.exact "row_elements" g.planeSpan
  let _ ← Parameter.requestCount "iterations" (Word.mul? g.iterations g.channels)
  let _ ← Parameter.requestCount "subtiles" (some g.subtiles)
  for variant in StageVariant.all do
    let _ ← variant.lastAddress 0 g

end StageGeometry

namespace StageVariant

open Pattern

/-- Refuses a start from which the stage leaves 64 bits. -/
def check (variant : StageVariant) (start : UInt64) (g : StageGeometry) :
    Except ParameterError Unit := do
  g.validate
  let _ ← variant.lastAddress start g

/-- The index pairs of a stage's loop: iteration and channel for the IC-wise halves, zero and
sub-tile for the IR-wise ones. -/
def positions (variant : StageVariant) (g : StageGeometry) : List (Nat × Nat) :=
  match variant with
  | icWiseFirstHalf => grid g.iterations.toNat g.channels.toNat
  | icWiseSecondHalf => (grid g.channels.toNat g.iterations.toNat).map Prod.swap
  | irWiseFirstHalf => grid 1 g.subtiles.toNat
  | irWiseSecondHalf => grid 1 g.iterations.toNat

/-- Number of requests of a stage. -/
def requestCount (variant : StageVariant) (g : StageGeometry) : Nat :=
  match variant with
  | icWiseFirstHalf | icWiseSecondHalf => g.iterations.toNat * g.channels.toNat
  | irWiseFirstHalf => g.subtiles.toNat
  | irWiseSecondHalf => g.iterations.toNat

/-- Most requests that can be kept together: a request takes 32 bytes, and all of them less than
half of the address space. -/
def maxKept : Nat := (1 <<< 58) - 1

/-- The byte address of the word `offset` words after `start` in the slice of a channel. -/
def icAddress (start : UInt64) (g : StageGeometry) (channel : Nat) (offset : Checked UInt64) :
    Checked UInt64 := do
  let base ← Word.mul? (← Word.ofNat? channel) g.channelSpan
  let word ← Word.add? base (← Word.add? start (← offset))
  Word.shiftLeft? word g.wordShift.toNat

/-- The address a stage reads at a position of its loop. -/
def addressAt (variant : StageVariant) (start : UInt64) (g : StageGeometry) :
    Nat × Nat → Checked UInt64
  | (i, j) =>
    match variant with
    | icWiseFirstHalf => icAddress start g j do
      Word.mul? (← Word.mul? (← Word.ofNat? i) g.rowElements) g.subtiles
    | icWiseSecondHalf => icAddress start g j do
      Word.mul? (← Word.ofNat? i) g.rowElements
    | irWiseFirstHalf => do
      Word.add? start (← Word.ofNat? j)
    | irWiseSecondHalf => do
      Word.add? start (← Word.mul? (← Word.ofNat? j) g.subtiles)

/-- The reads of a stage, in the order of its loop. -/
def generate (variant : StageVariant) (start : UInt64) (g : StageGeometry) :
    Outcome ParameterError (List Request) := do
  variant.check start g
  if variant.requestCount g ≤ maxKept then
    Outcome.ofChecked (along (variant.positions g) (variant.addressAt start g) .read)
  else
    throw .overflow

end StageVariant

end MemoryReplay
