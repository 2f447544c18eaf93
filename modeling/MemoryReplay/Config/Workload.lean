import MemoryReplay.JsonText.Value
import MemoryReplay.Pattern.Sweep

/-!
# Workloads

Where the requests of a replay come from: a trace file, or one of the patterns.

- `Workload`: the choice, with the parameters of the pattern.
- `Workload.validate`, `Workload.synthesize`: the check before a run, and the requests.
- `Workload.read`: a workload from a configuration, tagged by its `kind`.
-/

namespace MemoryReplay

/-- The source of the requests. -/
inductive Workload where
  /-- The trace file of the configuration. -/
  | file
  /-- A sweep in bursts. -/
  | sequential (start numElements elementSize burstSize : UInt64) (direction : Direction)
  /-- A walk down a column. -/
  | columnwise (start numElements stride elementSize burstSize : UInt64) (direction : Direction)
  /-- One word out of every `stride`. -/
  | strided (start stride elements : UInt64) (direction : Direction)
  /-- One half of a stage of a blocked transform. -/
  | stage (variant : StageVariant) (start : UInt64) (geometry : StageGeometry)
  deriving Repr, DecidableEq

namespace Workload

/-- The tiling of a stage. -/
def stageGeometry? : Workload → Option StageGeometry
  | stage _ _ geometry => some geometry
  | _ => none

/-- Refuses a stage that leaves 64 bits. The other patterns are checked when they are made. -/
def validate : Workload → Except ParameterError Unit
  | stage variant start geometry => do
    geometry.validate
    let _ ← variant.lastAddress start geometry
  | _ => .ok ()

/-- The requests of a pattern; none for a trace file. -/
def synthesize : Workload → Outcome ParameterError (Option (List Request))
  | file => .ok none
  | sequential start numElements elementSize burstSize direction =>
    (Pattern.sequential start numElements elementSize burstSize direction).map some
  | columnwise start numElements stride elementSize burstSize direction =>
    (Pattern.columnwise start numElements stride elementSize burstSize direction).map some
  | strided start stride elements direction =>
    (Pattern.strided start stride elements direction).map some
  | stage variant start geometry => (variant.generate start geometry).map some

/-! ## Reading -/

open JsonText

/-- The kinds of workloads. -/
inductive Kind where
  | file
  | sequential
  | columnwise
  | strided
  | stage
  deriving Repr, DecidableEq

/-- The kind of a name. -/
def Kind.ofName? : String → Option Kind
  | "File" => some file
  | "Sequential" => some sequential
  | "Columnwise" => some columnwise
  | "Strided" => some strided
  | "Stage" => some stage
  | _ => none

/-- The parameters of the linear patterns, with their defaults. -/
structure Parameters where
  start : UInt64 := 0
  numElements : UInt64 := 512
  stride : UInt64 := Pattern.columnStride
  elementSize : UInt64 := 32
  burstSize : UInt64 := 64
  isWrite : Bool := false

namespace Parameters

/-- The direction of the requests. -/
def direction (p : Parameters) : Direction := .ofIsWrite p.isWrite

/-- A member that is a whole number. -/
def wordMember (name : String) (put : UInt64 → Parameters → Parameters) :
    Value.Member Parameters :=
  ⟨name, fun p v => v.word?.map fun n => put n p⟩

/-- The first address. -/
def first : Value.Member Parameters := wordMember "start" fun n p => { p with start := n }

/-- The number of elements, under one of its names. -/
def count (name : String) : Value.Member Parameters :=
  wordMember name fun n p => { p with numElements := n }

/-- The distance of the elements. -/
def distance : Value.Member Parameters := wordMember "stride" fun n p => { p with stride := n }

/-- The size of an element. -/
def size : Value.Member Parameters :=
  wordMember "element_size" fun n p => { p with elementSize := n }

/-- The size of a burst. -/
def burst : Value.Member Parameters := wordMember "burst_size" fun n p => { p with burstSize := n }

/-- The direction. -/
def writing : Value.Member Parameters :=
  ⟨"is_write", fun p v => v.bool?.map fun b => { p with isWrite := b }⟩

end Parameters

/-- The members of a tiling. -/
def geometryMembers : List (Value.Member StageGeometry) :=
  [⟨"channels", fun g v => v.word?.map fun n => { g with channels := n }⟩,
   ⟨"iterations", fun g v => v.word?.map fun n => { g with iterations := n }⟩,
   ⟨"row_elements", fun g v => v.word?.map fun n => { g with rowElements := n }⟩,
   ⟨"subtiles", fun g v => v.word?.map fun n => { g with subtiles := n }⟩,
   ⟨"channel_span", fun g v => v.word?.map fun n => { g with channelSpan := n }⟩,
   ⟨"word_shift", fun g v => v.halfWord?.map fun n => { g with wordShift := n }⟩,
   ⟨"ir_row_pitch", fun g v => v.word?.map fun n => { g with irRowPitch := n }⟩]

/-- The parameters of a stage. The stage half has no default. -/
structure StageParameters where
  variant : Option StageVariant := none
  start : UInt64 := 0
  geometry : StageGeometry := {}

/-- The members of a stage. -/
def stageMembers : List (Value.Member StageParameters) :=
  [⟨"variant", fun p v =>
      (v.choice? StageVariant.ofName?).map fun variant => { p with variant := some variant }⟩,
   ⟨"start", fun p v => v.word?.map fun n => { p with start := n }⟩,
   ⟨"geometry", fun p v =>
      (v.record? geometryMembers {}).map fun geometry => { p with geometry }⟩]

/-- The workload of a kind with the given members. -/
def ofValue? (kind : Kind) (v : Value) : Option Workload :=
  match kind with
  | .file => (v.record? [] ()).map fun _ => file
  | .sequential => do
    let p ← v.record? [Parameters.first, Parameters.count "num_elements", Parameters.size,
      Parameters.burst, Parameters.writing] ({} : Parameters)
    return sequential p.start p.numElements p.elementSize p.burstSize p.direction
  | .columnwise => do
    let p ← v.record? [Parameters.first, Parameters.count "num_elements", Parameters.distance,
      Parameters.size, Parameters.burst, Parameters.writing] ({} : Parameters)
    return columnwise p.start p.numElements p.stride p.elementSize p.burstSize p.direction
  | .strided => do
    let p ← v.record? [Parameters.first, Parameters.distance, Parameters.count "elements",
      Parameters.writing] ({} : Parameters)
    return strided p.start p.stride p.numElements p.direction
  | .stage => do
    let p ← v.record? stageMembers {}
    return stage (← p.variant) p.start p.geometry

/-- A workload in which at most `levels` brackets are open at once. It is read to its end before
its members are looked at. -/
def read (levels : Nat) : Reader Workload := do
  let (kind, v) ← Reader.tagged "kind" Kind.ofName? levels
  match ofValue? kind v with
  | some workload => return workload
  | none => Reader.mismatch

/-- The workload that a whole text describes. -/
def ofText (text : String) : Except Problem Workload :=
  (read (Reader.nesting - 1)).run text

end Workload

end MemoryReplay
