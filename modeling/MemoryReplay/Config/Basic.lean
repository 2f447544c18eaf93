import MemoryReplay.Address.Preset
import MemoryReplay.Config.Workload
import MemoryReplay.Distribution.Strategy
import MemoryReplay.EventLog.Logger
import MemoryReplay.Memory.Config

/-!
# Configurations

Everything that lays down a run: paths and console, the mapping of addresses, the order inside
the buckets, the workload and the memory.

- `Config`: a configuration, with defaults for everything.
- `ConfigError`: why there is none.
- `Mapping.permutation`: the permutation that a mapping describes.
- `Config.validate`: the constraints that no single value shows.
-/

namespace MemoryReplay

/-- Why there is no configuration. -/
inductive ConfigError where
  /-- The table of the mapping is no permutation. -/
  | permutation (e : PermutationError)
  /-- The mapping names a preset and has a table as well. -/
  | ambiguousMapping (preset : Preset)
  /-- A parameter is out of its domain. -/
  | parameter (e : ParameterError)
  /-- The file was not read. -/
  | device (path : String) (e : DeviceError)
  /-- The text is no configuration. -/
  | text (problem : JsonText.Problem)
  deriving Repr, DecidableEq

/-- The wording of a configuration error. -/
def ConfigError.message : ConfigError → String
  | permutation e => e.message
  | ambiguousMapping preset =>
    s!"mapping specifies both preset '{preset.name}' and an explicit bit_map"
  | parameter e => e.message
  | device path e => s!"could not read config '{path}': {e.message}"
  | text _ => "could not parse config:"

/-- Paths and console. -/
structure General where
  /-- The trace file of a workload that is read. -/
  tracePath : String := "traces/test.trace"
  /-- The directory of the event log. -/
  outputDir : String := "output"
  /-- The events shown on the console. -/
  verbosity : Verbosity := .none

/-- The mapping of addresses: a preset, a table, or none. -/
structure Mapping where
  preset : Option Preset := none
  table : Option (List Nat) := none

/-- The permutation of a mapping, if there is one. -/
def Mapping.permutation (m : Mapping) : Except ConfigError (Option BitPermutation) :=
  match m.preset, m.table with
  | some preset, some _ => .error (.ambiguousMapping preset)
  | some preset, none => .ok (some preset.permutation)
  | none, some entries =>
    match BitPermutation.ofList? entries with
    | .ok p => .ok (some p)
    | .error e => .error (.permutation e)
  | none, none => .ok none

/-- A configuration. -/
structure Config where
  general : General := {}
  mapping : Mapping := {}
  strategy : Strategy := .roundRobin
  workload : Workload := .file
  memory : MemoryConfig := {}

namespace Config

/-- Refuses what cannot be run: first the mapping, then the workload, then the memory. -/
def validate (c : Config) : Except ConfigError Unit := do
  let _ ← c.mapping.permutation
  c.workload.validate.mapError .parameter
  c.memory.validate.mapError .parameter

end Config

end MemoryReplay
