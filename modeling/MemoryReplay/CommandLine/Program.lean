import MemoryReplay.CommandLine.Invocation
import MemoryReplay.Config.Prepare
import MemoryReplay.FileStore.Stored
import MemoryReplay.Replay.Statistics

/-!
# The program

What the commands do with the files around them, and what they print.

- `Result`: what is printed, and how the program ends.
- `Program.replayTrace`: one replay with its log in files.
- `Program.sweep`: the replays of a sweep and their means.
- `Program.execute`: the program for a command line.
-/

namespace MemoryReplay.CommandLine

/-- How the program ends. -/
inductive Ending where
  /-- All went well. -/
  | success
  /-- An error is told. -/
  | failure (e : RunError)
  /-- The command line does not fit. -/
  | misuse
  /-- A number left 64 bits. -/
  | overflow
  deriving Repr, DecidableEq

/-- The exit status. -/
def Ending.status : Ending → Nat
  | success => 0
  | failure _ => 1
  | misuse => 2
  | overflow => 101

/-- What the program prints, and how it ends. -/
structure Result where
  output : String
  ending : Ending

namespace Result

/-- Output, and the end that a fault makes. -/
def ofFault (output : String) : Fault RunError → Result
  | .reported e => ⟨output, .failure e⟩
  | .overflow => ⟨output, .overflow⟩

end Result

namespace Program

variable {m : Type → Type} [Monad m] [FileStore m]

/-- The configuration file that is read if none is named. -/
def defaultConfig : String := "configs/hbm2.json"

/-- The configuration of a path. Without one, the one at the usual place, or else the defaults. -/
def loadConfig (path : Option String) : m (Except ConfigError Config) := do
  match path with
  | some path => Config.load path
  | none =>
    if ← FileStore.pathExists defaultConfig then Config.load defaultConfig
    else return .ok {}

/-- The requests that a configuration asks for. The trace file is read only if it is needed. -/
def loadTrace (c : Config) : m (Outcome RunError (List Request)) := do
  match c.workload with
  | .file => return c.trace (← TraceFile.load c.general.tracePath)
  | _ => return c.trace (.ok [])

/-- The configuration with the settings of a command line. -/
def override (o : RunOptions) (c : Config) : Config :=
  { c with
    general := {
      tracePath := o.trace.getD c.general.tracePath
      outputDir := o.output.getD c.general.outputDir
      verbosity := o.verbosity.getD c.general.verbosity }
    strategy := o.strategy.getD c.strategy }

/-- A memory and what is told of it. -/
def buildMemory (c : MemoryConfig) : Checked (QueuedMemory Service × String) := do
  let memory ← c.build
  return (memory, ← memory.bus.banner)

/-- What is told before a replay. -/
def heading (c : Config) (banner : String) (requests : Nat) : String :=
  banner ++ "\n" ++ s!"[*] Trace: {requests} transactions  Strategy: {c.strategy.name}  "
    ++ s!"Output: {c.general.outputDir}\n"

/-- What is told after a replay: the requests if they are to be listed, and the statistics. -/
def summary (o : RunOptions) (report : RunReport) : Checked String := do
  let statistics ← RunStatistics.ofReport report
  let listing := if o.listing then report.listing ++ "\n" else ""
  return "\n" ++ listing ++ statistics.render o.sections ++ "\n" ++ report.memoryStatistics ++ "\n"

/-- One replay of a trace on a memory, with its log in files. The log is kept also when the replay
does not come to its end. -/
def replayTrace (o : RunOptions) (c : Config) (trace : List Request)
    (memory : QueuedMemory Service) (told : String) : m Result := do
  match ← EventLog.openFiles c.general.outputDir with
  | .error e => return ⟨told, .failure (.sim (.log e))⟩
  | .ok () =>
    let log : EventLog Transcript := { device := {}, verbosity := c.general.verbosity }
    let (result, _, log) := replay c.strategy trace memory log
    let told := told ++ log.device.text .console
    match ← EventLog.storeFiles c.general.outputDir log, result with
    | _, .error .overflow => return ⟨told, .overflow⟩
    | _, .error (.reported e) => return ⟨told, .failure (.sim e)⟩
    | .error e, .ok _ => return ⟨told, .failure (.sim (.log e))⟩
    | .ok (), .ok report =>
      match summary o report with
      | some text => return ⟨told ++ text, .success⟩
      | none => return ⟨told, .overflow⟩

/-- The command that replays a trace. -/
def run (o : RunOptions) : m Result := do
  match ← loadConfig o.config with
  | .error e => return ⟨"", .failure (.config e)⟩
  | .ok c =>
    let c := override o c
    match ← loadTrace c with
    | .error fault => return .ofFault "" fault
    | .ok trace =>
      match buildMemory c.memory with
      | none => return ⟨"", .overflow⟩
      | some (memory, banner) => replayTrace o c trace memory (heading c banner trace.length)

/-- The size of the elements of generated traces, in bytes. -/
def generatedElementSize : UInt64 := 32

/-- The command that writes a trace file. -/
def generate (o : GenerateOptions) : m Result := do
  match Pattern.indexedStride o.startIndex o.strideExp o.count generatedElementSize o.direction with
  | .error (.reported e) => return ⟨"", .failure (.config (.parameter e))⟩
  | .error .overflow => return ⟨"", .overflow⟩
  | .ok trace =>
    match ← TraceFile.store o.out trace with
    | .error e => return ⟨"", .failure (.trace e)⟩
    | .ok () => return ⟨s!"[*] Wrote {trace.length} requests to {o.out}\n", .success⟩

/-- One replay of a sweep without a log: its cycles and its mean latency. -/
def sweepReplay (variant : StageVariant) (geometry : StageGeometry)
    (permutation : Option BitPermutation) (c : Config) (start : UInt64) :
    Outcome RunError (Nat × Float) := do
  let raw ← (variant.generate start geometry).mapReported fun e => .config (.parameter e)
  let trace := match permutation with
    | some p => p.applyAll raw
    | none => raw
  let memory ← c.memory.build
  let report ← (replay c.strategy trace memory Silence.mk).1.mapReported .sim
  return (report.cycles, ← report.averageLatency)

/-- The replays of a sweep one after the other: the sum of their cycles and that of their mean
latencies. -/
def sweepTotals (replayFrom : UInt64 → Outcome RunError (Nat × Float)) :
    Nat × Float → List UInt64 → Outcome RunError (Nat × Float)
  | totals, [] => .ok totals
  | (cycles, latency), start :: rest => do
    let (moreCycles, moreLatency) ← replayFrom start
    let cycles ← Word.fits (cycles + moreCycles)
    sweepTotals replayFrom (cycles, latency + moreLatency) rest

/-- The name of a stage half in the report of a sweep. -/
def sweepName : StageVariant → String
  | .icWiseFirstHalf => "IcWiseFirstHalf"
  | .icWiseSecondHalf => "IcWiseSecondHalf"
  | .irWiseFirstHalf => "IrWiseFirstHalf"
  | .irWiseSecondHalf => "IrWiseSecondHalf"

/-- What is told of a sweep. -/
def sweepSummary (o : SweepOptions) (runs : Nat) (cycles : Nat) (latency : Float) : String :=
  let n := RunReport.toFloat (max runs 1)
  s!"[*] Sweep {sweepName o.variant}: {runs} runs, butterfly units {o.butterflyUnits}\n"
    ++ "    mean cycles        " ++ Decimal.render 2 (RunReport.toFloat cycles / n) ++ "\n"
    ++ "    mean latency       " ++ Decimal.render 2 (latency / n) ++ " cycles\n"

/-- All replays of a sweep with a configuration: how many there are, and their totals. -/
def sweepAll (o : SweepOptions) (c : Config) : Outcome RunError (Nat × Nat × Float) := do
  let geometry := c.workload.stageGeometry?.getD {}
  let permutation ← Outcome.mapReported RunError.config (Outcome.ofExcept c.mapping.permutation)
  let starts ← (match o.limit with
    | some n => o.variant.firstSweepStarts n.toNat o.butterflyUnits geometry
    | none => o.variant.sweepStarts o.butterflyUnits geometry).mapReported
      fun e => .config (.parameter e)
  let totals ← sweepTotals (sweepReplay o.variant geometry permutation c) (0, 0.0) starts
  return (starts.length, totals)

/-- The command that replays a sweep. -/
def sweep (o : SweepOptions) : m Result := do
  match ← loadConfig o.config with
  | .error e => return ⟨"", .failure (.config e)⟩
  | .ok c =>
    match sweepAll o c with
    | .error fault => return .ofFault "" fault
    | .ok (runs, cycles, latency) => return ⟨sweepSummary o runs cycles latency, .success⟩

/-- What is told of the program. -/
def usage : String :=
  "Replays access traces against a memory timing model.\n\n"
    ++ "Commands: run (the default), generate, sweep\n"

/-- The program for a command line. -/
def execute (words : List String) : m Result := do
  match Invocation.parse words with
  | .refused => return ⟨"", .misuse⟩
  | .question => return ⟨usage, .success⟩
  | .accepted (.run o) => run o
  | .accepted (.generate o) => generate o
  | .accepted (.sweep o) => sweep o

end Program

end MemoryReplay.CommandLine
