import MemoryReplay.CommandLine.Switch
import MemoryReplay.Distribution.Strategy
import MemoryReplay.EventLog.Logger
import MemoryReplay.Pattern.Sweep

/-!
# Invocations

The commands of the program and what can be said with each.

- `RunOptions`, `GenerateOptions`, `SweepOptions`: the settings of the commands.
- `Invocation`: a command with its settings.
- `Invocation.parse`: the invocation that a command line stands for. Without the name of a
  command the words belong to `run`.
-/

namespace MemoryReplay.CommandLine

/-! ## Values -/

/-- The digits of a number. -/
def digits? (cs : List Char) : Option Nat :=
  if cs.isEmpty || !cs.all Char.isDigit then none
  else some (cs.foldl (fun n c => 10 * n + (c.toNat - '0'.toNat)) 0)

/-- A number from zero on; a plus sign may stand in front. -/
def natural? (text : String) : Option Nat :=
  match text.toList with
  | '+' :: cs => digits? cs
  | cs => digits? cs

/-- A number of 64 bits. -/
def word? (text : String) : Option UInt64 :=
  (natural? text).bind Word.ofNat?

/-- A number from zero to a bound, which may be written as a signed number. -/
def bounded? (bound : Nat) (text : String) : Option Nat :=
  let n := match text.toList with
    | '-' :: cs => (digits? cs).bind fun n => if n = 0 then some 0 else none
    | _ => natural? text
  n.bind fun n => if n ≤ bound then some n else none

/-- A path, which is not empty. -/
def path? (text : String) : Option String :=
  if text = "" then none else some text

/-- The thing of a name. -/
def named? {α : Type} (names : List (String × α)) (text : String) : Option α :=
  names.lookup text

/-! ## The commands -/

/-- The settings of a replay; what is missing is taken from the configuration. -/
structure RunOptions where
  verbosity : Option Verbosity := none
  config : Option String := none
  trace : Option String := none
  output : Option String := none
  strategy : Option Strategy := none
  /-- The sections of the statistics that are printed; all of them if none is named. -/
  sections : List String := []
  /-- Whether every request is listed. -/
  listing : Bool := false
  deriving Repr, DecidableEq

/-- The settings of a generated trace. -/
structure GenerateOptions where
  startIndex : UInt64 := 0
  strideExp : UInt32 := 0
  count : UInt64 := 0
  direction : Direction := .read
  out : String := "traces/test.trace"
  deriving Repr, DecidableEq

/-- The settings of a sweep. -/
structure SweepOptions where
  variant : StageVariant := .icWiseFirstHalf
  butterflyUnits : UInt64 := 1
  /-- Most start words that are replayed. -/
  limit : Option UInt64 := none
  config : Option String := none
  deriving Repr, DecidableEq

/-- A command with its settings. -/
inductive Invocation where
  /-- Replays a trace and prints its statistics. -/
  | run (options : RunOptions)
  /-- Writes a trace file. -/
  | generate (options : GenerateOptions)
  /-- Replays every pattern of a sweep and prints the means. -/
  | sweep (options : SweepOptions)
  deriving Repr, DecidableEq

/-- The switch of a configuration. -/
def configSwitch {S : Type} (put : String → S → S) : Switch S :=
  { long := "config", short := some 'c', action := .value fun v s => (path? v).map (put · s) }

/-- The words of a replay. -/
def runGrammar : Grammar RunOptions where
  switches :=
    [{ long := "debug", short := some 'D',
       action := .value fun v o =>
        (Verbosity.ofName? v).map fun x => { o with verbosity := some x } },
     configSwitch fun v o => { o with config := some v },
     { long := "trace", short := some 't',
       action := .value fun v o => (path? v).map fun v => { o with trace := some v } },
     { long := "output", short := some 'o',
       action := .value fun v o => (path? v).map fun v => { o with output := some v } },
     { long := "strategy", short := none,
       action := .value fun v o =>
        (named? (Strategy.all.map fun s => (s.name, s)) v).map fun s =>
          { o with strategy := some s } },
     { long := "stats", short := none, repeatable := true,
       action := .value fun v o => some { o with sections := o.sections ++ v.splitOn "," } },
     { long := "transactions", short := none, action := .flag fun o => { o with listing := true } }]

/-- The words of a generated trace. -/
def generateGrammar : Grammar GenerateOptions where
  switches :=
    [{ long := "out", short := none,
       action := .value fun v o => (path? v).map fun v => { o with out := v } }]
  places :=
    [fun w o => (word? w).map fun n => { o with startIndex := n },
     fun w o => (bounded? (UInt32.size - 1) w).map fun n => { o with strideExp := UInt32.ofNat n },
     fun w o => (word? w).map fun n => { o with count := n },
     fun w o => (bounded? 1 w).map fun n => { o with direction := .ofIsWrite (n == 1) }]

/-- The name of a stage half on a command line. -/
def variantName (v : StageVariant) : String :=
  v.name.map fun c => if c = '_' then '-' else c

/-- The words of a sweep. -/
def sweepGrammar : Grammar SweepOptions where
  switches :=
    [{ long := "butterfly-units", short := some 'B',
       action := .value fun v o => (word? v).map fun n => { o with butterflyUnits := n } },
     { long := "limit", short := none,
       action := .value fun v o => (word? v).map fun n => { o with limit := some n } },
     configSwitch fun v o => { o with config := some v }]
  places :=
    [fun w o =>
      (named? (StageVariant.all.map fun v => (variantName v, v)) w).map fun v =>
        { o with variant := v }]

/-- The verdict on a command line with the settings as a command. -/
def Verdict.map {S T : Type} (f : S → T) : Verdict S → Verdict T
  | accepted s => accepted (f s)
  | question => question
  | refused => refused

/-- The names of the commands. -/
def commandNames : List String := ["run", "generate", "sweep", "help"]

/-- The invocation that a command line stands for. -/
def Invocation.parse : List String → Verdict Invocation
  | "run" :: rest => (runGrammar.parse {} rest).map run
  | "generate" :: rest => (generateGrammar.parse {} rest).map generate
  | "sweep" :: rest => (sweepGrammar.parse {} rest).map sweep
  | ["help"] => .question
  | ["help", name] => if commandNames.contains name then .question else .refused
  | words =>
    ({ runGrammar with questions := [('h', "help"), ('V', "version")] }.parse {} words).map run

end MemoryReplay.CommandLine
