import MemoryReplay.EventLog.Device
import MemoryReplay.Request
import MemoryReplay.Text.Line
import MemoryReplay.TraceFile.Record

/-!
# The event log

One line for every admission and every completion. The first line of a cycle in a stream carries
the cycle as a stamp; the lines after it are indented by as much, so that the events of a cycle
stand together.

- `Verbosity`: which events the console shows as well.
- `EventLog τ`: the log over a device, with the cycle and what each stream has stamped last.
- `EventLog.startCycle`, `EventLog.issued`, `EventLog.returned`, `EventLog.finish`: the events.
- `Observer ω`: whatever is told of the events of a replay; an event log, or nobody.
-/

namespace MemoryReplay

/-- Which events are shown on the console. -/
inductive Verbosity where
  /-- None at all. -/
  | none
  /-- Cycles and admissions. -/
  | issue
  /-- Cycles and completions. -/
  | completion
  /-- Cycles, admissions and completions. -/
  | all
  deriving Repr, DecidableEq

namespace Verbosity

/-- Every verbosity. -/
def levels : List Verbosity := [none, issue, completion, all]

/-- The name of a verbosity in a configuration and on a command line. -/
def name : Verbosity → String
  | none => "none"
  | issue => "issue"
  | completion => "return"
  | all => "all"

/-- The verbosity of a name. -/
def ofName? (name : String) : Option Verbosity :=
  levels.find? (·.name == name)

/-- The name of a verbosity in a summary. -/
def label : Verbosity → String
  | none => "None"
  | issue => "Issue"
  | completion => "Return"
  | all => "All"

/-- Whether admissions are shown. -/
def showsIssue : Verbosity → Bool
  | issue | all => true
  | none | completion => false

/-- Whether completions are shown. -/
def showsCompletion : Verbosity → Bool
  | completion | all => true
  | none | issue => false

/-- Whether cycles are shown. -/
def showsCycle : Verbosity → Bool
  | none => false
  | issue | completion | all => true

end Verbosity

/-- An event log over a device. -/
structure EventLog (τ : Type) where
  device : τ
  verbosity : Verbosity := .none
  /-- Whether there is a console. -/
  hasConsole : Bool := true
  /-- The cycle of the events to come. -/
  cycle : Nat := 0
  /-- The cycle shown last on the console. -/
  shown : Option Nat := none
  /-- The cycle stamped last in the stream of all events. -/
  lastAll : Option Nat := none
  /-- The cycle stamped last in the stream of admissions. -/
  lastIssue : Option Nat := none
  /-- The cycle stamped last in the stream of completions. -/
  lastCompletion : Option Nat := none

namespace EventLog

variable {τ : Type}

/-- The cycle that a stream has stamped last. -/
def lastStamp (log : EventLog τ) : Stream → Option Nat
  | .all => log.lastAll
  | .issue => log.lastIssue
  | .completion => log.lastCompletion

/-- The log after a stream has stamped its cycle. -/
def stamped (log : EventLog τ) : Stream → EventLog τ
  | .all => { log with lastAll := some log.cycle }
  | .issue => { log with lastIssue := some log.cycle }
  | .completion => { log with lastCompletion := some log.cycle }

/-- An action of the device under a log. -/
def onDevice {α : Type} (action : Attempt τ α) : Attempt (EventLog τ) α :=
  fun log =>
    let (result, device) := action log.device
    (result, { log with device })

/-- The stamp of a cycle. -/
def stamp (cycle : Nat) : String := "[+] " ++ Text.padRight 5 (toString cycle)

/-- What stands in place of a stamp. -/
def indentation : String := "        "

/-- Colours of the console. -/
def green : String := "\x1b[32m"

@[inherit_doc green] def blue : String := "\x1b[34m"

@[inherit_doc green] def cyan : String := "\x1b[36m"

@[inherit_doc green] def plain : String := "\x1b[0m"

/-- The direction and the address of an event. -/
def subject (r : Request) : String :=
  "Type: " ++ Text.padRight 15 r.direction.word ++ " | Addr: " ++ Record.addressText r.address

/-- A number of an event. -/
def quantity (name : String) (n : Nat) : String := name ++ ": " ++ Text.padLeft 5 (toString n)

/-- The line of an admission. -/
def issueLine (r : Request) : String := "\t\t[*] (Issue)  " ++ subject r

/-- The line of a completion. -/
def completionLine (r : Request) : String :=
  "\t\t[=] (Return) " ++ subject r ++ " | " ++ quantity "Added" r.issueCycle ++ ", "
    ++ quantity "Done" r.completeCycle ++ ", " ++ quantity "Latency" r.stampedLatency

section

variable [LogDevice τ]

/-- Writes a line to a stream, stamped if the stream has not stamped this cycle last. -/
def emit (stream : Stream) (line : String) : Attempt (EventLog τ) Unit := do
  let log ← get
  if log.lastStamp stream = some log.cycle then
    onDevice (LogDevice.write (.stream stream) indentation)
  else
    onDevice (LogDevice.write (.stream stream) (stamp log.cycle))
    modify (·.stamped stream)
  onDevice (LogDevice.write (.stream stream) (line ++ "\n"))

/-- Shows a line on the console, if there is one. -/
def echo (colour line : String) : Attempt (EventLog τ) Unit := do
  if (← get).hasConsole then
    onDevice (LogDevice.write .console (colour ++ line ++ plain ++ "\n"))

/-- The events to come belong to `cycle`. The console shows the cycle unless it shows it already. -/
def startCycle (cycle : Nat) : Attempt (EventLog τ) Unit := do
  modify ({ · with cycle })
  let log ← get
  if log.verbosity.showsCycle && log.shown ≠ some cycle then
    modify ({ · with shown := some cycle })
    if log.hasConsole then
      onDevice (LogDevice.write .console (cyan ++ stamp cycle ++ plain ++ "\r"))
      onDevice (LogDevice.flush .console)

/-- A request was admitted. -/
def issued (r : Request) : Attempt (EventLog τ) Unit := do
  if (← get).verbosity.showsIssue then echo green (issueLine r)
  emit .all (issueLine r)
  emit .issue (issueLine r)

/-- A request was completed. -/
def returned (r : Request) : Attempt (EventLog τ) Unit := do
  if (← get).verbosity.showsCompletion then echo blue (completionLine r)
  emit .all (completionLine r)
  emit .completion (completionLine r)

/-- Brings everything written so far to its place. -/
def finish : Attempt (EventLog τ) Unit := do
  onDevice (LogDevice.flush (.stream .all))
  onDevice (LogDevice.flush (.stream .issue))
  onDevice (LogDevice.flush (.stream .completion))
  if (← get).hasConsole then onDevice (LogDevice.flush .console)

end

/-- A cycle that may be missing. -/
def cycleText : Option Nat → String
  | none => "None"
  | some cycle => s!"Some({cycle})"

/-- The state of the log in one line. -/
def summary (log : EventLog τ) : String :=
  "EventLogger \x7b verbosity: " ++ log.verbosity.label ++ ", current_cycle: "
    ++ toString log.cycle ++ ", last_all: " ++ cycleText log.lastAll ++ ", last_issue: "
    ++ cycleText log.lastIssue ++ ", last_return: " ++ cycleText log.lastCompletion ++ ", .. \x7d"

end EventLog

/-- Whatever is told of the events of a replay. -/
class Observer (ω : Type) where
  /-- The events to come belong to a cycle. -/
  startCycle : Nat → Attempt ω Unit
  /-- A request was admitted. -/
  issued : Request → Attempt ω Unit
  /-- A request was completed. -/
  returned : Request → Attempt ω Unit
  /-- The replay is over. -/
  finish : Attempt ω Unit

instance {τ : Type} [LogDevice τ] : Observer (EventLog τ) where
  startCycle := EventLog.startCycle
  issued := EventLog.issued
  returned := EventLog.returned
  finish := EventLog.finish

/-- Nobody is told of anything. -/
structure Silence where
  deriving Repr, DecidableEq

instance : Observer Silence where
  startCycle _ := pure ()
  issued _ := pure ()
  returned _ := pure ()
  finish := pure ()

end MemoryReplay
