import MemoryReplay.Config.Read
import MemoryReplay.EventLog.Logger
import MemoryReplay.FileStore.Basic
import MemoryReplay.TraceFile.Reader

/-!
# Stored traces, configurations and logs

- `TraceFile.load`, `TraceFile.store`: a trace in a file.
- `Config.load`: a configuration in a file.
- `EventLog.openFiles`, `EventLog.storeFiles`: the three files of an event log. They are made
  empty before a run and get their text after it.
-/

namespace MemoryReplay

variable {m : Type → Type} [Monad m] [FileStore m]

/-- The trace in a file. -/
def TraceFile.load (path : String) : m (Except TraceError (List Request)) := do
  match ← FileStore.read path with
  | .error e => return .error (.device path e)
  | .ok bytes => return TraceFile.read path bytes.toList

/-- Puts a trace into a file, and makes the directory for it. -/
def TraceFile.store (path : String) (trace : List Request) : m (Except TraceError Unit) := do
  let directory := (Path.parent? path).getD ""
  match ← FileStore.makeDirectories directory with
  | .error e => return .error (.device path e)
  | .ok () =>
    return (← FileStore.write path (TraceFile.render trace).toUTF8).mapError (.device path)

/-- The configuration in a file. -/
def Config.load (path : String) : m (Except ConfigError Config) := do
  match ← FileStore.read path with
  | .error e => return .error (.device path e)
  | .ok bytes => return Config.ofBytes path bytes

namespace EventLog

/-- The file of a stream. -/
def fileName : Stream → String
  | .all => "log.txt"
  | .issue => "issue.txt"
  | .completion => "return.txt"

/-- The streams in the order in which their files are made. -/
def streams : List Stream := [.all, .issue, .completion]

/-- Gives each of some streams its text, up to the first file that refuses. -/
def writeFiles (directory : String) (text : Stream → String) :
    List Stream → m (Except DeviceError Unit)
  | [] => return .ok ()
  | stream :: rest => do
    match ← FileStore.write (Path.join directory (fileName stream)) (text stream).toUTF8 with
    | .error e => return .error e
    | .ok () => writeFiles directory text rest

/-- Makes the directory of a log and its files. -/
def openFiles (directory : String) : m (Except DeviceError Unit) := do
  match ← FileStore.makeDirectories directory with
  | .error e => return .error e
  | .ok () => writeFiles directory (fun _ => "") streams

/-- Puts the text of a log into its files. -/
def storeFiles (directory : String) (log : EventLog Transcript) : m (Except DeviceError Unit) :=
  writeFiles directory (fun stream => log.device.text (.stream stream)) streams

end EventLog

end MemoryReplay
