import MemoryReplay.Config.Basic
import MemoryReplay.TraceFile.Reader

/-!
# The trace of a run

The requests that a configuration asks for: those of its workload, at the addresses to which its
mapping moves them.

- `RunError`: whatever can keep a run from its end.
- `Config.rawTrace`: the requests of the workload.
- `Config.trace`: the requests that are replayed.
-/

namespace MemoryReplay

/-- What can keep a run from its end. -/
inductive RunError where
  | config (e : ConfigError)
  | trace (e : TraceError)
  | sim (e : SimError)
  deriving Repr, DecidableEq

/-- The wording of the error. -/
def RunError.message : RunError → String
  | config e => e.message
  | trace e => e.message
  | sim e => e.message

namespace Config

/-- The requests of the workload. `stored` is the trace file. -/
def rawTrace (c : Config) (stored : Except TraceError (List Request)) :
    Outcome RunError (List Request) :=
  match c.workload.synthesize with
  | .error (.reported e) => .error (.reported (.config (.parameter e)))
  | .error .overflow => .error .overflow
  | .ok (some trace) => .ok trace
  | .ok none =>
    match stored with
    | .ok trace => .ok trace
    | .error e => .error (.reported (.trace e))

/-- The requests that are replayed. The mapping is looked at before the workload; one that moves
nothing leaves the requests as they are. -/
def trace (c : Config) (stored : Except TraceError (List Request)) :
    Outcome RunError (List Request) :=
  match c.mapping.permutation with
  | .error e => .error (.reported (.config e))
  | .ok none => c.rawTrace stored
  | .ok (some p) =>
    if p.isIdentity then c.rawTrace stored else (c.rawTrace stored).map p.applyAll

end Config

end MemoryReplay
