import MemoryReplay.Replay.Session

/-!
# Reports of a replay

- `RunReport`: what is left of a replay once every request has completed, with the latencies and
  their mean.
- `Session.run`: a replay to its end.
- `replay`: a trace distributed over the channels of a memory and run.
-/

namespace MemoryReplay

/-- The outcome of a replay. -/
structure RunReport where
  /-- Cycles up to the last completion. -/
  cycles : Nat
  /-- Every request with its stamps, in order of admission. -/
  requests : List Request
  /-- Requests admitted from each channel. -/
  admitted : Vector Nat channels
  /-- The memory's own statistics. -/
  memoryStatistics : String
  /-- Clock period of the memory in nanoseconds. -/
  period : Float

namespace RunReport

/-- The number as a floating-point number, rounded to the nearest. -/
def toFloat (n : Nat) : Float := (UInt64.ofNat n).toFloat

/-- The latencies of the completed requests, in order of admission. -/
def latencies (r : RunReport) : List Nat := r.requests.filterMap Request.latency

/-- The mean latency over all requests; zero for none. -/
def averageLatency (r : RunReport) : Checked Float :=
  if r.requests.isEmpty then some 0.0
  else do
    let total ← Word.sum? r.latencies
    return toFloat total / toFloat r.requests.length

/-- Requests admitted. -/
def admissions (r : RunReport) : Nat := r.requests.length

/-- Requests completed. -/
def completions (r : RunReport) : Nat := r.requests.countP (·.completed)

/-- The simulated time in nanoseconds. -/
def elapsed (r : RunReport) : Float := toFloat r.cycles * r.period

end RunReport

namespace Session

variable {σ ω : Type} [MemorySystem σ] [Observer ω]

/-- The report of a session in which every request has completed. -/
def report (s : Session σ ω) : RunReport where
  cycles := s.driver.cycle
  requests := s.driver.slots.toList
  admitted := s.driver.admitted
  memoryStatistics := MemorySystem.report s.memory
  period := (MemorySystem.bus s.memory).period

/-- Replays until every request has completed. A clock that starts below `2 ^ 64` leaves 64 bits
before the cycles allowed here are used up. -/
def complete (s : Session σ ω) : Progress σ ω :=
  (runFor (UInt64.size - s.driver.cycle) s.attach).andThen (tell Observer.finish)

/-- The replay to its end, with the report or the fault that stopped it. -/
def run (s : Session σ ω) : Outcome SimError RunReport × Session σ ω :=
  match s.complete with
  | (.ok (), s) => (.ok s.report, s)
  | (.error e, s) => (.error e, s)

end Session

variable {σ ω : Type} [MemorySystem σ] [Observer ω]

/-- Replays a trace, distributed over the channels of the memory by a strategy. The memory and the
observer are those after the replay. -/
def replay (strategy : Strategy) (trace : List Request) (memory : σ) (observer : ω) :
    Outcome SimError RunReport × σ × ω :=
  match Distribution.distribute (MemorySystem.channelOf memory) (MemorySystem.bankOf memory)
      strategy trace with
  | .error e => (.error e, memory, observer)
  | .ok queues =>
    let session : Session σ ω := { driver := .ofQueues queues, memory, observer }
    let (result, session) := session.run
    (result, session.memory, session.observer)

end MemoryReplay
