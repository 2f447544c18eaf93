import MemoryReplay.DeviceError

/-!
# Devices that take a log

A log is written to three streams and, if there is one, a console. Any write may be refused.

- `Attempt τ α`: an action on a value of type `τ` that a device may refuse. What was done before
  a refusal stays done.
- `Stream`, `Sink`: the places text goes to.
- `LogDevice τ`: what can be done with a sink.
- `Transcript`: a device in memory that keeps the text of each sink, and can be told to refuse.
-/

namespace MemoryReplay

/-- An action that a device may refuse. -/
abbrev Attempt (τ α : Type) := ExceptT DeviceError (StateM τ) α

/-- The streams of an event log. -/
inductive Stream where
  /-- Every event. -/
  | all
  /-- Admissions. -/
  | issue
  /-- Completions. -/
  | completion
  deriving Repr, DecidableEq

/-- A place that text is written to. -/
inductive Sink where
  | stream (s : Stream)
  | console
  deriving Repr, DecidableEq

/-- A device with four sinks. -/
class LogDevice (τ : Type) where
  write : Sink → String → Attempt τ Unit
  flush : Sink → Attempt τ Unit

/-- The text written to each sink. -/
structure Transcript where
  /-- What was written where, the last first. -/
  written : List (Sink × String) := []
  /-- The sinks that refuse. -/
  broken : List Sink := []

namespace Transcript

/-- The text of a sink. -/
def text (t : Transcript) (sink : Sink) : String :=
  String.join ((t.written.filter (·.1 = sink)).map Prod.snd).reverse

/-- Refuses in place of a broken sink. -/
def reach (sink : Sink) : Attempt Transcript Unit := do
  if sink ∈ (← get).broken then throw .broken

/-- Lets a sink refuse, or take text again. -/
def setBroken (t : Transcript) (sink : Sink) (refuses : Bool) : Transcript :=
  let others := t.broken.filter (· ≠ sink)
  { t with broken := if refuses then sink :: others else others }

/-- The transcript with its text taken out. -/
def clear (t : Transcript) : Transcript := { t with written := [] }

instance : LogDevice Transcript where
  write sink text := do
    reach sink
    modify fun t => { t with written := (sink, text) :: t.written }
  flush sink := reach sink

end Transcript

end MemoryReplay
