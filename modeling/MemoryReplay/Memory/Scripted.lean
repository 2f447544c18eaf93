import MemoryReplay.Address.Classifier
import MemoryReplay.Memory.System

/-!
# A memory that follows a script

A memory whose every answer is laid down in advance: it takes requests in some cycles only, has
constant latencies, classifies addresses as it is told, and can be made to report a completion
that nobody asked for.

- `ScriptedMemory`: the script and the state, with its `MemorySystem` instance.
- `ScriptedMemory.inject`: a completion for the next cycle.
-/

namespace MemoryReplay

/-- A memory that follows a script. -/
structure ScriptedMemory where
  readLatency : Nat := 1
  writeLatency : Nat := 1
  /-- Requests are taken in cycles that leave the remainder `acceptPhase` when divided by this. -/
  acceptPeriod : Nat := 1
  acceptPhase : Nat := 0
  classifier : Classifier := .const 0
  bus : Bus := {}
  /-- Cycles so far. -/
  now : Nat := 0
  /-- Requests taken so far. -/
  taken : Nat := 0
  /-- What completes when, in the order of admission. -/
  pending : List (Nat × Completion) := []
  /-- Completions for the next cycle that no request caused. -/
  injected : List Completion := []
  /-- Whether completions are reported. -/
  attached : Bool := false

namespace ScriptedMemory

/-- Lets the memory report a completion in the next cycle. -/
def inject (m : ScriptedMemory) (key : Completion) : ScriptedMemory :=
  { m with injected := m.injected ++ [key] }

/-- Whether the memory takes requests in this cycle. A period of zero is an error. -/
def takesNow (m : ScriptedMemory) : Checked Bool :=
  if m.acceptPeriod = 0 then none else some (m.now % m.acceptPeriod == m.acceptPhase)

/-- Takes a request. -/
def add (m : ScriptedMemory) (key : Completion) : Checked ScriptedMemory := do
  let latency := match key.direction with
    | .read => m.readLatency
    | .write => m.writeLatency
  let due ← Word.fits (m.now + latency)
  return { m with pending := m.pending ++ [(due, key)], taken := m.taken + 1 }

/-- One cycle: everything due, in the order of admission, and then what was injected. -/
def advance (m : ScriptedMemory) : Checked (ScriptedMemory × List Completion) := do
  let now ← Word.fits (m.now + 1)
  let fired := (m.pending.filter (·.1 ≤ now)).map Prod.snd ++ m.injected
  let after := { m with now, pending := m.pending.filter (now < ·.1), injected := [] }
  return (after, if m.attached then fired else [])

instance : MemorySystem ScriptedMemory where
  channelOf m a := m.classifier.eval? a
  bankOf _ _ := some 0
  bus m := m.bus
  accepts m _ _ := m.takesNow.map fun takes => (takes, m)
  submit m a direction := m.add ⟨a, direction⟩
  attach m := { m with attached := true }
  tick m := m.advance
  report m := s!"FAKE MEMORY ticks={m.now} requests={m.taken}"

end ScriptedMemory

end MemoryReplay
