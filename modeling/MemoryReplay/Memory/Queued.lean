import MemoryReplay.Decimal.Places
import MemoryReplay.Memory.Latency
import MemoryReplay.Memory.System
import MemoryReplay.Text.Line

/-!
# A memory with bounded queues

Every pseudo-channel holds up to a fixed number of requests. A request completes after the latency
that the model gave it at admission; completions come in the order of their cycles, and of
admission within a cycle.

- `QueuedMemory κ`: the memory over a latency model, with its `MemorySystem` instance.
- `QueuedMemory.schedule`: where a request comes to stand among those under way.
- `QueuedMemory.add`, `QueuedMemory.advance`: admission, and one cycle.
- `QueuedMemory.statistics`, `QueuedMemory.summary`: what the memory says of itself.
-/

namespace MemoryReplay

/-- A request under way. -/
structure Pending where
  /-- The cycle in which it completes, or the next one if that is past. -/
  due : Nat
  /-- Its number in the order of admission. -/
  order : Nat
  /-- What is reported on completion. -/
  key : Completion
  /-- The pseudo-channel whose queue it occupies. -/
  channel : Fin pseudoChannels
  deriving Repr, DecidableEq

/-- A memory with bounded queues over a latency model. -/
structure QueuedMemory (κ : Type) where
  model : κ
  fields : AddressFields
  /-- Requests that a pseudo-channel holds. -/
  queueDepth : UInt64
  bus : Bus
  /-- Cycles so far. -/
  now : Nat := 0
  /-- Requests admitted so far. -/
  admitted : Nat := 0
  /-- The requests under way, by cycle of completion and then by order of admission. -/
  pending : List Pending := []
  /-- Requests under way in each pseudo-channel. -/
  inFlight : Vector Nat pseudoChannels := Vector.replicate pseudoChannels 0
  /-- Whether completions are reported. -/
  attached : Bool := false
  reads : Nat := 0
  writes : Nat := 0
  totalLatency : Nat := 0
  /-- Completions that nobody was told of. -/
  unreported : Nat := 0
  /-- Requests admitted to each pseudo-channel. -/
  perChannel : Vector Nat pseudoChannels := Vector.replicate pseudoChannels 0

namespace QueuedMemory

variable {κ : Type}

/-- Puts a request behind all those that are not due later. -/
def schedule (request : Pending) : List Pending → List Pending
  | [] => [request]
  | p :: rest =>
    if request.due < p.due then request :: p :: rest else p :: schedule request rest

/-- Adds one to the entry of a pseudo-channel. -/
def increase (counts : Vector Nat pseudoChannels) (channel : Fin pseudoChannels) :
    Vector Nat pseudoChannels :=
  counts.set channel (counts.get channel + 1)

/-- Takes one from the entry of a pseudo-channel; an error at zero. -/
def decrease (counts : Vector Nat pseudoChannels) (channel : Fin pseudoChannels) :
    Checked (Vector Nat pseudoChannels) :=
  match counts.get channel with
  | 0 => none
  | n + 1 => some (counts.set channel n)

/-- Whether the queue of the address's pseudo-channel has room. -/
def hasRoom (m : QueuedMemory κ) (a : UInt64) : Checked Bool := do
  let channel ← m.fields.channelOf? a
  return m.inFlight.get channel < m.queueDepth.toNat

/-- Admits a request, whether or not there is room for it. -/
def add [LatencyModel κ] (m : QueuedMemory κ) (a : UInt64) (direction : Direction) :
    Checked (QueuedMemory κ) := do
  let channel ← m.fields.channelOf? a
  let (latency, model) ← LatencyModel.access m.model a direction
  let due ← Word.fits (m.now + latency)
  let totalLatency ← Word.fits (m.totalLatency + latency)
  return { m with
    model
    admitted := m.admitted + 1
    pending := schedule ⟨due, m.admitted, ⟨a, direction⟩, channel⟩ m.pending
    inFlight := increase m.inFlight channel
    perChannel := increase m.perChannel channel
    totalLatency
    reads := if direction = .read then m.reads + 1 else m.reads
    writes := if direction = .write then m.writes + 1 else m.writes }

/-- One cycle: everything due leaves its queue, in order. -/
def advance (m : QueuedMemory κ) : Checked (QueuedMemory κ × List Completion) := do
  let now ← Word.fits (m.now + 1)
  let fired := m.pending.takeWhile (·.due ≤ now)
  let inFlight ← fired.foldlM (fun counts p => decrease counts p.channel) m.inFlight
  let after := { m with now, inFlight, pending := m.pending.dropWhile (·.due ≤ now) }
  if m.attached then
    return (after, fired.map Pending.key)
  else
    return ({ after with unreported := m.unreported + fired.length }, [])

/-- Requests under way. -/
def outstanding (m : QueuedMemory κ) : Nat := m.pending.length

/-- The mean latency given at admission; zero before the first request. -/
def averageService (m : QueuedMemory κ) : Float :=
  let requests := m.reads + m.writes
  if requests = 0 then 0.0
  else (UInt64.ofNat m.totalLatency).toFloat / (UInt64.ofNat requests).toFloat

/-- A line of the statistics. -/
def statistic (name value : String) : String :=
  "  " ++ Text.padRight 22 name ++ " " ++ value

/-- A number in at least two digits. -/
def twoDigits (n : Nat) : String := Text.fillLeft '0' 2 (toString n)

/-- The memory's statistics, one a line. -/
def statistics [LatencyModel κ] (m : QueuedMemory κ) : String :=
  Text.unlines <|
    ["MEMORY SYSTEM",
     statistic "mem.cycles" (toString m.now),
     statistic "mem.reads" (toString m.reads),
     statistic "mem.writes" (toString m.writes),
     statistic "mem.avg_service" (Decimal.render 2 m.averageService ++ " cycles")]
    ++ (LatencyModel.counters m.model).map (fun (name, value) => statistic name (toString value))
    ++ (if m.unreported = 0 then [] else [statistic "mem.unreported" (toString m.unreported)])
    ++ (List.finRange pseudoChannels).map fun channel =>
      s!"  pch[{twoDigits channel.val}].requests      {m.perChannel.get channel}"

/-- The state of the memory in one line. -/
def summary (m : QueuedMemory κ) : String :=
  "QueuedMemory \x7b now: " ++ toString m.now ++ ", queue_depth: " ++ toString m.queueDepth
    ++ ", outstanding: " ++ toString m.outstanding ++ ", reads: " ++ toString m.reads
    ++ ", writes: " ++ toString m.writes ++ ", .. \x7d"

instance [LatencyModel κ] : MemorySystem (QueuedMemory κ) where
  channelOf m a := (m.fields.channelOf? a).map Fin.val
  bankOf m a := m.fields.bankOf? a
  bus m := m.bus
  accepts m a _ := (m.hasRoom a).map fun room => (room, m)
  submit m a direction := m.add a direction
  attach m := { m with attached := true }
  tick m := m.advance
  report m := m.statistics

end QueuedMemory

end MemoryReplay
