import MemoryReplay.Memory.Queued
import MemoryReplay.Parameter

/-!
# Built-in memories

The parameters from which a memory is built, and the two latency models that can be chosen.

- `MemoryConfig`: the parameters with their defaults, and `MemoryConfig.validate`.
- `Service`: either latency model.
- `MemoryConfig.fresh`: the memory over any latency model. `MemoryConfig.build`: the memory that a
  configuration describes.
-/

namespace MemoryReplay

/-- The choice of a latency model. -/
inductive MemoryModel where
  /-- Constant latencies. -/
  | fixed
  /-- Open rows. -/
  | rowBuffer
  deriving Repr, DecidableEq

/-- The latency model's name in a configuration. -/
def MemoryModel.name : MemoryModel → String
  | fixed => "Fixed"
  | rowBuffer => "RowBuffer"

/-- The parameters of a built-in memory. -/
structure MemoryConfig where
  model : MemoryModel := .fixed
  bus : Bus := {}
  /-- Requests that a pseudo-channel holds. -/
  queueDepth : UInt64 := 32
  /-- The latencies of the fixed model. -/
  fixed : FixedLatency := ⟨10, 10⟩
  /-- The timing of the model with open rows. -/
  rows : RowTiming := {}
  fields : AddressFields := ⟨10, 14, 4, 18⟩

namespace MemoryConfig

/-- Refuses parameters with which no memory runs. -/
def validate (c : MemoryConfig) : Except ParameterError Unit := do
  if c.queueDepth = 0 then
    throw ⟨"queue_depth", .zeroDepth⟩
  if c.bus.bits < 8 ∨ c.bus.burstLength = 0 then
    throw ⟨"bus_bits", .emptyBurst⟩
  if 60 < c.fields.channelShift ∨ 64 ≤ c.fields.bankShift ∨ 64 ≤ c.fields.rowShift then
    throw ⟨"channel_shift", .fieldOutsideAddress⟩
  if c.fields.bankBits = 0 ∨ 8 < c.fields.bankBits then
    throw ⟨"bank_bits", .bankWidth⟩
  if !(c.bus.period.isFinite && c.bus.period > 0.0) then
    throw ⟨"tck_ns", .clockPeriod⟩

end MemoryConfig

/-- One of the two latency models. -/
inductive Service where
  | fixed (model : FixedLatency)
  | rows (model : RowBuffer)

namespace Service

/-- The latency of an access, and the model after it. -/
def access (a : UInt64) (direction : Direction) : Service → Checked (Nat × Service)
  | .fixed model => (LatencyModel.access model a direction).map fun (n, model) => (n, .fixed model)
  | .rows model => (LatencyModel.access model a direction).map fun (n, model) => (n, .rows model)

instance : LatencyModel Service where
  access model a direction := model.access a direction
  counters
    | .fixed model => LatencyModel.counters model
    | .rows model => LatencyModel.counters model

end Service

namespace MemoryConfig

/-- The latency model that a configuration chooses, before the first access. -/
def service (c : MemoryConfig) : Checked Service :=
  match c.model with
  | .fixed => some (.fixed c.fixed)
  | .rowBuffer => (RowBuffer.create c.rows c.fields).map .rows

/-- The memory of a configuration over a latency model, with nothing under way. -/
def fresh {κ : Type} (c : MemoryConfig) (model : κ) : QueuedMemory κ :=
  { model, fields := c.fields, queueDepth := c.queueDepth, bus := c.bus }

/-- The memory that a configuration describes. -/
def build (c : MemoryConfig) : Checked (QueuedMemory Service) := do
  let model ← c.service
  return c.fresh model

end MemoryConfig

end MemoryReplay
