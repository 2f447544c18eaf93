import MemoryReplay.Address.Classifier
import MemoryReplay.Request

/-!
# Latency models

How many cycles a request takes once it is admitted.

- `LatencyModel κ`: a latency function with a state of type `κ`, and its counters.
- `FixedLatency`: one latency for reads and one for writes.
- `RowBuffer`: one open row for each bank of every pseudo-channel. An access to the open row is a
  hit; to another row, a conflict; to a bank with no open row, cold.
-/

namespace MemoryReplay

/-- A latency function that may learn from the accesses it has seen. -/
class LatencyModel (κ : Type) where
  /-- The latency of an access, and the model after it. -/
  access : κ → UInt64 → Direction → Checked (Nat × κ)
  /-- The model's counters with their names. -/
  counters : κ → List (String × Nat)

/-- Constant latencies. -/
structure FixedLatency where
  /-- Cycles of a read. -/
  read : UInt64
  /-- Cycles of a write. -/
  write : UInt64
  deriving Repr, DecidableEq

namespace FixedLatency

/-- One latency for both directions. -/
def uniform (latency : UInt64) : FixedLatency := ⟨latency, latency⟩

/-- The latency of a direction. -/
def of (model : FixedLatency) : Direction → UInt64
  | .read => model.read
  | .write => model.write

instance : LatencyModel FixedLatency where
  access model _ direction := some ((model.of direction).toNat, model)
  counters _ := []

end FixedLatency

/-- The timing of a bank. -/
structure RowTiming where
  /-- Cycles of a column access in an open row. -/
  cas : UInt64 := 14
  /-- Cycles to open a row. -/
  ras : UInt64 := 14
  /-- Cycles to close a row. -/
  pre : UInt64 := 14
  deriving Repr, DecidableEq

/-- How an access finds the row of its bank. -/
inductive RowState where
  /-- The row is open. -/
  | hit
  /-- Another row is open. -/
  | conflict
  /-- No row is open. -/
  | cold
  deriving Repr, DecidableEq

/-- The latency of an access to a row in a given state. -/
def RowTiming.latency (t : RowTiming) : RowState → Checked Nat
  | .hit => some t.cas.toNat
  | .conflict => Word.fits (t.pre.toNat + t.ras.toNat + t.cas.toNat)
  | .cold => Word.fits (t.ras.toNat + t.cas.toNat)

/-- A memory's open rows. -/
structure RowBuffer where
  timing : RowTiming
  fields : AddressFields
  /-- The open row of each bank; the banks of one pseudo-channel stand together. -/
  openRows : Array (Option Nat)
  hits : Nat := 0
  conflicts : Nat := 0
  colds : Nat := 0

namespace RowBuffer

/-- Most banks for which the open rows can be kept: a bank's entry takes sixteen bytes, and the
whole table less than half of the address space. -/
def maxBanks : Nat := (1 <<< 59) - 1

/-- All banks without an open row. -/
def create (timing : RowTiming) (fields : AddressFields) : Checked RowBuffer := do
  let banks ← fields.banks?
  if pseudoChannels * banks ≤ maxBanks then
    return { timing, fields, openRows := Array.replicate (pseudoChannels * banks) none }
  else
    none

/-- The place of an address's bank in the table of open rows. -/
def slotOf (fields : AddressFields) (a : UInt64) : Checked Nat := do
  let channel ← fields.channelOf? a
  let banks ← fields.banks?
  let bank ← fields.bankOf? a
  return channel * banks + bank

/-- How an access to `row` finds a bank with the given open row. -/
def classify (row : Nat) : Option Nat → RowState
  | none => .cold
  | some opened => if opened = row then .hit else .conflict

/-- One more access of a kind. -/
def count (model : RowBuffer) : RowState → RowBuffer
  | .hit => { model with hits := model.hits + 1 }
  | .conflict => { model with conflicts := model.conflicts + 1 }
  | .cold => { model with colds := model.colds + 1 }

/-- The latency of an access; its row is open afterwards. -/
def access (model : RowBuffer) (a : UInt64) : Checked (Nat × RowBuffer) := do
  let slot ← slotOf model.fields a
  let row ← model.fields.rowOf? a
  let opened ← model.openRows[slot]?
  let state := classify row opened
  let latency ← model.timing.latency state
  let model := model.count state
  return (latency, { model with openRows := model.openRows.setIfInBounds slot (some row) })

instance : LatencyModel RowBuffer where
  access model a _ := model.access a
  counters model :=
    [("row.hits", model.hits), ("row.conflicts", model.conflicts), ("row.cold", model.colds)]

end RowBuffer

end MemoryReplay
