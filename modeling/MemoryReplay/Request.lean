/-!
# Requests

A request is one access to memory: an address, a direction, and the two cycles that the replay
writes into it.

- `Direction`: read or write, with its word and its one-letter token.
- `Request.fresh`: a request before the replay has seen it.
- `Request.markIssued`, `Request.markCompleted`: the two stamps.
- `Request.latency`: cycles from admission to completion, once completed.
-/

namespace MemoryReplay

/-- The direction of an access. -/
inductive Direction where
  | read
  | write
  deriving Repr, DecidableEq, Hashable

namespace Direction

/-- The direction that a write flag stands for. -/
def ofIsWrite (isWrite : Bool) : Direction :=
  if isWrite then write else read

/-- Whether the access is a write. -/
def isWrite : Direction → Bool
  | read => false
  | write => true

/-- The letter that stands for the direction in a trace. -/
def token : Direction → Char
  | read => 'R'
  | write => 'W'

/-- The word for the direction in reports. -/
def word : Direction → String
  | read => "READ"
  | write => "WRITE"

@[simp] theorem ofIsWrite_isWrite (d : Direction) : ofIsWrite d.isWrite = d := by
  cases d <;> rfl

@[simp] theorem isWrite_ofIsWrite (b : Bool) : (ofIsWrite b).isWrite = b := by
  cases b <;> rfl

end Direction

/-- One access and its two stamps. -/
structure Request where
  /-- The byte address accessed. -/
  address : UInt64
  /-- Read or write. -/
  direction : Direction
  /-- The cycle in which the memory admitted the request. -/
  issueCycle : Nat := 0
  /-- The cycle in which its completion was seen. -/
  completeCycle : Nat := 0
  /-- Whether its completion has been seen. -/
  completed : Bool := false
  deriving Repr, DecidableEq

namespace Request

/-- A request that no memory has seen yet. -/
def fresh (address : UInt64) (direction : Direction) : Request :=
  { address, direction }

/-- The request admitted in cycle `cycle`. -/
def markIssued (r : Request) (cycle : Nat) : Request :=
  { r with issueCycle := cycle }

/-- The request completed in cycle `cycle`. -/
def markCompleted (r : Request) (cycle : Nat) : Request :=
  { r with completeCycle := cycle, completed := true }

/-- Cycles from the first stamp to the second, zero if they stand in the other order. -/
def stampedLatency (r : Request) : Nat :=
  r.completeCycle - r.issueCycle

/-- The latency of a completed request; none while it is under way. -/
def latency (r : Request) : Option Nat :=
  if r.completed then some r.stampedLatency else none

end Request

/-- A completion as the memory reports it: which address, which direction. -/
structure Completion where
  address : UInt64
  direction : Direction
  deriving Repr, DecidableEq, Hashable

/-- The completion that answers a request. -/
def Request.key (r : Request) : Completion :=
  ⟨r.address, r.direction⟩

end MemoryReplay
