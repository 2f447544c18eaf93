import MemoryReplay.Distribution.Bucket
import MemoryReplay.SimError

/-!
# Distribution over the channels

Splits a trace into the eight queues that feed the channels. Every request goes to the bucket of
its pseudo-channel, each bucket is brought into the order of the strategy, and the buckets `2k`
and `2k + 1` alternate in queue `k`.

- `Strategy`: the order inside a bucket.
- `Distribution.classify`: the sixteen buckets of a trace.
- `Distribution.distribute`: the eight queues.
-/

namespace MemoryReplay

/-- The order of the requests inside a bucket. -/
inductive Strategy where
  /-- The order of the trace. -/
  | roundRobin
  /-- By address, so that accesses to one row stand together. -/
  | rowLocality
  /-- By address inside each bank, with banks and bank groups in turn. -/
  | bankParallel
  deriving Repr, DecidableEq

namespace Strategy

/-- Every strategy. -/
def all : List Strategy := [roundRobin, rowLocality, bankParallel]

/-- The name of a strategy on a command line. -/
def name : Strategy → String
  | roundRobin => "round-robin"
  | rowLocality => "row-locality"
  | bankParallel => "bank-parallel"

/-- The name of a strategy in a configuration. -/
def configName : Strategy → String
  | roundRobin => "RoundRobin"
  | rowLocality => "RowLocality"
  | bankParallel => "BankParallel"

end Strategy

namespace Distribution

/-- A request with its pseudo-channel, if that exists. -/
def tag (channelOf : UInt64 → Checked Nat) (r : Request) :
    Outcome SimError (Fin pseudoChannels × Request) := do
  let channel ← channelOf r.address
  if inside : channel < pseudoChannels then
    return (⟨channel, inside⟩, r)
  else
    Outcome.report (.channelOutOfRange r.address channel)

/-- The requests of one pseudo-channel, in the order of the trace. -/
def bucketOf (channel : Fin pseudoChannels) (tagged : List (Fin pseudoChannels × Request)) :
    List Request :=
  (tagged.filter (·.1 == channel)).map Prod.snd

/-- The sixteen buckets of a trace, or the error of the first request that has no bucket. -/
def classify (channelOf : UInt64 → Checked Nat) (trace : List Request) :
    Outcome SimError (Vector (List Request) pseudoChannels) := do
  let tagged ← trace.mapM (tag channelOf)
  return Vector.ofFn fun channel => bucketOf channel tagged

/-- A bucket in the order of a strategy. -/
def order (strategy : Strategy) (bankOf : UInt64 → Checked Nat) (bucket : List Request) :
    Checked (List Request) :=
  match strategy with
  | .roundRobin => some bucket
  | .rowLocality => some (sortByAddress bucket)
  | .bankParallel => interleaveBanks bankOf bucket

/-- The first pseudo-channel of a channel. -/
def lower (channel : Fin channels) : Fin pseudoChannels :=
  ⟨2 * channel.val, by have := channel.isLt; unfold channels at this; unfold pseudoChannels; omega⟩

/-- The second pseudo-channel of a channel. -/
def upper (channel : Fin channels) : Fin pseudoChannels :=
  ⟨2 * channel.val + 1,
    by have := channel.isLt; unfold channels at this; unfold pseudoChannels; omega⟩

/-- The queue of a channel: its two buckets in turn. -/
def pair (buckets : Vector (List Request) pseudoChannels) (channel : Fin channels) : List Request :=
  mergePair (buckets.get (lower channel)) (buckets.get (upper channel))

/-- The eight queues of a trace. -/
def distribute (channelOf bankOf : UInt64 → Checked Nat) (strategy : Strategy)
    (trace : List Request) : Outcome SimError (Vector (List Request) channels) := do
  let buckets ← classify channelOf trace
  let ordered ← Outcome.ofChecked (buckets.mapM (order strategy bankOf))
  return Vector.ofFn (pair ordered)

/-- `distribute` for a memory that knows no banks: every address lies in bank zero. -/
def distributeUnbanked (channelOf : UInt64 → Checked Nat) (strategy : Strategy)
    (trace : List Request) : Outcome SimError (Vector (List Request) channels) :=
  distribute channelOf (fun _ => some 0) strategy trace

end Distribution

end MemoryReplay
