import MemoryReplay.Address.Classifier
import MemoryReplay.Distribution.Strategy
import MemoryReplay.PendingIndex

/-!
# The driver's books

What a replay keeps of its own: the queues that still wait, the requests admitted so far, and
which of them are under way.

- `Driver`: the books. `Driver.ofQueues` opens them, `Driver.ofQueueList?` checks the number of
  queues first.
- `Driver.issue`: the head of a queue becomes a request under way.
- `Driver.match?`: a completion stamps the oldest request under way that it can mean.
-/

namespace MemoryReplay

/-- The books of a replay. -/
structure Driver where
  /-- The requests that wait for admission, by channel. -/
  queues : Vector (List Request) channels
  /-- The current cycle. -/
  cycle : Nat := 0
  /-- Requests in all. -/
  total : Nat
  /-- Requests completed. -/
  completed : Nat := 0
  /-- The requests admitted, in order of admission. -/
  slots : Array Request := #[]
  /-- The slots of requests under way. -/
  index : PendingIndex := .empty
  /-- Completions reported and not yet looked at. -/
  mailbox : List Completion := []
  /-- Requests admitted from each channel. -/
  admitted : Vector Nat channels := Vector.replicate channels 0

namespace Driver

/-- Books over the queues of a distribution. -/
def ofQueues (queues : Vector (List Request) channels) : Driver :=
  { queues, total := queues.toList.flatten.length }

/-- Books over a list of queues, of which there must be one for each channel. -/
def ofQueueList? (queues : List (List Request)) : Except SimError Driver :=
  if count : queues.length = channels then
    .ok (ofQueues ⟨queues.toArray, by simpa using count⟩)
  else
    .error (.channelCount queues.length)

/-- Requests admitted and not completed. -/
def outstanding (d : Driver) : Nat := d.index.size

/-- Whether every request has completed. -/
def isDone (d : Driver) : Bool := d.total ≤ d.completed

/-- The head of a channel's queue, the rest being `rest`, is admitted in this cycle. -/
def issue (d : Driver) (channel : Fin channels) (head : Request) (rest : List Request) : Driver :=
  let request := head.markIssued d.cycle
  let slot := d.slots.size
  { d with
    queues := d.queues.set channel rest
    index := d.index.insert request.key slot
    slots := d.slots.push request
    admitted := d.admitted.set channel (d.admitted.get channel + 1) }

/-- The request that a completion means, stamped with this cycle, and the books afterwards. No
request, and no change, if nothing with its address and direction is under way. -/
def match? (d : Driver) (key : Completion) : Option Request × Driver :=
  let (slot, index) := d.index.complete key
  let d := { d with index }
  match slot with
  | none => (none, d)
  | some slot =>
    match d.slots[slot]? with
    | none => (none, d)
    | some request =>
      let request := request.markCompleted d.cycle
      (some request,
        { d with slots := d.slots.setIfInBounds slot request, completed := d.completed + 1 })

/-- The state of the books in one line. -/
def summary (d : Driver) : String :=
  "SimulationDriver \x7b cycle: " ++ toString d.cycle ++ ", total: " ++ toString d.total
    ++ ", completed: " ++ toString d.completed ++ ", outstanding: " ++ toString d.outstanding
    ++ ", .. \x7d"

end Driver

end MemoryReplay
