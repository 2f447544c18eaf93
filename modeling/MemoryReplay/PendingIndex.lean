import MemoryReplay.Request
import Std.Data.HashMap

/-!
# Pending requests

A completion names an address and a direction only, so several requests under way to one address
are told apart by their order: the oldest one is completed first.

- `PendingIndex`: for each completion that may come, the slots that wait for it, oldest first.
- `PendingIndex.insert`, `PendingIndex.complete`: a request starts to wait, and is completed.
-/

namespace MemoryReplay

/-- The slots that wait for a completion. -/
structure PendingIndex where
  /-- The waiting slots of each completion, oldest first; never an empty list. -/
  queues : Std.HashMap Completion (List Nat) := {}
  /-- Number of waiting slots. -/
  size : Nat := 0

namespace PendingIndex

/-- No slot waits. -/
def empty : PendingIndex := {}

/-- The slots that wait for a completion, oldest first. -/
def waiting (index : PendingIndex) (key : Completion) : List Nat :=
  index.queues[key]?.getD []

/-- `slot` starts to wait for a completion. -/
def insert (index : PendingIndex) (key : Completion) (slot : Nat) : PendingIndex where
  queues := index.queues.insert key (index.waiting key ++ [slot])
  size := index.size + 1

/-- Takes the slot that has waited longest for a completion, if any does. -/
def complete (index : PendingIndex) (key : Completion) : Option Nat × PendingIndex :=
  match index.waiting key with
  | [] => (none, index)
  | [slot] => (some slot, { queues := index.queues.erase key, size := index.size - 1 })
  | slot :: rest => (some slot, { queues := index.queues.insert key rest, size := index.size - 1 })

/-- Whether no slot waits. -/
def isEmpty (index : PendingIndex) : Bool := index.size == 0

end PendingIndex

end MemoryReplay
