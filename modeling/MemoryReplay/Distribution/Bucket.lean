import MemoryReplay.Address.Classifier
import MemoryReplay.Distribution.Interleave
import MemoryReplay.Request

/-!
# Buckets

The requests of one pseudo-channel, and the orders they can be brought into.

- `sortByAddress`: stable, so that requests at one address keep their order.
- `keysOf`: the distinct keys of a list in ascending order.
- `interleaveBanks`: banks one after the other inside a group, and groups one after the other.
-/

namespace MemoryReplay.Distribution

/-- The requests by ascending address; requests at one address keep their order. -/
def sortByAddress (bucket : List Request) : List Request :=
  bucket.mergeSort fun r s => r.address ≤ s.address

/-- A key put into its place in an ascending list without repetition. -/
def insertKey (key : Nat) : List Nat → List Nat
  | [] => [key]
  | k :: rest =>
    if key < k then key :: k :: rest
    else if key = k then k :: rest
    else k :: insertKey key rest

/-- The distinct keys in ascending order. -/
def keysOf (keys : List Nat) : List Nat := keys.foldr insertKey []

/-- The items with a given key. -/
def withKey {α : Type} (key : Nat) (items : List (Nat × α)) : List α :=
  (items.filter (·.1 == key)).map Prod.snd

/-- The items grouped by key, in ascending order of the keys. -/
def groupByKey {α : Type} (items : List (Nat × α)) : List (Nat × List α) :=
  (keysOf (items.map Prod.fst)).map fun key => (key, withKey key items)

/-- The requests, each with its bank, in the order that keeps as many banks busy as possible:
every bank's requests by address, banks of one group in turn, and groups in turn. -/
def interleaveBanked (banked : List (Nat × Request)) : List Request :=
  let banks := (groupByKey banked).map fun (bank, bucket) =>
    (bank / banksPerGroup, sortByAddress bucket)
  roundRobin ((groupByKey banks).map fun (_, queues) => roundRobin queues)

/-- `interleaveBanked` of a bucket whose banks are given by a function of the address. -/
def interleaveBanks (bankOf : UInt64 → Checked Nat) (bucket : List Request) :
    Checked (List Request) := do
  let banked ← bucket.mapM fun r => (bankOf r.address).map fun bank => (bank, r)
  return interleaveBanked banked

end MemoryReplay.Distribution
