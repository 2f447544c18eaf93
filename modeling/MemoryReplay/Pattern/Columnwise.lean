import MemoryReplay.Pattern.Linear

/-!
# Column-wise patterns

A gather of elements that lie `stride` elements apart, as in a walk down a column of a matrix
stored by rows. Where several of them fall into one burst they are fetched together, so the walk
advances by that many elements at once; an element larger than a burst takes several requests.

- `Pattern.columnwise`: the pattern.
- `Pattern.columnStride`, `Pattern.cubeStride`: the strides of a plane of 512 by 512 elements
  and of a stack of such planes, with `Pattern.columnAccess` and `Pattern.cubeAccess`.
-/

namespace MemoryReplay.Pattern

/-- Distance between two elements of a column of a plane of 512 by 512. -/
def columnStride : UInt64 := 512

/-- Distance between the same element of two neighbouring planes. -/
def cubeStride : UInt64 := 262144

/-- The address of request `burst` of row `row`. -/
def columnAddress (start pitch : UInt64) (position : Nat × Nat) : Checked UInt64 := do
  let base ← Word.add? start (← Word.mul? (← Word.ofNat? position.1) pitch)
  Word.add? base (← Word.ofNat? position.2)

/-- The pairs of an index below `outer` and one below `inner`, the second running faster. -/
def grid (outer inner : Nat) : List (Nat × Nat) :=
  (List.range outer).flatMap fun i => (List.range inner).map fun j => (i, j)

/-- Rows of bursts: every row starts `pitch` bytes after the one before, and holds the requests
for the elements that one burst, or one element, covers. -/
def columnwise (start numElements stride elementSize burstSize : UInt64) (direction : Direction) :
    Outcome ParameterError (List Request) := do
  Parameter.positive "stride" stride
  Parameter.positive "element_size" elementSize
  Parameter.positive "burst_size" burstSize
  let spacing ← Parameter.exact "stride" (Word.mul? elementSize stride)
  let elementsInBurst := Word.ceilDiv burstSize spacing
  let step ← Parameter.exact "stride" (Word.mul? stride elementsInBurst)
  let rows := Word.ceilDiv numElements elementsInBurst
  let requestsPerElement := Word.ceilDiv elementSize burstSize
  let pitch ← Parameter.exact "stride" (Word.mul? step elementSize)
  let _ ← Parameter.requestCount "num_elements" (Word.mul? rows requestsPerElement)
  let lastRow ← Parameter.exact "stride" (Word.mul? (lastIndex rows) pitch)
  let _ ← Parameter.exact "start" do
    Word.add? (← Word.add? start lastRow) (lastIndex requestsPerElement)
  Outcome.ofChecked
    (along (grid rows.toNat requestsPerElement.toNat) (columnAddress start pitch) direction)

/-- A walk down the columns of a plane of 512 by 512 elements. -/
def columnAccess (start numElements elementSize burstSize : UInt64) (direction : Direction) :
    Outcome ParameterError (List Request) :=
  columnwise start numElements columnStride elementSize burstSize direction

/-- A walk through a stack of planes, one element of each. -/
def cubeAccess (start numElements elementSize burstSize : UInt64) (direction : Direction) :
    Outcome ParameterError (List Request) :=
  columnwise start numElements cubeStride elementSize burstSize direction

end MemoryReplay.Pattern
