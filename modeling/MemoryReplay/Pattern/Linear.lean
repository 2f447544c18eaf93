import MemoryReplay.Parameter
import MemoryReplay.Request

/-!
# Linear patterns

Traces whose addresses lie at equal distances. A pattern is checked as a whole before its first
request is made: its size, and its last address. The address formulas are evaluated in checked
arithmetic, so an address that is emitted is the exact value of its formula.

- `Pattern.along`: the requests of a checked address formula along an index list.
- `Pattern.sequential`: a sweep in bursts.
- `Pattern.strided`: one word out of every `stride`.
- `Pattern.indexedStride`: elements at a power of two apart.
-/

namespace MemoryReplay.Pattern

/-- Fresh requests at the addresses that a formula takes along a list of indices. -/
def along {ι : Type} (indices : List ι) (formula : ι → Checked UInt64) (direction : Direction) :
    Checked (List Request) :=
  indices.mapM fun i => (formula i).map fun a => .fresh a direction

/-- The last of `count` indices from zero on; zero also for none. -/
def lastIndex (count : UInt64) : UInt64 :=
  if count = 0 then 0 else count - 1

/-- The address `start + i * step`. -/
def linearAddress (start step : UInt64) (i : Nat) : Checked UInt64 := do
  Word.add? start (← Word.mul? (← Word.ofNat? i) step)

/-- A sweep over `numElements * elementSize` bytes, one request for each whole burst. -/
def sequential (start numElements elementSize burstSize : UInt64) (direction : Direction) :
    Outcome ParameterError (List Request) := do
  Parameter.positive "burst_size" burstSize
  let bytes ← Parameter.exact "num_elements" (Word.mul? numElements elementSize)
  let count := bytes / burstSize
  let requests ← Parameter.requestCount "num_elements" (some count)
  let reach ← Word.mul? (lastIndex count) burstSize
  let _ ← Parameter.exact "start" (Word.add? start reach)
  Outcome.ofChecked (along (List.range requests) (linearAddress start burstSize) direction)

/-- Shift from a word's index to its byte address: words have 32 bytes. -/
def wordShift : Nat := 5

/-- The address of word `i * stride` above `start`. -/
def stridedAddress (start stride : UInt64) (i : Nat) : Checked UInt64 := do
  Word.add? start (← Word.shiftLeft? (← Word.mul? (← Word.ofNat? i) stride) wordShift)

/-- One request for each of `elements` words, `stride` words apart. -/
def strided (start stride elements : UInt64) (direction : Direction) :
    Outcome ParameterError (List Request) := do
  let requests ← Parameter.requestCount "elements" (some elements)
  let lastWord ← Parameter.exact "stride" (Word.mul? (lastIndex elements) stride)
  let reach ← Parameter.exact "stride" (Word.scale? lastWord wordShift)
  let _ ← Parameter.exact "start" (Word.add? start reach)
  Outcome.ofChecked (along (List.range requests) (stridedAddress start stride) direction)

/-- The address of element `startIndex + i * stride`. -/
def indexedAddress (startIndex stride elementSize : UInt64) (i : Nat) : Checked UInt64 := do
  let index ← Word.add? startIndex (← Word.mul? (← Word.ofNat? i) stride)
  Word.mul? index elementSize

/-- One request for each of `count` elements from `startIndex` on, `2 ^ strideExp` elements
apart. -/
def indexedStride (startIndex : UInt64) (strideExp : UInt32) (count elementSize : UInt64)
    (direction : Direction) : Outcome ParameterError (List Request) := do
  if 64 ≤ strideExp.toNat then
    Outcome.report ⟨"stride_exp", .shiftTooWide strideExp⟩
  let stride ← Word.shiftLeft? 1 strideExp.toNat
  let requests ← Parameter.requestCount "count" (some count)
  let last ← Parameter.exact "start_idx" do
    Word.add? startIndex (← Word.mul? (lastIndex count) stride)
  let _ ← Parameter.exact "element_size" (Word.mul? last elementSize)
  Outcome.ofChecked
    (along (List.range requests) (indexedAddress startIndex stride elementSize) direction)

end MemoryReplay.Pattern
