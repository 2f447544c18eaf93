import MemoryReplay.Request
import MemoryReplay.Word

/-!
# Memory systems

What a replay needs of a memory: it is asked whether it takes a request, takes it, and is moved
on by one cycle at a time, telling which requests it has completed.

- `Bus`: width, burst length and clock of the data bus.
- `MemorySystem σ`: a memory whose state is a value of type `σ`. Theorems about a replay hold for
  every instance.
-/

namespace MemoryReplay

/-- The data bus of a memory. -/
structure Bus where
  /-- Width in bits. -/
  bits : UInt64 := 128
  /-- Beats of a burst. -/
  burstLength : UInt64 := 4
  /-- Clock period in nanoseconds. -/
  period : Float := 1.0

/-- Bytes that one burst moves. -/
def Bus.burstSize (bus : Bus) : Checked UInt64 :=
  Word.mul? (bus.bits / 8) bus.burstLength

/-- A memory that is driven cycle by cycle. -/
class MemorySystem (σ : Type) where
  /-- The pseudo-channel of an address. -/
  channelOf : σ → UInt64 → Checked Nat
  /-- The bank of an address inside its pseudo-channel. -/
  bankOf : σ → UInt64 → Checked Nat
  /-- The data bus. -/
  bus : σ → Bus
  /-- Whether a request would be admitted in this cycle. Being asked may change the memory. -/
  accepts : σ → UInt64 → Direction → Checked (Bool × σ)
  /-- Takes a request. Only asked for right after `accepts` said yes to it. -/
  submit : σ → UInt64 → Direction → Checked σ
  /-- From now on completions are reported. -/
  attach : σ → σ
  /-- One cycle: the memory after it, and the completions reported in it, in order. -/
  tick : σ → Checked (σ × List Completion)
  /-- The memory's own statistics. -/
  report : σ → String

end MemoryReplay
