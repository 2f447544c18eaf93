import MemoryReplay.Address.Classifier
import MemoryReplay.DeviceError
import MemoryReplay.Fault
import MemoryReplay.Request
import MemoryReplay.Text.Hex

/-!
# Errors of a replay

What is reported when a trace cannot be distributed over the channels, or a replay not be brought
to its end.
-/

namespace MemoryReplay

/-- What a distribution or a replay reports. -/
inductive SimError where
  /-- An address was classified to a pseudo-channel that does not exist. -/
  | channelOutOfRange (address : UInt64) (channel : Nat)
  /-- The number of queues is not the number of channels. -/
  | channelCount (found : Nat)
  /-- The memory completed a request that was not pending. -/
  | unmatched (completion : Completion) (cycle : Nat)
  /-- The event log could not be written. -/
  | log (e : DeviceError)
  deriving Repr, DecidableEq

/-- The wording of an error of a replay. -/
def SimError.message : SimError → String
  | channelOutOfRange address channel =>
    s!"address 0x{Text.Hex.render address.toNat} classified to pseudo-channel {channel}, "
      ++ s!"expected 0..{pseudoChannels}"
  | channelCount found => s!"driver needs {channels} channel queues, got {found}"
  | unmatched completion cycle =>
    s!"{completion.direction.word} completion for 0x{Text.Hex.render completion.address.toNat} "
      ++ s!"at cycle {cycle} matches no pending transaction"
  | log e => s!"event log: {e.message}"

end MemoryReplay
