import MemoryReplay.Address.Classifier
import MemoryReplay.FileStore.Tree
import MemoryReplay.Main
import MemoryReplay.Memory.Scripted
import MemoryReplay.Proofs.Replay.Soundness
import MemoryReplay.Proofs.Distribution.Queues
import MemoryReplay.Proofs.Replay.Accounting
import MemoryReplay.Proofs.Replay.Termination
import MemoryReplay.Proofs.Replay.Channels
import MemoryReplay.Proofs.Memory.Assigned
import MemoryReplay.Proofs.Memory.Visits
import MemoryReplay.Proofs.Replay.Stamps
import MemoryReplay.Proofs.Replay.Admission
import MemoryReplay.Proofs.Replay.Timetable
import MemoryReplay.Proofs.Replay.Latencies
import MemoryReplay.Proofs.Replay.Attribution
import MemoryReplay.Proofs.Replay.Depth
import MemoryReplay.Proofs.Distribution.Order
import MemoryReplay.Proofs.Distribution.Success
import MemoryReplay.Proofs.Distribution.Stability
import MemoryReplay.Proofs.Replay.AddressOrder
import MemoryReplay.Proofs.Replay.SameBooks
import MemoryReplay.Proofs.Replay.FirstInFirstOut
import MemoryReplay.Proofs.Replay.ClosedForm
import MemoryReplay.Proofs.Replay.RowHits
import MemoryReplay.Proofs.Address.Permutation
import MemoryReplay.Proofs.Distribution.Lossless
import MemoryReplay.Proofs.Memory.Punctual
import MemoryReplay.Proofs.Replay.Contract
import MemoryReplay.Proofs.Text.Fields
import MemoryReplay.Proofs.Text.Hex
import MemoryReplay.Proofs.TraceFile.Lines
import MemoryReplay.Proofs.TraceFile.Record
import MemoryReplay.Proofs.TraceFile.RoundTrip
import MemoryReplay.Proofs.Replay.Overflow
import MemoryReplay.Proofs.EventLog.Reading
import MemoryReplay.Proofs.EventLog.Streams
import MemoryReplay.Proofs.Replay.Observers
import MemoryReplay.Proofs.EventLog.Keeping
import MemoryReplay.Proofs.Replay.Logged
import MemoryReplay.Proofs.Checked
import MemoryReplay.Proofs.Pattern.Stage
import MemoryReplay.Proofs.Pattern.Sweep
import MemoryReplay.Proofs.CommandLine.Sweep
import MemoryReplay.Proofs.Pattern.Coverage
import MemoryReplay.Proofs.Replay.Unlogged
import MemoryReplay.Proofs.Pattern.Linear
import MemoryReplay.Proofs.Pattern.Columnwise
import MemoryReplay.Proofs.Pattern.Loops
import MemoryReplay.Proofs.Distribution.Rounds
import MemoryReplay.Proofs.Pattern.Bursts
import MemoryReplay.Proofs.Distribution.Banks
import MemoryReplay.Proofs.Distribution.Canonical
import MemoryReplay.Proofs.TraceFile.Concatenation
import MemoryReplay.Proofs.Memory.LastAccess
import MemoryReplay.Proofs.Replay.Unmatched
import MemoryReplay.Proofs.EventLog.Refusals
import MemoryReplay.Proofs.Address.Table
import MemoryReplay.Proofs.Address.Reach
import MemoryReplay.Proofs.Config.Mapping
import MemoryReplay.Proofs.Replay.WaitingList
import MemoryReplay.Proofs.Distribution.Positions
