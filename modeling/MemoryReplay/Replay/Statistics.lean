import MemoryReplay.Decimal.Places
import MemoryReplay.Replay.Report

/-!
# Statistics of a replay

What is told of a replay: the memory before it, and the numbers of its report after it.

- `Report.rule`, `Report.thinRule`: the lines that set a text off.
- `Bus.banner`: the geometry of the memory's bus.
- `RunStatistics`: the numbers of a report, with `RunStatistics.ofReport`.
- `RunStatistics.render`: the sections asked for.
- `RunReport.listing`: one line for each request.
-/

namespace MemoryReplay

namespace Report

/-- A heavy line. -/
def rule : String := String.ofList (List.replicate 58 '=')

/-- A light line. -/
def thinRule : String := String.ofList (List.replicate 58 '-')

end Report

/-- The geometry of a bus and its bursts. -/
def Bus.banner (bus : Bus) : Checked String := do
  let burst ← bus.burstSize
  return "\n".intercalate
    [Report.rule,
     "MEMORY CONFIGURATION",
     s!"  bus_bits               {bus.bits}",
     s!"  burst_length           {bus.burstLength}",
     s!"  burst_size             {burst} bytes",
     "  tck                    " ++ Decimal.render 3 bus.period ++ " ns",
     Report.rule]

/-- The numbers of a replay. -/
structure RunStatistics where
  /-- Cycles up to the last completion. -/
  cycles : Nat
  /-- Simulated time in nanoseconds. -/
  elapsed : Float
  requests : Nat
  reads : Nat
  writes : Nat
  /-- Mean latency in cycles. -/
  averageLatency : Float
  /-- Smallest latency in cycles. -/
  minLatency : Nat
  /-- Largest latency in cycles. -/
  maxLatency : Nat
  /-- Requests admitted from each channel. -/
  perChannel : Vector Nat channels

namespace RunStatistics

/-- The statistics of a report. -/
def ofReport (r : RunReport) : Checked RunStatistics := do
  let averageLatency ← r.averageLatency
  let writes := r.requests.countP (·.direction.isWrite)
  return {
    cycles := r.cycles
    elapsed := r.elapsed
    requests := r.requests.length
    reads := r.requests.length - writes
    writes
    averageLatency
    minLatency := r.latencies.min?.getD 0
    maxLatency := r.latencies.max?.getD 0
    perChannel := r.admitted }

/-- The lines of the summary. -/
def summaryLines (s : RunStatistics) : List String :=
  ["\n" ++ Report.rule,
   "DRAM TRACE SIMULATION STATISTICS",
   Report.rule,
   s!"sim_cycles               {s.cycles}",
   "sim_time                 " ++ Decimal.render 2 s.elapsed ++ " ns",
   s!"sim_transactions         {s.requests}",
   s!"sim_reads                {s.reads}",
   s!"sim_writes               {s.writes}",
   Report.thinRule]

/-- The lines of the latencies. -/
def latencyLines (s : RunStatistics) : List String :=
  ["LATENCY",
   "  lat.avg                " ++ Decimal.render 2 s.averageLatency ++ " cycles",
   s!"  lat.min                {s.minLatency} cycles",
   s!"  lat.max                {s.maxLatency} cycles",
   Report.thinRule]

/-- The share of a channel in all requests, in percent. -/
def share (s : RunStatistics) (count : Nat) : Float :=
  RunReport.toFloat count / RunReport.toFloat (max s.requests 1) * 100.0

/-- The lines of the channels. -/
def channelLines (s : RunStatistics) : List String :=
  "CHANNEL DISTRIBUTION" :: (List.finRange channels).map fun channel =>
    let count := s.perChannel.get channel
    s!"  ch[{channel}].admitted         {count} (" ++ Decimal.render 2 (s.share count) ++ "%)"

/-- The sections named in a list, or all of them if the list is empty, and a rule below. -/
def render (s : RunStatistics) (sections : List String) : String :=
  let wanted (name : String) : Bool := sections.isEmpty || sections.contains name
  "\n".intercalate <|
    (if wanted "summary" then s.summaryLines else [])
    ++ (if wanted "latency" then s.latencyLines else [])
    ++ (if wanted "channels" then s.channelLines else [])
    ++ [Report.rule]

end RunStatistics

/-- Every request with its latency, one a line. -/
def RunReport.listing (r : RunReport) : String :=
  "\n".intercalate <| r.requests.map fun request =>
    String.singleton request.direction.token ++ " " ++ Record.addressText request.address
      ++ s!" latency: {request.latency.getD 0} cycles"

end MemoryReplay
