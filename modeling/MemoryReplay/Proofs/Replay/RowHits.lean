import MemoryReplay.Proofs.Distribution.Order
import MemoryReplay.Proofs.Replay.Latencies

/-!
# Row hits of the strategies that sort

However the channels take turns, each bank is asked for its requests in the order of one queue. If
the strategy sorts, that order is by address, so the bank opens each of its rows once. Less is not
possible.

- `Timetable.ascending`: every bank sees its rows in ascending order.
- `exists_rowCounters`: what a model with open rows has counted after a replay, and what its
  latencies add up to.
- `row_hits_kept`: the three strategies compared.
-/

namespace MemoryReplay

namespace RunReport.Timetable

variable {c : MemoryConfig} {strategy : Strategy} {trace : List Request} {start : Service}
  {report : RunReport} {last : QueuedMemory Service} {visits : List Visit}

/-- If the strategy sorts, every bank sees its rows in ascending order. -/
theorem ascending (h : report.Timetable c (c.queues strategy trace) start last visits)
    (hstrategy : strategy ≠ .roundRobin) :
    (report.requests.map Request.key).Pairwise c.fields.Ascending := by
  let sorted (r s : Request) : Prop := c.fields.channel r.address = c.fields.channel s.address →
    Distribution.ByAddress c.fields.bank r s
  have hchannel : ∀ k, (report.requests.filter fun r =>
      half (c.fields.channel r.address) = k).Pairwise sorted := by
    intro k
    have hqueue : ((c.queues strategy trace).get k).Pairwise sorted := by
      rw [MemoryConfig.queues, Tally.get_ofFn]
      exact Distribution.queueOf_pairwise c.fields.bank hstrategy c.fields.channel trace k
    -- the order is one of addresses, which stamps do not change
    have hunstamped : (((c.queues strategy trace).get k).map Request.unstamped).Pairwise sorted :=
      List.pairwise_map.mpr hqueue
    rw [← h.queued k] at hunstamped
    exact List.pairwise_map.mp hunstamped
  refine List.pairwise_map.mpr ((Tally.pairwise_of_filter _ hchannel).imp fun {r s} hle => ?_)
  intro hplace
  obtain ⟨hsame, hbank⟩ := Prod.mk.inj hplace
  exact c.fields.row_mono (hle (congrArg half hsame) hsame hbank)

/-- The addresses of a report are those of the trace. -/
theorem toFinset_addresses {β : Type} [DecidableEq β]
    (h : report.Timetable c (c.queues strategy trace) start last visits) (f : UInt64 → β) :
    ((report.requests.map Request.key).map fun key => f key.address).toFinset =
      (trace.map fun r => f r.address).toFinset := by
  have hperm := h.perm_trace.map fun r => f r.address
  rw [List.map_map, List.map_map] at hperm
  rw [List.map_map]
  exact List.toFinset_eq_of_perm _ _ hperm

/-- A model with open rows has counted how its accesses found their rows. -/
theorem exists_counted (h : report.Timetable c (c.queues strategy trace) start last visits)
    (hc : c.Usable) (hstart : c.service = some start) (hmodel : c.model = .rowBuffer) :
    ∃ rows, last.model = .rows rows ∧ ∀ state,
      rows.counted state = (c.fields.founds (report.requests.map Request.key)).count state := by
  obtain ⟨-, hrecalls, hcounted⟩ := MemoryConfig.serve_eq hc hstart h.served
  cases hlast : last.model with
  | fixed model =>
    rw [hlast] at hrecalls
    cases hmodel.symm.trans hrecalls.1
  | rows rows =>
    refine ⟨rows, rfl, fun state => ?_⟩
    have hstate := hcounted state
    rw [hlast, MemoryConfig.outcomes_rows hmodel] at hstate
    exact hstate.trans (List.count_map_of_injective _ _ (Option.some_injective _) state)

end RunReport.Timetable

/-- What a model with open rows has counted after a replay, and what its latencies add up to. -/
theorem exists_rowCounters {c : MemoryConfig} {strategy : Strategy} {trace : List Request}
    {memory : QueuedMemory Service} (hc : c.Usable) (hmodel : c.model = .rowBuffer)
    (hbuild : c.build = some memory)
    (hfits : (replay strategy trace memory Silence.mk).1 ≠ .error .overflow) :
    ∃ report last rows, replay strategy trace memory Silence.mk = (.ok report, last, Silence.mk) ∧
      last.model = .rows rows ∧ rows.hits + rows.conflicts + rows.colds = trace.length ∧
      rows.colds = (trace.map fun r => c.fields.place r.address).toFinset.card ∧
      (trace.map fun r => c.fields.rowPlace r.address).toFinset.card ≤
        rows.colds + rows.conflicts ∧
      (strategy ≠ .roundRobin → rows.colds + rows.conflicts =
        (trace.map fun r => c.fields.rowPlace r.address).toFinset.card) ∧
      last.totalLatency = trace.length * c.rows.cas.toNat +
        (rows.colds + rows.conflicts) * c.rows.ras.toNat + rows.conflicts * c.rows.pre.toNat := by
  have hstart := MemoryConfig.service_of_build hbuild
  obtain ⟨report, last, visits, hreplay, h⟩ := exists_timetable hc hbuild hfits
  obtain ⟨rows, hrows, hcounted⟩ := h.exists_counted hc hstart hmodel
  let keys := report.requests.map Request.key
  have hlength : keys.length = trace.length := by
    have hperm := h.perm_trace.length_eq
    rw [List.length_map, List.length_map] at hperm
    rw [List.length_map, hperm]
  have hhits : rows.hits = (c.fields.founds keys).count .hit := hcounted .hit
  have hconflicts : rows.conflicts = (c.fields.founds keys).count .conflict := hcounted .conflict
  have hcolds : rows.colds = (c.fields.founds keys).count .cold := hcounted .cold
  have hmissed : c.fields.missed keys = rows.colds + rows.conflicts := by
    rw [c.fields.missed_eq, hcolds, hconflicts]
  refine ⟨report, last, rows, hreplay, hrows, ?_, ?_, ?_, fun hstrategy => ?_, ?_⟩
  · rw [hhits, hconflicts, hcolds, c.fields.count_founds_add, hlength]
  · rw [hcolds, c.fields.card_places, h.toFinset_addresses]
  · rw [← hmissed, ← h.toFinset_addresses]
    exact c.fields.card_rows_le keys
  · rw [← hmissed, ← h.toFinset_addresses]
    exact c.fields.card_rows (h.ascending hstrategy)
  · rw [h.total, h.latencies_eq hc hstart, MemoryConfig.sum_latencies hmodel, hmissed, hlength,
      hconflicts]

/-- **The strategies that sort lose no row hit.** Let a trace be replayed with each strategy on a
memory with open rows just built, and let no number leave 64 bits. With both strategies that sort,
the model finds as many banks cold as the trace has banks and opens as many rows as the trace has
rows. So both end with the same counters and the same total latency, and no other order has less. -/
theorem row_hits_kept (c : MemoryConfig) (trace : List Request) (memory : QueuedMemory Service)
    (hvalid : c.validate = .ok ()) (hmodel : c.model = .rowBuffer) (hbuild : c.build = some memory)
    (hfits : ∀ strategy, (replay strategy trace memory Silence.mk).1 ≠ .error .overflow) :
    ∃ (report : Strategy → RunReport) (last : Strategy → QueuedMemory Service)
      (rows : Strategy → RowBuffer),
      (∀ strategy, replay strategy trace memory Silence.mk =
          (.ok (report strategy), last strategy, Silence.mk) ∧
        (last strategy).model = .rows (rows strategy)) ∧
      (∀ strategy, strategy ≠ .roundRobin →
        (rows strategy).colds + (rows strategy).conflicts =
          (trace.map fun r => c.fields.rowPlace r.address).toFinset.card ∧
        (rows strategy).colds = (trace.map fun r => c.fields.place r.address).toFinset.card ∧
        (last strategy).totalLatency ≤ (last .roundRobin).totalLatency) ∧
      (rows .rowLocality).hits = (rows .bankParallel).hits ∧
      (rows .rowLocality).conflicts = (rows .bankParallel).conflicts ∧
      (rows .rowLocality).colds = (rows .bankParallel).colds ∧
      (last .rowLocality).totalLatency = (last .bankParallel).totalLatency := by
  have hc := MemoryConfig.usable_of_validate hvalid
  choose report last rows hreplay hrows hlength hcolds hleast hsorted htotal using
    fun strategy => exists_rowCounters hc hmodel hbuild (hfits strategy)
  have hconflicts : (rows .rowLocality).conflicts = (rows .bankParallel).conflicts := by
    have hlocal := hsorted .rowLocality nofun
    have hparallel := hsorted .bankParallel nofun
    rw [hcolds] at hlocal hparallel
    omega
  have hsame : (rows .rowLocality).colds = (rows .bankParallel).colds := by rw [hcolds, hcolds]
  refine ⟨report, last, rows, fun strategy => ⟨hreplay strategy, hrows strategy⟩,
    fun strategy hstrategy => ⟨hsorted strategy hstrategy, hcolds strategy, ?_⟩, ?_, hconflicts,
    hsame, ?_⟩
  · -- the order of the trace opens at least every row once, too
    have hopened := (hsorted strategy hstrategy).trans_le (hleast .roundRobin)
    have hfewer : (rows strategy).conflicts ≤ (rows .roundRobin).conflicts := by
      rw [hcolds, hcolds] at hopened
      omega
    rw [htotal, htotal]
    exact Nat.add_le_add (Nat.add_le_add_left (Nat.mul_le_mul_right _ hopened) _)
      (Nat.mul_le_mul_right _ hfewer)
  · have hlocal := hlength .rowLocality
    have hparallel := hlength .bankParallel
    omega
  · rw [htotal, htotal, hconflicts, hsame]

/-- Two rows of one bank, and one of another. -/
theorem row_hits_kept_twoRows : ∃ memory, narrowRows.validate = .ok () ∧
    narrowRows.model = .rowBuffer ∧ narrowRows.build = some memory ∧
    (∀ strategy, (replay strategy twoRows memory Silence.mk).1 ≠ .error .overflow) ∧
    ∃ (last : Strategy → QueuedMemory Service) (rows : Strategy → RowBuffer),
      (∀ strategy, (replay strategy twoRows memory Silence.mk).2.1 = last strategy ∧
        (last strategy).model = .rows (rows strategy)) ∧
      ∀ strategy, strategy ≠ .roundRobin →
        (rows strategy).colds + (rows strategy).conflicts = 3 ∧ (rows strategy).colds = 2 ∧
        (last strategy).totalLatency ≤ (last .roundRobin).totalLatency := by
  have hc : narrowRows.Usable := MemoryConfig.usable_of_validate rfl
  obtain ⟨memory, hbuild⟩ := MemoryConfig.exists_build hc
  have hfits := fun strategy => replay_ne_overflow hc hbuild strategy twoRows (by decide)
  obtain ⟨report, last, rows, hreplay, hsorted, -⟩ :=
    row_hits_kept narrowRows twoRows memory rfl rfl hbuild hfits
  refine ⟨memory, rfl, rfl, hbuild, hfits, last, rows, fun strategy => ⟨?_, (hreplay strategy).2⟩,
    fun strategy hstrategy => ?_⟩
  · rw [(hreplay strategy).1]
  · obtain ⟨hopened, hcolds, htotal⟩ := hsorted strategy hstrategy
    exact ⟨hopened, hcolds, htotal⟩

end MemoryReplay
