import MemoryReplay.Proofs.Distribution.Stability
import MemoryReplay.Proofs.Distribution.Success
import MemoryReplay.Proofs.Replay.Timetable

/-!
# Accesses to one address

A strategy may reorder a trace, and eight queues race for admission. But all requests with one
address are in one queue, in the order of the trace, and a queue is admitted in its order, one
request a cycle. So what a write leaves at an address is what the next read there is to find.

- `Faithful.routed`: if a queue holds requests of its own channel only, so does a report.
- `Faithful.atAddress_eq`, `Faithful.pairwise_atAddress`: the requests with one address in a report.
- `address_order_kept`: the requests with one address in the report of a replay.
-/

namespace MemoryReplay

open MemoryReplay.Distribution

theorem map_unstamped_atAddress (a : UInt64) (requests : List Request) :
    (atAddress a requests).map Request.unstamped =
      atAddress a (requests.map Request.unstamped) := by
  unfold atAddress
  rw [List.filter_map]
  rfl

namespace RunReport.Faithful

variable {report : RunReport} {queues : Vector (List Request) channels}
  {origin : List (Fin channels × Request)} {channel : UInt64 → Fin pseudoChannels}

/-- If a queue holds requests of its own channel only, a report has them from their own channel. -/
theorem routed (h : report.Faithful queues origin)
    (hqueues : ∀ k, ∀ r ∈ queues.get k, half (channel r.address) = k) :
    ∀ p ∈ origin, half (channel p.2.address) = p.1 := by
  intro p hp
  have hmem : p.2.unstamped ∈ (queues.get p.1).map Request.unstamped := by
    rw [← h.interleaving p.1]
    exact List.mem_map.mpr ⟨p, List.mem_filter.mpr ⟨hp, by simp⟩, rfl⟩
  obtain ⟨r, hr, hsame⟩ := List.mem_map.mp hmem
  have haddress : r.unstamped.address = p.2.unstamped.address := congrArg Request.address hsame
  show half (channel p.2.unstamped.address) = p.1
  rw [← haddress]
  exact hqueues p.1 r hr

/-- The requests with one address, from the channel of the address. -/
theorem atAddress_eq_filter (h : report.Faithful queues origin)
    (hrouted : ∀ p ∈ origin, half (channel p.2.address) = p.1) (a : UInt64) :
    atAddress a report.requests =
      atAddress a ((origin.filter fun p => p.1 = half (channel a)).map Prod.snd) := by
  unfold atAddress
  rw [h.requests, List.filter_map, List.filter_map, List.filter_filter]
  refine congrArg _ (List.filter_congr fun p hp => ?_)
  by_cases ha : p.2.address = a
  · have hchannel : p.1 = half (channel a) := by rw [← hrouted p hp, ha]
    simp [ha, hchannel]
  · simp [ha]

/-- A report has the requests with one address as the queue of the address has them. -/
theorem atAddress_eq (h : report.Faithful queues origin)
    (hqueues : ∀ k, ∀ r ∈ queues.get k, half (channel r.address) = k) (a : UInt64) :
    (atAddress a report.requests).map Request.unstamped =
      (atAddress a (queues.get (half (channel a)))).map Request.unstamped := by
  rw [h.atAddress_eq_filter (h.routed hqueues) a, map_unstamped_atAddress, List.map_map,
    map_unstamped_atAddress, ← h.interleaving]
  rfl

/-- Requests with one address come from one channel, which admits one of them a cycle at most. -/
theorem pairwise_atAddress (h : report.Faithful queues origin)
    (hqueues : ∀ k, ∀ r ∈ queues.get k, half (channel r.address) = k) (a : UInt64) :
    (atAddress a report.requests).Pairwise fun r r' => r.issueCycle < r'.issueCycle := by
  have hrouted := h.routed hqueues
  have hincreasing := List.pairwise_map.mp h.increasing
  unfold atAddress
  rw [h.requests, List.filter_map, List.pairwise_map]
  refine (hincreasing.filter _).imp_of_mem fun {p q} hp hq hlt => ?_
  obtain ⟨hp, hpa⟩ := List.mem_filter.mp hp
  obtain ⟨hq, hqa⟩ := List.mem_filter.mp hq
  have hpa : p.2.address = a := of_decide_eq_true hpa
  have hqa : q.2.address = a := of_decide_eq_true hqa
  have hchannel : p.1 = q.1 := by rw [← hrouted p hp, ← hrouted q hq, hpa, hqa]
  rcases Prod.Lex.toLex_lt_toLex.mp hlt with hcycle | ⟨-, hlater⟩
  · exact hcycle
  · exact absurd hlater (hchannel ▸ lt_irrefl _)

end RunReport.Faithful

/-- **Accesses to one address keep their order**, with every strategy and over every memory. In the
report of a replay the requests with one address have the directions that they have in the trace,
one after the other, and their cycles of admission strictly increase. -/
theorem address_order_kept {σ ω : Type} [MemorySystem σ] [Observer ω] (strategy : Strategy)
    (trace : List Request) (memory : σ) (observer : ω) {report : RunReport} {last : σ} {after : ω}
    (h : replay strategy trace memory observer = (.ok report, last, after)) (a : UInt64) :
    (atAddress a report.requests).map Request.direction =
        (atAddress a trace).map Request.direction ∧
      (atAddress a report.requests).Pairwise fun r r' => r.issueCycle < r'.issueCycle := by
  obtain ⟨queues, final, hdistribute, hrun, -, -⟩ := replay_eq_ok h
  obtain ⟨-, hget⟩ := distribute_eq_ok hdistribute
  obtain ⟨origin, hfaithful⟩ := exists_faithful hrun
  let channel := channelIn (MemorySystem.channelOf memory)
  have hqueues : ∀ k, ∀ r ∈ queues.get k, half (channel r.address) = k := by
    intro k r hr
    rw [hget] at hr
    exact (mem_queueOf strategy _ _ hr).2
  have hsame := hfaithful.atAddress_eq hqueues a
  rw [hget, queueOf_filter_address _ _ _ _ _ rfl] at hsame
  refine ⟨?_, hfaithful.pairwise_atAddress hqueues a⟩
  have hdirections := congrArg (List.map Request.direction) hsame
  rw [List.map_map, List.map_map] at hdirections
  exact hdirections

/-- A write and a read of one address, with a read of another row of the bank between them. -/
def writeThenRead : List Request := [.fresh 0x40000 .write, .fresh 0 .read, .fresh 0x40000 .read]

/-- The strategy asks for the other row first, and the write still comes before the read. -/
theorem address_order_kept_writeThenRead : ∃ memory report last,
    narrowRows.build = some memory ∧
    replay .bankParallel writeThenRead memory Silence.mk = (.ok report, last, Silence.mk) ∧
    (atAddress 0x40000 report.requests).map Request.direction = [.write, .read] ∧
    (atAddress 0x40000 report.requests).Pairwise fun r r' => r.issueCycle < r'.issueCycle := by
  have hc : narrowRows.Usable := MemoryConfig.usable_of_validate rfl
  obtain ⟨memory, hbuild⟩ := MemoryConfig.exists_build hc
  have hfits := replay_ne_overflow hc hbuild .bankParallel writeThenRead (by decide)
  obtain ⟨report, last, -, hreplay, -⟩ := exists_timetable hc hbuild hfits
  obtain ⟨hdirections, hincreasing⟩ :=
    address_order_kept .bankParallel writeThenRead memory Silence.mk hreplay 0x40000
  exact ⟨memory, report, last, hbuild, hreplay, hdirections, hincreasing⟩

end MemoryReplay
