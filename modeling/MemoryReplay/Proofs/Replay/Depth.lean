import MemoryReplay.Proofs.Replay.Latencies

/-!
# Deeper queues

What becomes of the requests of a channel depends on the order in which the channel admits them,
and this order is that of its queue. So the depth of the queues does not change any latency, and
deeper queues only make the replay faster.

- `AdmittedNoLater`: the same request with the same latency, admitted no later.
- `Timetable.visits_of_channel`: the requests of a channel with their latencies, from its queue.
- `deeper_queues_no_slower`: two replays that differ in the depth of the queues.
-/

namespace MemoryReplay

/-- The same request with the same latency, admitted no later. -/
structure AdmittedNoLater (p p' : Request × Nat) : Prop where
  key : p'.1.key = p.1.key
  latency : p'.2 = p.2
  issue : p'.1.issueCycle ≤ p.1.issueCycle

variable {c : MemoryConfig} {queues : Vector (List Request) channels} {start start' : Service}
  {report report' : RunReport} {last last' : QueuedMemory Service} {visits visits' : List Visit}

/-- The configuration with queues of another depth. -/
def MemoryConfig.withDepth (c : MemoryConfig) (depth : UInt64) : MemoryConfig :=
  { c with queueDepth := depth }

theorem MemoryConfig.Usable.withDepth (hc : c.Usable) {depth : UInt64}
    (hdepth : c.queueDepth ≤ depth) : (c.withDepth depth).Usable :=
  ⟨Nat.lt_of_lt_of_le hc.depth (UInt64.le_iff_toNat_le.mp hdepth), hc.fields⟩

namespace RunReport.Timetable

/-- A channel is asked for the requests of its queue. -/
theorem keys_of_channel (h : report.Timetable c queues start last visits) (k : Fin channels) :
    (report.requests.map Request.key).filter (fun key => half (c.fields.channel key.address) = k) =
      (queues.get k).map Request.key := by
  have hqueued := congrArg (List.map Request.key) (h.queued k)
  rw [List.map_map, List.map_map] at hqueued
  rw [List.filter_map]
  exact hqueued

/-- The requests of a channel with their latencies. -/
theorem visits_of_channel (h : report.Timetable c queues start last visits) (hc : c.Usable)
    (hstart : c.service = some start) (k : Fin channels) :
    ((visits.filter (Visit.isOf c k)).map fun v => (v.key, v.latency)) =
      (c.outcomes ((queues.get k).map Request.key)).map fun o => (o.1, c.cyclesOf o) := by
  have houtcomes := congrArg
    (List.filter fun p : Completion × Nat => half (c.fields.channel p.1.address) = k)
    (h.outcomes_eq hc hstart)
  rw [List.filter_map, List.filter_map] at houtcomes
  rw [← h.keys_of_channel k, ← c.outcomes_filter k]
  exact houtcomes

/-- The requests of a channel with the latencies that they were given are its visits. -/
theorem zip_of_channel (h : report.Timetable c queues start last visits) (k : Fin channels) :
    (((report.requests.zip (visits.map Visit.latency)).filter
      fun p => half (c.fields.channel p.1.address) = k).map fun p => (p.1.arrival, p.2)) =
        (visits.filter (Visit.isOf c k)).map fun v => (v.arrival, v.latency) := by
  have hzip := congrArg (List.filter fun x : (Completion × Nat) × Nat =>
    half (c.fields.channel x.1.1.address) = k) h.zip_latencies
  rw [List.filter_map, List.filter_map] at hzip
  exact hzip

/-- What becomes of the requests does not depend on how the channels take turns. -/
theorem outcomes_perm {c' : MemoryConfig} (h : report.Timetable c queues start last visits)
    (h' : report'.Timetable c' queues start' last' visits') (hfields : c'.fields = c.fields) :
    (c.outcomes (report.requests.map Request.key)).Perm
      (c.outcomes (report'.requests.map Request.key)) := by
  refine Tally.perm_of_filter (fun o => half (c.fields.channel o.1.address)) fun k => .of_eq ?_
  have hkeys := h'.keys_of_channel k
  rw [hfields] at hkeys
  rw [c.outcomes_filter k, c.outcomes_filter k, h.keys_of_channel k, hkeys]

/-! ### Two depths -/

variable {depth : UInt64}

/-- The depth of the queues does not change what becomes of the requests of a channel, and with
deeper queues none of them is admitted later. -/
theorem noLater (h : report.Timetable c queues start last visits)
    (h' : report'.Timetable (c.withDepth depth) queues start last' visits') (hc : c.Usable)
    (hdepth : c.queueDepth ≤ depth) (hstart : c.service = some start) (k : Fin channels) :
    List.Forall₂ Visit.NoLater (visits.filter (Visit.isOf c k))
      (visits'.filter (Visit.isOf c k)) := by
  refine noLater_of_prompt (UInt64.le_iff_toNat_le.mp hdepth) .nil ?_ (h.prompt k) (h'.prompt k)
  rw [h.visits_of_channel hc hstart k]
  exact (h'.visits_of_channel (hc.withDepth hdepth) hstart k).symm

/-- The same for the requests of a channel with the latencies that they were given. -/
theorem admittedNoLater (h : report.Timetable c queues start last visits)
    (h' : report'.Timetable (c.withDepth depth) queues start last' visits') (hc : c.Usable)
    (hdepth : c.queueDepth ≤ depth) (hstart : c.service = some start) (k : Fin channels) :
    List.Forall₂ AdmittedNoLater
      ((report.requests.zip (visits.map Visit.latency)).filter
        fun p => half (c.fields.channel p.1.address) = k)
      ((report'.requests.zip (visits'.map Visit.latency)).filter
        fun p => half (c.fields.channel p.1.address) = k) := by
  -- what is compared is what the visits say
  have hvisits : List.Forall₂ (fun x y : (Completion × Nat) × Nat =>
      y.1.1 = x.1.1 ∧ y.2 = x.2 ∧ y.1.2 ≤ x.1.2)
      ((visits.filter (Visit.isOf c k)).map fun v => (v.arrival, v.latency))
      ((visits'.filter (Visit.isOf c k)).map fun v => (v.arrival, v.latency)) := by
    rw [List.forall₂_map_left_iff, List.forall₂_map_right_iff]
    exact (h.noLater h' hc hdepth hstart k).imp fun v w hle => ⟨hle.key, hle.latency, hle.issue⟩
  have hzip' : _ = (visits'.filter (Visit.isOf c k)).map fun v => (v.arrival, v.latency) :=
    h'.zip_of_channel k
  rw [← h.zip_of_channel k, ← hzip', List.forall₂_map_left_iff, List.forall₂_map_right_iff] at hvisits
  exact hvisits.imp fun p q hle => ⟨hle.1, hle.2.1, hle.2.2⟩

/-- With deeper queues the last request finishes no later. -/
theorem cycles_le (h : report.Timetable c queues start last visits)
    (h' : report'.Timetable (c.withDepth depth) queues start last' visits') (hc : c.Usable)
    (hdepth : c.queueDepth ≤ depth) (hstart : c.service = some start) :
    report'.cycles ≤ report.cycles := by
  rw [h.cycles, h'.cycles]
  refine Tally.max?_getD_le_iff.mpr fun n hn => ?_
  obtain ⟨w, hw, rfl⟩ := List.mem_map.mp hn
  -- the same visit with the other depth finishes no earlier
  have hmem : w ∈ visits'.filter (Visit.isOf c (half (c.fields.channel w.key.address))) :=
    List.mem_filter.mpr ⟨hw, by simp [Visit.isOf]⟩
  obtain ⟨v, hv, hle⟩ := exists_noLater (h.noLater h' hc hdepth hstart _) hmem
  have hmax := Tally.max?_getD_le_iff.mp (Nat.le_refl _) v.finish
    (List.mem_map_of_mem (List.mem_of_mem_filter hv))
  exact Nat.le_trans hle.finish hmax

/-- The depth of the queues does not change the sum of the recorded latencies. -/
theorem sum_eq (h : report.Timetable c queues start last visits)
    (h' : report'.Timetable (c.withDepth depth) queues start last' visits') (hc : c.Usable)
    (hdepth : c.queueDepth ≤ depth) (hstart : c.service = some start) :
    (report.requests.map Request.stampedLatency).sum =
      (report'.requests.map Request.stampedLatency).sum := by
  have hgiven : (visits.map Visit.latency).Perm (visits'.map Visit.latency) := by
    rw [h.latencies_eq hc hstart, h'.latencies_eq (hc.withDepth hdepth) hstart]
    exact (h.outcomes_perm h' rfl).map c.cyclesOf
  have hsum := (hgiven.map (max 1)).sum_eq
  rw [List.map_map, List.map_map] at hsum
  rw [h.sum_stampedLatency, h'.sum_stampedLatency]
  exact hsum

/-- The depth of the queues does not change what the model has counted. -/
theorem counters_eq (h : report.Timetable c queues start last visits)
    (h' : report'.Timetable (c.withDepth depth) queues start last' visits') (hc : c.Usable)
    (hstart : c.service = some start) :
    LatencyModel.counters last.model = LatencyModel.counters last'.model := by
  obtain ⟨-, hrecalls, hcounted⟩ := MemoryConfig.serve_eq hc hstart h.served
  obtain ⟨-, hrecalls', hcounted'⟩ := MemoryConfig.serve_eq hc hstart h'.served
  refine MemoryConfig.counters_eq hrecalls hrecalls' fun state => ?_
  rw [hcounted, hcounted']
  exact ((h.outcomes_perm h' rfl).map Prod.snd).count_eq _

end RunReport.Timetable

/-- **Deeper queues are never slower.** Let a trace be replayed on two memories just built that
differ in the depth of their queues only, and let no number leave 64 bits. Then each channel has the
requests of its queue admitted in the same order and with the same latencies, with the deeper queues
none of them later; the counters of the model and the sum of the recorded latencies are the same,
and with the deeper queues the replay takes no more cycles. -/
theorem deeper_queues_no_slower (c : MemoryConfig) (depth : UInt64) (strategy : Strategy)
    (trace : List Request) (memory memory' : QueuedMemory Service) (hvalid : c.validate = .ok ())
    (hdepth : c.queueDepth ≤ depth) (hbuild : c.build = some memory)
    (hbuild' : (c.withDepth depth).build = some memory')
    (hfits : (replay strategy trace memory Silence.mk).1 ≠ .error .overflow)
    (hfits' : (replay strategy trace memory' Silence.mk).1 ≠ .error .overflow) :
    ∃ report last given report' last' given',
      replay strategy trace memory Silence.mk = (.ok report, last, Silence.mk) ∧
      memory.model.serve (report.requests.map Request.key) = some (given, last.model) ∧
      replay strategy trace memory' Silence.mk = (.ok report', last', Silence.mk) ∧
      memory'.model.serve (report'.requests.map Request.key) = some (given', last'.model) ∧
      (∀ k, (report.requests.filter fun r => half (c.fields.channel r.address) = k).map
          Request.unstamped = ((c.queues strategy trace).get k).map Request.unstamped ∧
        List.Forall₂ AdmittedNoLater
          ((report.requests.zip given).filter fun p => half (c.fields.channel p.1.address) = k)
          ((report'.requests.zip given').filter fun p => half (c.fields.channel p.1.address) = k)) ∧
      LatencyModel.counters last.model = LatencyModel.counters last'.model ∧
      (report.requests.map Request.stampedLatency).sum =
        (report'.requests.map Request.stampedLatency).sum ∧
      report'.cycles ≤ report.cycles := by
  have hc := MemoryConfig.usable_of_validate hvalid
  have hstart := MemoryConfig.service_of_build hbuild
  -- the model does not depend on the depth
  have hmodel : memory'.model = memory.model :=
    Option.some.inj ((MemoryConfig.service_of_build hbuild').symm.trans hstart)
  obtain ⟨report, last, visits, hreplay, h⟩ := exists_timetable hc hbuild hfits
  obtain ⟨report', last', visits', hreplay', h'⟩ :=
    exists_timetable (hc.withDepth hdepth) hbuild' hfits'
  have hserved' := h'.served
  rw [hmodel] at h'
  exact ⟨report, last, visits.map Visit.latency, report', last', visits'.map Visit.latency, hreplay,
    h.served, hreplay', hserved',
    fun k => ⟨h.queued k, h.admittedNoLater h' hc hdepth hstart k⟩,
    h.counters_eq h' hc hstart, h.sum_eq h' hc hdepth hstart, h.cycles_le h' hc hdepth hstart⟩

/-- With room for a second request in the pseudo-channel, the second row need not wait. -/
theorem deeper_queues_no_slower_twoRows : ∃ memory memory', narrowRows.validate = .ok () ∧
    narrowRows.queueDepth ≤ 2 ∧ narrowRows.build = some memory ∧
    (narrowRows.withDepth 2).build = some memory' ∧
    (replay .rowLocality twoRows memory Silence.mk).1 ≠ .error .overflow ∧
    (replay .rowLocality twoRows memory' Silence.mk).1 ≠ .error .overflow ∧
    ∃ report last report' last',
      replay .rowLocality twoRows memory Silence.mk = (.ok report, last, Silence.mk) ∧
      replay .rowLocality twoRows memory' Silence.mk = (.ok report', last', Silence.mk) ∧
      LatencyModel.counters last.model = LatencyModel.counters last'.model ∧
      (report.requests.map Request.stampedLatency).sum =
        (report'.requests.map Request.stampedLatency).sum ∧
      report'.cycles ≤ report.cycles := by
  have hc : narrowRows.Usable := MemoryConfig.usable_of_validate rfl
  have hc' : (narrowRows.withDepth 2).Usable := MemoryConfig.usable_of_validate rfl
  obtain ⟨memory, hbuild⟩ := MemoryConfig.exists_build hc
  obtain ⟨memory', hbuild'⟩ := MemoryConfig.exists_build hc'
  have hfits := replay_ne_overflow hc hbuild .rowLocality twoRows (by decide)
  have hfits' := replay_ne_overflow hc' hbuild' .rowLocality twoRows (by decide)
  obtain ⟨report, last, -, report', last', -, hreplay, -, hreplay', -, -, hcounters, hsum, hcycles⟩ :=
    deeper_queues_no_slower narrowRows 2 .rowLocality twoRows memory memory' rfl (by decide) hbuild
      hbuild' hfits hfits'
  exact ⟨memory, memory', rfl, by decide, hbuild, hbuild', hfits, hfits', report, last, report',
    last', hreplay, hreplay', hcounters, hsum, hcycles⟩

end MemoryReplay
