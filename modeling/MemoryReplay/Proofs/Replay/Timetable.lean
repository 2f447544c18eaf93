import MemoryReplay.Proofs.Replay.Admission
import MemoryReplay.Proofs.Replay.Channels
import MemoryReplay.Proofs.Replay.Stamps

/-!
# The timetable of a built-in replay

Behind every replay on a built-in memory stands a list of visits: which request was admitted when,
and with which latency. It explains all that the report tells.

- `Session.Timed`: books, memory and visits in step. `Timed.step`: a step keeps them so.
- `RunReport.Timetable`: what the visits say of a report and of the memory after the replay.
- `Timetable.perm_trace`: the report lists the requests of the trace.
- `exists_timetable`: every replay of a trace that does not leave 64 bits has a timetable.
-/

namespace MemoryReplay

open History

namespace Session

variable {c : MemoryConfig} {queues : Vector (List Request) channels} {start : Service}
  {s t : QuietSession} {k : Fin channels} {left : List (Fin channels)} {ledger : Ledger}
  {visits : List Visit}

/-- Books, memory and visits are in step, in a cycle in which the channels `left` have not offered
yet. -/
structure Timed (c : MemoryConfig) (queues : Vector (List Request) channels) (start : Service)
    (left : List (Fin channels)) (s : QuietSession) (ledger : Ledger) (visits : List Visit) :
    Prop where
  coupled : s.Coupled c queues ledger []
  hosts : s.memory.Hosts start visits
  stamped : ledger.Stamped visits [] s.driver.cycle
  attentive : Attentive c left s visits

namespace Timed

theorem opening (hc : c.Usable) {m : QueuedMemory Service} (hbuild : c.build = some m) :
    Timed c queues m.model (List.finRange channels)
      (Session.opening queues m Silence.mk).attach [] [] := by
  obtain ⟨-, -, -, htotal, hpending, -, -⟩ := MemoryConfig.orderly_of_build hc hbuild
  refine ⟨.opening hc hbuild, ?_, ⟨rfl, .refl _, .nil⟩, .opening queues _ _⟩
  exact QueuedMemory.Hosts.opening (m := MemorySystem.attach m) hpending htotal

/-- The queue of a pseudo-channel holds the visits of its channel that have not finished. -/
theorem inFlight_eq (h : Timed c queues start left s ledger visits) {j : Fin pseudoChannels}
    (hj : half j = k) : s.memory.inFlight.get j =
      busy c.fields (visits.filter (Visit.isOf c k)) j s.driver.cycle := by
  rw [h.hosts.inFlight_eq h.coupled.orderly, busy_filter c hj, h.coupled.clock]

/-- Whether there is room for a request, in terms of the visits. -/
theorem hasRoom_eq (hc : c.Usable) (h : Timed c queues start left s ledger visits) {a : UInt64}
    (ha : half (c.fields.channel a) = k) : s.memory.hasRoom a = some (decide
      (busy c.fields (visits.filter (Visit.isOf c k)) (c.fields.channel a) s.driver.cycle <
        c.queueDepth.toNat)) := by
  rw [QueuedMemory.hasRoom_eq (h.coupled.inside hc), h.coupled.orderly.fields,
    h.coupled.orderly.depth, h.inFlight_eq ha]

theorem offer (hc : c.Usable) (hrouted : Routed c queues) (hleft : k ∉ left)
    (h : Timed c queues start (k :: left) s ledger visits) (hoffer : s.offer k = .ok t) :
    ∃ ledger visits, Timed c queues start left t ledger visits := by
  have hown := h.coupled.routed_waiting hrouted k
  rcases quiet_offer_eq_ok (h.coupled.inside hc) hoffer with ⟨hq, rfl⟩ | ⟨head, rest, hq, hfull, rfl⟩ |
    ⟨head, rest, latency, model, hq, hroom, hacc, -, hfits, rfl⟩
  · -- nothing to offer
    refine ⟨ledger, visits, h.coupled, h.hosts, h.stamped, h.attentive.passed fun _ _ hq' => ?_⟩
    rw [hq] at hq'
    cases hq'
  · -- refused
    refine ⟨ledger, visits, h.coupled, h.hosts, h.stamped, h.attentive.passed fun head' _ hq' => ?_⟩
    obtain ⟨rfl, -⟩ := List.cons.inj (hq.symm.trans hq')
    rw [h.hasRoom_eq hc (hown head (hq ▸ List.mem_cons_self))] at hfull
    simpa using hfull
  · -- admitted
    have hhead := hown head (hq ▸ List.mem_cons_self)
    rw [h.hasRoom_eq hc hhead] at hroom
    refine ⟨_, _, h.coupled.granted hc hq hacc, ?_, h.stamped.granted head k latency,
      h.attentive.granted hleft hq hhead (by simpa using hroom)⟩
    rw [← h.coupled.clock]
    exact h.hosts.joined head.key hacc hfits

/-- **A step keeps books, memory and visits in step.** -/
theorem step (hc : c.Usable) (hrouted : Routed c queues)
    (h : Timed c queues start (List.finRange channels) s ledger visits) (hstep : s.step = .ok t) :
    ∃ ledger visits, Timed c queues start (List.finRange channels) t ledger visits := by
  rw [quiet_step] at hstep
  obtain ⟨v, hoffers, hcycle⟩ := Progress.andThen_eq_ok hstep
  obtain ⟨ledger, visits, hv⟩ := all_offers_invariant (P := fun left (s : QuietSession) =>
    ∃ ledger visits, Timed c queues start left s ledger visits)
    (fun k left x y hk ⟨_, _, hx⟩ hoffer => hx.offer hc hrouted hk hoffer) ⟨ledger, visits, h⟩ hoffers
  obtain ⟨inFlight, hticked, ht, htcycle, htqueues, htmemory⟩ := hv.coupled.cycle_eq_ok hcycle
  -- the cycle completes the visits that finish in it, and all of them are awaited
  have hstamped : ledger.Stamped visits (v.memory.fired.map Pending.key) (v.driver.cycle + 1) := by
    refine hv.stamped.ticked ?_
    rw [List.map_map, ← hv.coupled.clock]
    exact hv.hosts.fired
  have hawaited : ∀ key, (v.memory.fired.map Pending.key).count key ≤
      ledger.countP (Entry.awaits key) := fun key => by
    rw [hticked.awaited]
    exact Nat.le_add_left ..
  refine ⟨_, visits, ht, ?_, ?_, hv.attentive.ticked (fun w hw => ?_) htcycle htqueues⟩
  · rw [htmemory]
    exact hv.hosts.moved inFlight
  · rw [htcycle]
    exact hstamped.settleAll hawaited
  · rw [← hv.coupled.clock]
    exact hv.hosts.issued w hw

theorem steps (hc : c.Usable) (hrouted : Routed c queues)
    (h : Timed c queues start (List.finRange channels) s ledger visits) {n : Nat}
    (hsteps : Session.steps n s = .ok t) :
    ∃ ledger visits, Timed c queues start (List.finRange channels) t ledger visits :=
  steps_invariant (P := fun t => ∃ ledger visits,
      Timed c queues start (List.finRange channels) t ledger visits)
    (fun _ _ ⟨_, _, hs⟩ hstep => hs.step hc hrouted hstep) ⟨ledger, visits, h⟩ hsteps

end Timed

end Session

/-! ### Reports -/

/-- What the visits say of a report, and of the memory after the replay. -/
structure RunReport.Timetable (c : MemoryConfig) (queues : Vector (List Request) channels)
    (start : Service) (report : RunReport) (last : QueuedMemory Service) (visits : List Visit) :
    Prop where
  /-- The model has given the latencies of the visits, asked for one request after the other. -/
  served : start.serve (report.requests.map Request.key) =
    some (visits.map Visit.latency, last.model)
  total : last.totalLatency = (visits.map Visit.latency).sum
  fits : last.totalLatency < UInt64.size
  arrivals : report.requests.map Request.arrival = visits.map Visit.arrival
  /-- The stamps of the requests are the cycles in which the visits finish. -/
  stamps : (report.requests.map Request.stamp).Perm (visits.map Visit.stamp)
  /-- Requests with one key are stamped in the order of their admission. -/
  inOrder : report.requests.Pairwise fun r r' => r.key = r'.key → r.completeCycle ≤ r'.completeCycle
  issues : visits.Pairwise fun v w => v.issue ≤ w.issue
  completed : ∀ r ∈ report.requests, r.completed = true
  prompt : ∀ k, ∀ past ∈ pasts [] (visits.filter (Visit.isOf c k)),
    Prompt c.fields c.queueDepth.toNat past.1 past.2
  /-- The requests of a channel are its queue. -/
  queued : ∀ k, (report.requests.filter fun r => half (c.fields.channel r.address) = k).map
    Request.unstamped = (queues.get k).map Request.unstamped
  cycles : report.cycles = (visits.map Visit.finish).max?.getD 0

namespace Session

variable {c : MemoryConfig} {queues : Vector (List Request) channels} {start : Service}
  {s : QuietSession} {left : List (Fin channels)} {ledger : Ledger} {visits : List Visit}

/-- When nothing is left to do, all visits have finished. -/
theorem Timed.timetable (h : Timed c queues start left s ledger visits)
    (hrouted : Routed c queues) (hdone : s.driver.isDone = true)
    (hcompleted : ∀ r ∈ s.report.requests, r.completed = true)
    (hcycles : s.report.cycles = (s.report.requests.map Request.completeCycle).max?.getD 0) :
    s.report.Timetable c queues start s.memory visits := by
  obtain ⟨hempty, hsettled⟩ := h.coupled.conserves.all_settled h.coupled.records hdone
  have hrequests : s.report.requests = ledger.map Entry.request := h.coupled.records.slots
  have harrivals : s.report.requests.map Request.arrival = visits.map Visit.arrival := by
    rw [hrequests, List.map_map]
    exact h.stamped.arrivals
  have hkeys : s.report.requests.map Request.key = visits.map Visit.key := by
    have hfst := congrArg (List.map Prod.fst) harrivals
    rw [List.map_map, List.map_map] at hfst
    exact hfst
  -- as many visits have finished as there are entries, so all of them have
  have hall : (ledger.filter fun e => !e.waits) = ledger :=
    List.filter_eq_self.mpr fun e he => by simp [hsettled e he]
  have hstamps := h.stamped.stamps
  rw [hall, List.map_nil, List.append_nil] at hstamps
  have hfinished : (visits.filter fun v => v.finish ≤ s.driver.cycle) = visits := by
    refine List.filter_sublist.eq_of_length ?_
    have hlength := hstamps.length_eq
    have hentries := congrArg List.length h.stamped.arrivals
    rw [List.length_map, List.length_map] at hlength hentries
    omega
  rw [hfinished] at hstamps
  have hperm : (s.report.requests.map Request.stamp).Perm (visits.map Visit.stamp) := by
    rw [hrequests, List.map_map]
    exact hstamps
  refine { served := ?_, total := h.hosts.total, fits := h.hosts.fits, arrivals := harrivals,
           stamps := hperm, inOrder := ?_, issues := h.hosts.inOrder, completed := hcompleted,
           prompt := h.attentive.prompt, queued := fun k => ?_, cycles := ?_ }
  · rw [hkeys]
    exact h.hosts.served
  · rw [hrequests, List.pairwise_map]
    refine h.stamped.inOrder.imp_of_mem fun _ he' hprecedes hsame => ?_
    exact (hprecedes hsame (hsettled _ he')).2
  · have horigin := h.coupled.conserves.origin k
    rw [hempty k, List.map_nil, List.append_nil] at horigin
    rw [← horigin, hrequests, List.filter_map, List.map_map]
    refine congrArg _ (List.filter_congr fun e he => ?_)
    rw [← h.coupled.routed_entry hrouted e he]
    rfl
  · -- the same stamps have the same maximum
    have hsame := hperm.map Prod.snd
    rw [List.map_map, List.map_map] at hsame
    rw [hcycles]
    refine eq_of_forall_ge_iff fun b => ?_
    rw [Tally.max?_getD_le_iff, Tally.max?_getD_le_iff]
    exact ⟨fun h n hn => h n (hsame.mem_iff.mpr hn), fun h n hn => h n (hsame.mem_iff.mp hn)⟩

end Session

variable {c : MemoryConfig} {strategy : Strategy} {trace : List Request}
  {memory : QueuedMemory Service}

/-- The report of a trace lists the requests of the trace. -/
theorem RunReport.Timetable.perm_trace {start : Service} {report : RunReport}
    {last : QueuedMemory Service} {visits : List Visit}
    (h : report.Timetable c (c.queues strategy trace) start last visits) :
    (report.requests.map Request.unstamped).Perm (trace.map Request.unstamped) := by
  refine Tally.perm_of_filter (fun r => half (c.fields.channel r.address)) fun k => ?_
  have hqueue := (Distribution.queueOf_perm strategy c.fields.channel c.fields.bank trace k).map
    Request.unstamped
  have hqueued := h.queued k
  rw [MemoryConfig.queues, Tally.get_ofFn] at hqueued
  rw [List.filter_map, List.filter_map]
  exact (List.Perm.of_eq hqueued).trans hqueue

/-- A replay of a trace on a memory just built ends with a report that has a timetable, unless a
number leaves 64 bits. -/
theorem exists_timetable (hc : c.Usable) (hbuild : c.build = some memory)
    (hfits : (replay strategy trace memory Silence.mk).1 ≠ .error .overflow) :
    ∃ report last visits, replay strategy trace memory Silence.mk = (.ok report, last, Silence.mk) ∧
      report.Timetable c (c.queues strategy trace) memory.model last visits := by
  obtain ⟨hfields, -⟩ := MemoryConfig.orderly_of_build hc hbuild
  have hopening : (Session.opening (c.queues strategy trace) memory Silence.mk).attach.Coupled c
      (c.queues strategy trace) [] [] := .opening hc hbuild
  have hunblamed := hopening.run_unblamed hc
  rcases hrun : (Session.opening (c.queues strategy trace) memory Silence.mk).run with ⟨result, last⟩
  rw [hrun] at hunblamed
  have hreplay := replay_built hc hfields strategy trace hrun
  rw [hreplay] at hfits ⊢
  obtain ⟨report, rfl⟩ : ∃ report, result = .ok report := hunblamed.resolve_right hfits
  obtain ⟨_, hfaithful⟩ := exists_faithful hrun
  obtain ⟨n, u, hsteps, hdone, hd, hm, hreport, -⟩ := Session.run_eq_ok hrun
  have hrouted := routed_queues c strategy trace
  obtain ⟨ledger, visits, htimed⟩ := (Session.Timed.opening hc hbuild).steps hc hrouted hsteps
  obtain rfl : last = u := Session.quiet_ext hd hm
  subst hreport
  refine ⟨last.report, last.memory, visits, rfl, ?_⟩
  exact htimed.timetable hrouted hdone (fun r hr => (hfaithful.completed r hr).1) hfaithful.cycles

end MemoryReplay
