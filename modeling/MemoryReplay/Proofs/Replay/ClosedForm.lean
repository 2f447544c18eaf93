import MemoryReplay.Proofs.Replay.Depth

/-!
# Timing in closed form

A request is under way for as many cycles as its latency, and a channel admits one request in a
cycle. So queues as deep as the longest latency never fill up: no request is refused, every channel
admits its queue without a pause, and the cycles of the whole replay can be computed.

- `Service.Assigns`: the latencies that a model can give. `assigned_le`: none is longer than the
  configuration allows.
- `busy_lt`: a queue that is deep enough has room.
- `issues_eq_range`: then a channel admits a request in every cycle.
- `Session.Unrefused`: a replay none of whose requests has been refused. `Unrefused.step`: it stays
  one. `run_unrefused`: so it ends as one.
- `RunReport.ofChannel`: the requests of a channel, with their latencies.
- `timing_closed_form`: the cycles of admission and the length of the replay.
-/

namespace MemoryReplay

open History

namespace Service

/-- Asked for some accesses, the model gives this latency to one of them. -/
def Assigns (s : Service) (latency : Nat) : Prop :=
  ∃ keys latencies t, s.serve keys = some (latencies, t) ∧ latency ∈ latencies

theorem assigned_le {c : MemoryConfig} {s : Service} {latency : Nat} (hc : c.Usable)
    (h : c.Serves s) (hassigns : s.Assigns latency) : latency ≤ c.worstLatency := by
  obtain ⟨keys, latencies, t, hserve, hmem⟩ := hassigns
  induction keys generalizing s latencies with
  | nil =>
    obtain ⟨rfl, -⟩ := Prod.mk.inj (Option.some.inj hserve)
    cases hmem
  | cons key rest ih =>
    obtain ⟨n, u, later, hacc, hrest, rfl⟩ := serve_cons_eq_some.mp hserve
    obtain ⟨hn, hu⟩ := serves_access hc h hacc
    rcases List.mem_cons.mp hmem with rfl | hmem
    · exact hn
    · exact ih hu _ hrest hmem

end Service

/-! ### Queues that are deep enough -/

section

variable {fields : AddressFields} {depth cycle : Nat} {visits before : List Visit} {v : Visit}

/-- Of visits in different cycles, fewer are under way than the longest takes. -/
theorem busy_lt (hdepth : 0 < depth) (hshort : ∀ v ∈ visits, max 1 v.latency ≤ depth)
    (hnodup : (visits.map Visit.issue).Nodup) (hearlier : ∀ v ∈ visits, v.issue < cycle)
    (j : Fin pseudoChannels) : busy fields visits j cycle < depth := by
  let under := visits.filter fun v => fields.channel v.key.address = j ∧ cycle < v.finish
  -- those under way were admitted in the last `depth - 1` cycles, no two in one of them
  have hrecent : under.map Visit.issue ⊆ List.range' (cycle + 1 - depth) (depth - 1) := by
    intro n hn
    obtain ⟨v, hv, rfl⟩ := List.mem_map.mp hn
    obtain ⟨hmem, hbusy⟩ := List.mem_filter.mp hv
    have hfinish : cycle < v.issue + max 1 v.latency := (of_decide_eq_true hbusy).2
    have hissue := hearlier v hmem
    have hlatency := hshort v hmem
    rw [List.mem_range'_1]
    omega
  have hdistinct : (under.map Visit.issue).Nodup := hnodup.sublist (List.filter_sublist.map _)
  have hlength := (hdistinct.subperm hrecent).length_le
  rw [List.length_map, List.length_range'] at hlength
  have hbusy : busy fields visits j cycle = under.length := List.countP_eq_length_filter
  omega

/-- After visits in all cycles so far, the next one is in the next cycle. -/
theorem Prompt.issue_eq (h : Prompt fields depth before v) (hdepth : 0 < depth)
    (hshort : ∀ w ∈ before, max 1 w.latency ≤ depth)
    (hbefore : before.map Visit.issue = (List.range before.length).reverse) :
    v.issue = before.length := by
  have hearlier : ∀ w ∈ before, w.issue < before.length := by
    intro w hw
    have hmem := List.mem_map_of_mem (f := Visit.issue) hw
    rw [hbefore] at hmem
    simpa using hmem
  refine Nat.le_antisymm (Nat.le_of_not_lt fun hlater => ?_) ?_
  · -- otherwise the queue would have been full in that cycle
    have hfull := h.first before.length hlater hearlier
    have hnodup : (before.map Visit.issue).Nodup := by
      rw [hbefore]
      exact List.nodup_reverse.mpr List.nodup_range
    exact absurd hfull (Nat.not_le.mpr (busy_lt hdepth hshort hnodup hearlier _))
  · cases hlength : before.length with
    | zero => exact Nat.zero_le _
    | succ n =>
      have hmem : n ∈ before.map Visit.issue := by
        rw [hbefore, hlength]
        simp
      obtain ⟨w, hw, rfl⟩ := List.mem_map.mp hmem
      exact h.after w hw

theorem issues_eq_range' (hdepth : 0 < depth)
    (hbefore : before.map Visit.issue = (List.range before.length).reverse)
    (hshort : ∀ v ∈ before ++ visits, max 1 v.latency ≤ depth)
    (hprompt : ∀ past ∈ pasts before visits, Prompt fields depth past.1 past.2) :
    visits.map Visit.issue = List.range' before.length visits.length := by
  induction visits generalizing before with
  | nil => rfl
  | cons v rest ih =>
    obtain ⟨hv, hrest⟩ := List.forall_mem_cons.mp hprompt
    have hissue : v.issue = before.length :=
      hv.issue_eq hdepth (fun w hw => hshort w (List.mem_append_left _ hw)) hbefore
    have hnext : (v :: before).map Visit.issue = (List.range (v :: before).length).reverse := by
      rw [List.map_cons, hbefore, hissue, List.length_cons, List.range_succ, List.reverse_append]
      rfl
    have hlater := ih hnext (fun w hw => hshort w (by simpa [or_left_comm] using hw)) hrest
    rw [List.map_cons, hissue, hlater, List.length_cons, List.length_cons, List.range'_succ]

/-- **A channel with deep queues admits a request in every cycle.** -/
theorem issues_eq_range (hdepth : 0 < depth) (hshort : ∀ v ∈ visits, max 1 v.latency ≤ depth)
    (hprompt : ∀ past ∈ pasts [] visits, Prompt fields depth past.1 past.2) :
    visits.map Visit.issue = List.range visits.length := by
  rw [List.range_eq_range']
  exact issues_eq_range' hdepth rfl hshort hprompt

end

/-! ### No refusals -/

namespace Session

variable {c : MemoryConfig} {queues : Vector (List Request) channels} {start : Service}
  {k : Fin channels} {left : List (Fin channels)} {ledger : Ledger} {visits : List Visit}

/-- While a channel has still to offer, there is room for its requests. -/
theorem Timed.hasRoom {s : QuietSession} (hc : c.Usable)
    (hdeep : ∀ latency, start.Assigns latency → max 1 latency ≤ c.queueDepth.toNat)
    (h : Timed c queues start (k :: left) s ledger visits) {a : UInt64}
    (ha : half (c.fields.channel a) = k) : s.memory.hasRoom a = some true := by
  have hshort : ∀ v ∈ visits.filter (Visit.isOf c k), max 1 v.latency ≤ c.queueDepth.toNat :=
    fun v hv => hdeep v.latency ⟨_, _, _, h.hosts.served,
      List.mem_map_of_mem (List.mem_of_mem_filter hv)⟩
  have hissues := issues_eq_range hc.depth hshort (h.attentive.prompt k)
  have hroom : busy c.fields (visits.filter (Visit.isOf c k)) (c.fields.channel a) s.driver.cycle <
      c.queueDepth.toNat :=
    busy_lt hc.depth hshort (hissues ▸ List.nodup_range) (h.attentive.free k List.mem_cons_self) _
  rw [h.hasRoom_eq hc ha, decide_eq_true hroom]

/-- A replay over a memory with a record, with books, memory and visits in step, and with no request
refused so far. The channels `left` have not offered yet. -/
structure Unrefused (c : MemoryConfig) (queues : Vector (List Request) channels) (start : Service)
    (left : List (Fin channels)) (s : Session (Recorded (QueuedMemory Service)) Silence) : Prop where
  calls : ∀ a direction, MemoryCall.accepts a direction false ∉ s.memory.calls
  timed : ∃ ledger visits, Timed c queues start left (s.mapMemory Recorded.memory) ledger visits

namespace Unrefused

variable {s t : Session (Recorded (QueuedMemory Service)) Silence} (hc : c.Usable)
  (hrouted : Routed c queues)
  (hdeep : ∀ latency, start.Assigns latency → max 1 latency ≤ c.queueDepth.toNat)

include hc hrouted hdeep

theorem offer (hleft : k ∉ left) (h : s.Unrefused c queues start (k :: left))
    (hoffer : s.offer k = .ok t) : t.Unrefused c queues start left := by
  obtain ⟨ledger, visits, htimed⟩ := h.timed
  have hplain : (s.mapMemory Recorded.memory).offer k = .ok (t.mapMemory Recorded.memory) := by
    rw [← offer_mapMemory (Recorded.projects _), hoffer]
    rfl
  refine ⟨?_, htimed.offer hc hrouted hleft hplain⟩
  rcases offer_eq_ok hoffer with ⟨-, rfl⟩ | ⟨head, rest, memory, hq, hasked, rfl⟩ |
    ⟨head, rest, asked, memory, hq, hasked, hsubmit, -, hm⟩
  · exact h.calls
  · -- there is room, so the answer was yes
    have hhead := htimed.coupled.routed_waiting hrouted k head (hq ▸ List.mem_cons_self)
    have hroom : s.memory.memory.hasRoom head.address = some true := htimed.hasRoom hc hdeep hhead
    have hyes : MemorySystem.accepts s.memory head.address head.direction = some
        (true, s.memory.note (.accepts head.address head.direction true) s.memory.memory) := by
      show Option.map _ (Option.map _ (s.memory.memory.hasRoom head.address)) = _
      rw [hroom]
      rfl
    rw [hyes] at hasked
    cases hasked
  · obtain ⟨_, -, rfl⟩ := Recorded.accepts_eq_some hasked
    obtain ⟨_, -, rfl⟩ := Recorded.submit_eq_some hsubmit
    rw [hm]
    intro a direction hmem
    exact h.calls a direction (by simpa [Recorded.note] using hmem)

/-- **A step refuses no request.** -/
theorem step (h : s.Unrefused c queues start (List.finRange channels)) (hstep : s.step = .ok t) :
    t.Unrefused c queues start (List.finRange channels) := by
  obtain ⟨ledger, visits, htimed⟩ := h.timed
  have hplain : (s.mapMemory Recorded.memory).step = .ok (t.mapMemory Recorded.memory) := by
    rw [← step_mapMemory (Recorded.projects _), hstep]
    rfl
  refine ⟨?_, htimed.step hc hrouted hplain⟩
  obtain ⟨u, v, w, hd, hm, hoffers, hadvance, hdeliver⟩ := step_eq_ok hstep
  have hu : u.Unrefused c queues start (List.finRange channels) := by
    refine ⟨hm ▸ h.calls, ledger, visits, ?_⟩
    have hsame : u.mapMemory Recorded.memory = s.mapMemory Recorded.memory :=
      quiet_ext hd (congrArg Recorded.memory hm)
    rw [hsame]
    exact htimed
  have hv := all_offers_invariant
    (P := fun left (s : Session (Recorded (QueuedMemory Service)) Silence) =>
      s.Unrefused c queues start left)
    (fun k left x y hk hx hoffer => hx.offer hc hrouted hdeep hk hoffer) hu hoffers
  obtain ⟨_, events, htick, -, rfl⟩ := advance_eq_ok hadvance
  obtain ⟨_, -, rfl⟩ := Recorded.tick_eq_some htick
  obtain ⟨x, -, hx, hsettles⟩ := deliver_eq_ok hdeliver
  rw [(settles_frame hsettles).2.2.2.2, hx]
  intro a direction hmem
  exact hv.calls a direction (by simpa [Recorded.note] using hmem)

theorem steps (h : s.Unrefused c queues start (List.finRange channels)) {n : Nat}
    (hsteps : Session.steps n s = .ok t) : t.Unrefused c queues start (List.finRange channels) :=
  steps_invariant (P := fun t => t.Unrefused c queues start (List.finRange channels))
    (fun _ _ hs hstep => hs.step hc hrouted hdeep hstep) h hsteps

end Unrefused

/-- **A replay on a memory just built refuses no request** if its queues are deep enough. -/
theorem run_unrefused {memory : QueuedMemory Service} {report : RunReport}
    {last : Session (Recorded (QueuedMemory Service)) Silence} (hc : c.Usable)
    (hrouted : Routed c queues) (hbuild : c.build = some memory)
    (hdeep : ∀ latency, memory.model.Assigns latency → max 1 latency ≤ c.queueDepth.toNat)
    (h : (opening queues (Recorded.mk memory []) Silence.mk).run = (.ok report, last)) :
    ∀ a direction, MemoryCall.accepts a direction false ∉ last.memory.calls := by
  obtain ⟨n, u, hsteps, -, -, hm, -⟩ := run_eq_ok h
  have hopening : (opening queues (Recorded.mk memory []) Silence.mk).attach.Unrefused c queues
      memory.model (List.finRange channels) :=
    ⟨fun _ _ hmem => absurd hmem List.not_mem_nil, [], [], .opening hc hbuild⟩
  rw [hm]
  exact (hopening.steps hc hrouted hdeep hsteps).calls

end Session

/-! ### Reports -/

/-- The requests of a channel in a report, each with the latency in its place in `given`. -/
def RunReport.ofChannel (report : RunReport) (c : MemoryConfig) (given : List Nat)
    (k : Fin channels) : List (Request × Nat) :=
  (report.requests.zip given).filter fun p => half (c.fields.channel p.1.address) = k

namespace RunReport.Timetable

variable {c : MemoryConfig} {queues : Vector (List Request) channels} {start : Service}
  {report : RunReport} {last : QueuedMemory Service} {visits : List Visit}

theorem unstamped_ofChannel (h : report.Timetable c queues start last visits) (k : Fin channels) :
    (report.ofChannel c (visits.map Visit.latency) k).map (·.1.unstamped) =
      (queues.get k).map Request.unstamped := by
  have hrequests : (report.ofChannel c (visits.map Visit.latency) k).map Prod.fst =
      report.requests.filter fun r => half (c.fields.channel r.address) = k := by
    calc (report.ofChannel c (visits.map Visit.latency) k).map Prod.fst
        _ = ((report.requests.zip (visits.map Visit.latency)).map Prod.fst).filter
            fun r => half (c.fields.channel r.address) = k := by
          rw [List.filter_map]
          rfl
        _ = _ := by rw [List.map_fst_zip h.length_eq.le]
  rw [← h.queued k, ← hrequests, List.map_map]
  rfl

theorem issueCycles_ofChannel (h : report.Timetable c queues start last visits) (k : Fin channels) :
    (report.ofChannel c (visits.map Visit.latency) k).map (·.1.issueCycle) =
      (visits.filter (Visit.isOf c k)).map Visit.issue := by
  have hissues := congrArg (List.map fun x : (Completion × Nat) × Nat => x.1.2) (h.zip_of_channel k)
  rw [List.map_map, List.map_map] at hissues
  exact hissues

section

variable (hissues : ∀ k, (visits.filter (Visit.isOf c k)).map Visit.issue =
  List.range (visits.filter (Visit.isOf c k)).length)

include hissues

/-- If every channel admits its requests without a pause, their places are the cycles of their
admission. -/
theorem issueCycles_eq_range (h : report.Timetable c queues start last visits) (k : Fin channels) :
    (report.ofChannel c (visits.map Visit.latency) k).map (·.1.issueCycle) =
      List.range (queues.get k).length := by
  have hqueue := congrArg List.length (h.unstamped_ofChannel k)
  have hvisits := congrArg List.length (h.issueCycles_ofChannel k)
  rw [List.length_map, List.length_map] at hqueue hvisits
  rw [h.issueCycles_ofChannel, hissues, ← hqueue, ← hvisits]

/-- And with their latencies their places tell when they finish. -/
theorem mem_finishes (h : report.Timetable c queues start last visits) {n : Nat} :
    n ∈ visits.map Visit.finish ↔
      ∃ k i p, (report.ofChannel c (visits.map Visit.latency) k)[i]? = some p ∧
        n = i + max 1 p.2 := by
  -- a request and the visit in its place have the same latency, and the visit its place as cycle
  have hplace : ∀ (k : Fin channels) (i : Nat),
      (report.ofChannel c (visits.map Visit.latency) k)[i]?.map Prod.snd =
        (visits.filter (Visit.isOf c k))[i]?.map Visit.latency := by
    intro k i
    have hzip := congrArg (fun l => (l.map Prod.snd)[i]?) (h.zip_of_channel k)
    simp only [List.map_map, List.getElem?_map] at hzip
    exact hzip
  have hissue : ∀ {k : Fin channels} {i : Nat} {v : Visit},
      (visits.filter (Visit.isOf c k))[i]? = some v → v.issue = i := by
    intro k i v hv
    have hrange := congrArg (fun l => l[i]?) (hissues k)
    simp only [List.getElem?_map, hv, Option.map_some,
      List.getElem?_range (List.getElem?_eq_some_iff.mp hv).1] at hrange
    exact Option.some.inj hrange
  constructor
  · intro hn
    obtain ⟨v, hv, rfl⟩ := List.mem_map.mp hn
    have hof : v ∈ visits.filter (Visit.isOf c (half (c.fields.channel v.key.address))) :=
      List.mem_filter.mpr ⟨hv, by simp [Visit.isOf]⟩
    obtain ⟨i, hi⟩ := List.mem_iff_getElem?.mp hof
    have hlatency := hplace (half (c.fields.channel v.key.address)) i
    rw [hi, Option.map_some] at hlatency
    obtain ⟨p, hp, hsame⟩ := Option.map_eq_some_iff.mp hlatency
    refine ⟨_, i, p, hp, ?_⟩
    unfold Visit.finish
    rw [hissue hi, hsame]
  · rintro ⟨k, i, p, hp, rfl⟩
    have hlatency := hplace k i
    rw [hp, Option.map_some] at hlatency
    obtain ⟨v, hv, hsame⟩ := Option.map_eq_some_iff.mp hlatency.symm
    refine List.mem_map.mpr ⟨v, List.mem_of_mem_filter (List.mem_of_getElem? hv), ?_⟩
    unfold Visit.finish
    rw [hissue hv, hsame]

/-- The replay ends when the last request finishes. -/
theorem isGreatest_cycles (h : report.Timetable c queues start last visits)
    (hne : report.requests ≠ []) :
    IsGreatest {n | ∃ k i p, (report.ofChannel c (visits.map Visit.latency) k)[i]? = some p ∧
      n = i + max 1 p.2} report.cycles := by
  have hset : {n | ∃ k i p, (report.ofChannel c (visits.map Visit.latency) k)[i]? = some p ∧
      n = i + max 1 p.2} = {n | n ∈ visits.map Visit.finish} :=
    Set.ext fun n => (h.mem_finishes hissues).symm
  rw [hset, h.cycles]
  constructor
  · cases hmax : (visits.map Visit.finish).max? with
    | none =>
      have hlength := h.length_eq
      rw [List.map_eq_nil_iff.mp (List.max?_eq_none_iff.mp hmax)] at hlength
      exact absurd (List.eq_nil_of_length_eq_zero hlength) hne
    | some n => exact (List.max?_eq_some_iff.mp hmax).1
  · intro n hn
    exact Tally.max?_getD_le_iff.mp (Nat.le_refl _) n hn

end

end RunReport.Timetable

/-- **Timing in closed form.** Let a trace with at least one request be replayed on a memory just
built whose queues are as deep as the longest latency that its model can give, and let no number
leave 64 bits. Then no request is ever refused, and every channel admits its queue in order, the
request at place `i` in cycle `i`. A request finishes in the cycle that is the sum of its place and
its latency, where no latency counts for less than one cycle, and the replay ends when the last one
does. -/
theorem timing_closed_form (c : MemoryConfig) (strategy : Strategy) (trace : List Request)
    (memory : QueuedMemory Service) (hvalid : c.validate = .ok ()) (hbuild : c.build = some memory)
    (hdeep : ∀ latency, memory.model.Assigns latency → max 1 latency ≤ c.queueDepth.toNat)
    (hne : trace ≠ []) (hfits : (replay strategy trace memory Silence.mk).1 ≠ .error .overflow) :
    ∃ queues report last given final,
      Distribution.distribute (MemorySystem.channelOf memory) (MemorySystem.bankOf memory) strategy
        trace = .ok queues ∧
      replay strategy trace memory Silence.mk = (.ok report, last, Silence.mk) ∧
      memory.model.serve (report.requests.map Request.key) = some (given, last.model) ∧
      ((Session.opening queues (Recorded.mk memory []) Silence.mk).run = (.ok report, final) ∧
        final.memory.memory = last ∧
        ∀ a direction, MemoryCall.accepts a direction false ∉ final.memory.calls) ∧
      (∀ k, (report.ofChannel c given k).map (·.1.unstamped) =
          (queues.get k).map Request.unstamped ∧
        (report.ofChannel c given k).map (·.1.issueCycle) = List.range (queues.get k).length) ∧
      IsGreatest {n | ∃ k i p, (report.ofChannel c given k)[i]? = some p ∧ n = i + max 1 p.2}
        report.cycles := by
  have hc := MemoryConfig.usable_of_validate hvalid
  obtain ⟨hfields, -⟩ := MemoryConfig.orderly_of_build hc hbuild
  have hdistribute := distribute_built hc hfields strategy trace
  obtain ⟨report, last, visits, hreplay, h⟩ := exists_timetable hc hbuild hfits
  obtain ⟨queues, session, hdistribute', hrun, hlast, -⟩ := replay_eq_ok hreplay
  obtain rfl : c.queues strategy trace = queues :=
    Except.ok.inj (hdistribute.symm.trans hdistribute')
  -- the visits of a channel have no pause between them
  have hissues : ∀ k, (visits.filter (Visit.isOf c k)).map Visit.issue =
      List.range (visits.filter (Visit.isOf c k)).length := fun k =>
    issues_eq_range hc.depth (fun v hv => hdeep v.latency ⟨_, _, _, h.served,
      List.mem_map_of_mem (List.mem_of_mem_filter hv)⟩) (h.prompt k)
  have hrequests : report.requests ≠ [] := by
    intro hnil
    have htrace := h.perm_trace.length_eq
    rw [List.length_map, List.length_map, hnil] at htrace
    exact hne (List.eq_nil_of_length_eq_zero htrace.symm)
  obtain ⟨final, hfinal, hsame, -⟩ := run_recorded hrun
  have hunrefused :=
    Session.run_unrefused hc (routed_queues c strategy trace) hbuild hdeep hfinal
  refine ⟨c.queues strategy trace, report, last, visits.map Visit.latency, final, hdistribute,
    hreplay, h.served, ⟨hfinal, ?_, hunrefused⟩,
    fun k => ⟨h.unstamped_ofChannel k, h.issueCycles_eq_range hissues k⟩,
    h.isGreatest_cycles hissues hrequests⟩
  rw [← hlast, ← hsame]
  rfl

/-- Open rows, with queues just as deep as a row that has to close another one takes. -/
def deepRows (bus : Bus) : MemoryConfig := (quickRows bus).withDepth 6

/-- The second row of a bank is admitted while the first one is still under way. -/
theorem timing_closed_form_deepRows : ∃ memory, (deepRows {}).validate = .ok () ∧
    (deepRows {}).build = some memory ∧
    (∀ latency, memory.model.Assigns latency → max 1 latency ≤ (deepRows {}).queueDepth.toNat) ∧
    mixedTrace ≠ [] ∧ (replay .roundRobin mixedTrace memory Silence.mk).1 ≠ .error .overflow ∧
    ∃ queues report last given,
      Distribution.distribute (MemorySystem.channelOf memory) (MemorySystem.bankOf memory)
        .roundRobin mixedTrace = .ok queues ∧
      replay .roundRobin mixedTrace memory Silence.mk = (.ok report, last, Silence.mk) ∧
      memory.model.serve (report.requests.map Request.key) = some (given, last.model) ∧
      (∀ k, (report.ofChannel (deepRows {}) given k).map (·.1.issueCycle) =
        List.range (queues.get k).length) ∧
      IsGreatest {n | ∃ k i p, (report.ofChannel (deepRows {}) given k)[i]? = some p ∧
        n = i + max 1 p.2} report.cycles := by
  have hc : (deepRows {}).Usable := MemoryConfig.usable_of_validate rfl
  obtain ⟨memory, hbuild⟩ := MemoryConfig.exists_build hc
  have hfits := replay_ne_overflow hc hbuild .roundRobin mixedTrace (by decide)
  obtain ⟨-, -, -, -, -, horderly, -⟩ := MemoryConfig.orderly_of_build hc hbuild
  have hdeep : ∀ latency, memory.model.Assigns latency →
      max 1 latency ≤ (deepRows {}).queueDepth.toNat := fun latency hassigns =>
    Nat.max_le.mpr ⟨by decide, Service.assigned_le hc horderly.serves hassigns⟩
  obtain ⟨queues, report, last, given, -, hdistribute, hreplay, hserved, -, hchannels, hcycles⟩ :=
    timing_closed_form (deepRows {}) .roundRobin mixedTrace memory rfl hbuild hdeep nofun hfits
  exact ⟨memory, rfl, hbuild, hdeep, nofun, hfits, queues, report, last, given, hdistribute, hreplay,
    hserved, fun k => (hchannels k).2, hcycles⟩

end MemoryReplay
