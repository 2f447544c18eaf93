import Mathlib.Algebra.Order.BigOperators.Group.Finset
import MemoryReplay.Proofs.Replay.Built

/-!
# Replays on built-in memories end

Time never runs ahead of the admissions: after `n` of them no clock shows more than `n` times the
longest latency. While something is left to do, either the next completion lies within that
limit, or nothing is under way and the step admits another request. So a replay ends, with no
number leaving 64 bits as long as the limit for all requests does not.

- `Session.Timely`: the limit. `Session.OnTime`: the invariant between two steps.
- `OnTime.step`: with something left to do, a step succeeds and keeps it.
- `exists_replay_of_fits`, `replay_ne_overflow`: so every trace that fits has its report.
- `Session.CountersWithin n s`: no counter of driver and memory exceeds `n`.
- `replay_terminates`: that, and what the counters show on the way.
-/

namespace MemoryReplay

namespace MemoryConfig

theorem worstLatency_le (c : MemoryConfig) : c.worstLatency ≤ c.latencyBound := Nat.le_max_right ..

theorem latencyBound_pos (c : MemoryConfig) : 0 < c.latencyBound := Nat.le_max_left ..

end MemoryConfig

namespace Session

variable {c : MemoryConfig} {queues : Vector (List Request) channels} {s t : QuietSession}
  {k : Fin channels} {head : Request} {rest : List Request} {latency : Nat} {model : Service}
  {ledger : Ledger}

/-- Clock, completions and latencies keep within what the admissions so far allow. -/
structure Timely (c : MemoryConfig) (s : QuietSession) : Prop where
  cycle : s.driver.cycle ≤ s.driver.slots.size * c.latencyBound
  due : ∀ p ∈ s.memory.pending, p.due ≤ s.driver.slots.size * c.latencyBound
  latencies : s.memory.totalLatency ≤ s.driver.slots.size * c.latencyBound

/-- What holds between two offers. -/
structure Running (c : MemoryConfig) (queues : Vector (List Request) channels)
    (s : QuietSession) : Prop where
  coupled : ∃ ledger, s.Coupled c queues ledger []
  timely : s.Timely c

/-- What holds between two steps: what is under way completes later than now. -/
structure OnTime (c : MemoryConfig) (queues : Vector (List Request) channels)
    (s : QuietSession) : Prop extends s.Running c queues where
  ahead : ∀ p ∈ s.memory.pending, s.driver.cycle < p.due

/-! ### Offers -/

theorem Timely.granted (h : s.Timely c) (hclock : s.memory.now = s.driver.cycle)
    (hlatency : latency ≤ c.latencyBound) : (s.granted k head rest latency model).Timely c := by
  have hsize : (s.granted k head rest latency model).driver.slots.size = s.driver.slots.size + 1 :=
    Driver.size_slots_issue ..
  have hcycle := h.cycle
  refine ⟨?_, fun p hp => ?_, ?_⟩ <;> rw [hsize, Nat.succ_mul]
  · exact Nat.le_add_right_of_le hcycle
  · rcases QueuedMemory.mem_joined.mp hp with rfl | hp
    · show s.memory.now + latency ≤ _
      omega
    · exact Nat.le_add_right_of_le (h.due p hp)
  · exact Nat.add_le_add h.latencies hlatency

/-- Requests admitted and requests waiting are all requests. -/
theorem Coupled.slots_add (h : s.Coupled c queues ledger []) :
    s.driver.slots.size + ∑ k, (s.driver.queues.get k).length = ∑ k, (queues.get k).length := by
  rw [h.records.size_slots, h.conserves.length_add, h.conserves.total]

theorem Coupled.slots_lt (h : s.Coupled c queues ledger [])
    (hq : s.driver.queues.get k = head :: rest) :
    s.driver.slots.size + 1 ≤ ∑ k, (queues.get k).length := by
  have hle : (s.driver.queues.get k).length ≤ ∑ k, (s.driver.queues.get k).length :=
    Finset.single_le_sum (f := fun k => (s.driver.queues.get k).length) (fun _ _ => Nat.zero_le _)
      (Finset.mem_univ k)
  rw [hq, List.length_cons] at hle
  rw [← h.slots_add]
  omega

variable (hc : c.Usable)
  (hfits : (∑ k, (queues.get k).length + 1) * c.latencyBound < UInt64.size)

include hc hfits

/-- No offer leaves 64 bits. -/
theorem Running.offer (h : s.Running c queues) (k : Fin channels) :
    ∃ t, s.offer k = .ok t ∧ t.Running c queues := by
  obtain ⟨ledger, hs⟩ := h.coupled
  rcases offer_or_room (hs.inside hc) k with hsame | ⟨head, rest, hq, hroom⟩
  · exact ⟨s, hsame, h⟩
  have hone : c.latencyBound ≤ (∑ k, (queues.get k).length + 1) * c.latencyBound :=
    Nat.le_mul_of_pos_left _ (Nat.succ_pos _)
  have hworst := c.worstLatency_le
  obtain ⟨latency, model, hacc⟩ := Service.exists_access hc hs.orderly.serves (by omega)
    head.address head.direction
  have hlatency := (Service.serves_access hc hs.orderly.serves hacc).1
  -- with this request there are still no more than all of them
  have hnext : (s.driver.slots.size + 1) * c.latencyBound ≤
      (∑ k, (queues.get k).length + 1) * c.latencyBound :=
    Nat.mul_le_mul_right _ (Nat.le_succ_of_le (hs.slots_lt hq))
  rw [Nat.succ_mul] at hnext
  have hcycle := h.timely.cycle
  have hlatencies := h.timely.latencies
  refine ⟨s.granted k head rest latency model, ?_, ⟨_, hs.granted hc hq hacc⟩,
    h.timely.granted hs.clock (by omega)⟩
  exact offer_of_admission hq hroom (hs.inside hc) hacc (by rw [hs.clock]; omega) (by omega)

omit hfits

/-- With nothing under way, offers of channels of which one has a request waiting admit one. -/
theorem Running.offers_of_idle {ks : List (Fin channels)} (h : s.Running c queues)
    (hidle : s.memory.pending = []) (hwaiting : ∃ k ∈ ks, s.driver.queues.get k ≠ [])
    (hoffers : offers ks s = .ok t) : s.driver.slots.size + 1 ≤ t.driver.slots.size := by
  have hinv := offers_invariant (P := fun left (t : QuietSession) =>
    (∃ ledger, t.Coupled c queues ledger []) ∧ (s.driver.slots.size + 1 ≤ t.driver.slots.size ∨
      t = s ∧ ∃ k ∈ left, s.driver.queues.get k ≠ [])) ?_ ks ⟨h.coupled, .inr ⟨rfl, hwaiting⟩⟩ hoffers
  · rcases hinv.2 with hmore | ⟨-, k, hk, -⟩
    · exact hmore
    · exact absurd hk List.not_mem_nil
  rintro k left u v ⟨⟨ledger, hu⟩, hcase⟩ hoffer
  refine ⟨hu.offer hc hoffer, ?_⟩
  rcases quiet_offer_eq_ok (hu.inside hc) hoffer with ⟨hq, rfl⟩ | ⟨head, rest, hq, hfull, rfl⟩ |
    ⟨head, rest, latency, model, hq, -, -, -, -, rfl⟩
  · -- the channel has nothing to offer, so the one that has is still to come
    rcases hcase with hmore | ⟨rfl, j, hj, hne⟩
    · exact .inl hmore
    · rcases List.mem_cons.mp hj with rfl | hj
      · exact absurd hq hne
      · exact .inr ⟨rfl, j, hj, hne⟩
  · rcases hcase with hmore | ⟨rfl, -⟩
    · exact .inl hmore
    · -- an idle memory refuses nothing
      rw [hu.orderly.hasRoom_of_idle hc hidle] at hfull
      cases hfull
  · have hsize : (u.granted k head rest latency model).driver.slots.size = u.driver.slots.size + 1 :=
      Driver.size_slots_issue ..
    rw [hsize]
    rcases hcase with hmore | ⟨rfl, -⟩
    · exact .inl (Nat.le_succ_of_le hmore)
    · exact .inl (Nat.le_refl _)

omit hc

/-- With nothing under way and something left to do, a request waits. -/
theorem Coupled.exists_waiting (h : s.Coupled c queues ledger []) (hidle : s.memory.pending = [])
    (hbusy : s.driver.isDone = false) : ∃ k, s.driver.queues.get k ≠ [] := by
  by_contra hnone
  have hempty : ∀ k, s.driver.queues.get k = [] := by simpa using hnone
  -- an entry that waits would be under way in the memory, which is idle
  have hsettled : ∀ e ∈ ledger, e.waits = false := by
    intro e he
    by_contra hwaits
    have hcount := h.awaited e.request.key
    rw [hidle] at hcount
    exact List.countP_eq_zero.mp hcount e he (Entry.awaits_iff.mpr ⟨by simpa using hwaits, rfl⟩)
  rw [h.conserves.isDone_of_settled h.records hempty hsettled] at hbusy
  cases hbusy

include hc hfits

/-! ### Steps -/

/-- **While something is left to do, a step succeeds**, and time stays within its limit. -/
theorem OnTime.step (h : s.OnTime c queues) (hbusy : s.driver.isDone = false) :
    ∃ t, s.step = .ok t ∧ t.OnTime c queues := by
  obtain ⟨v, hoffers, hrunning⟩ := offers_progress
    (fun k s (hs : s.Running c queues) => hs.offer hc hfits k) (List.finRange channels) h.toRunning
  obtain ⟨ledger, hs⟩ := h.coupled
  obtain ⟨ledger', hv⟩ := hrunning.coupled
  have hvcycle := (offers_frame hoffers).1
  -- the limit for what the offers have admitted leaves room for one more cycle
  have hnext : v.driver.cycle + 1 ≤ v.driver.slots.size * c.latencyBound := by
    rw [hvcycle]
    by_cases hidle : s.memory.pending = []
    · -- another request has been admitted, and the limit has grown with it
      obtain ⟨k, hk⟩ := hs.exists_waiting hidle hbusy
      have hmore := h.toRunning.offers_of_idle hc hidle ⟨k, List.mem_finRange k, hk⟩ hoffers
      have hcycle := h.timely.cycle
      have hpos := c.latencyBound_pos
      calc s.driver.cycle + 1
          _ ≤ (s.driver.slots.size + 1) * c.latencyBound := by
            rw [Nat.succ_mul]
            omega
          _ ≤ v.driver.slots.size * c.latencyBound := Nat.mul_le_mul_right _ hmore
    · -- the next completion is still to come
      obtain ⟨p, hp⟩ := List.exists_mem_of_ne_nil _ hidle
      calc s.driver.cycle + 1
          _ ≤ p.due := h.ahead p hp
          _ ≤ s.driver.slots.size * c.latencyBound := h.timely.due p hp
          _ ≤ v.driver.slots.size * c.latencyBound :=
            Nat.mul_le_mul_right _ (offers_slots_le hoffers)
  -- and the limit for all requests is a 64-bit number, so the cycle does not overflow
  have hlimit : v.driver.slots.size * c.latencyBound ≤
      (∑ k, (queues.get k).length + 1) * c.latencyBound := by
    have hslots := hv.slots_add
    exact Nat.mul_le_mul_right _ (by omega)
  obtain ⟨inFlight, hticked, hcycle⟩ := hv.ticked
  obtain ⟨t, hsettles, ht⟩ := hticked.settles
  obtain ⟨htcycle, -, -, -, htmemory⟩ := settles_frame hsettles
  have htslots : t.driver.slots.size = v.driver.slots.size := by
    rw [ht.records.size_slots, Ledger.length_settleAll, hv.records.size_slots]
  refine ⟨t, ?_, ⟨⟨⟨_, ht⟩, ⟨?_, ?_, ?_⟩⟩, ?_⟩⟩
  · rw [quiet_step, hoffers, Progress.andThen_ok, hcycle, if_pos (by omega)]
    exact hsettles
  · rw [htcycle, htslots]
    exact hnext
  · rw [htmemory, htslots]
    exact fun p hp => hrunning.timely.due p (List.mem_of_mem_filter hp)
  · rw [htmemory, htslots]
    exact hrunning.timely.latencies
  · -- whatever was due has left the memory
    rw [htmemory, htcycle]
    intro p hp
    have hdue := List.of_mem_filter hp
    show v.driver.cycle + 1 < p.due
    rw [← hv.clock]
    simpa using hdue

/-- Until nothing is left to do, every step succeeds. -/
theorem OnTime.steps (h : s.OnTime c queues) {n : Nat}
    (hbusy : ∀ i < n, ∀ u, Session.steps i s = .ok u → u.driver.isDone = false) :
    ∃ t, Session.steps n s = .ok t ∧ t.OnTime c queues := by
  induction n with
  | zero => exact ⟨s, rfl, h⟩
  | succ n ih =>
    obtain ⟨u, hu, hon⟩ := ih fun i hi => hbusy i (Nat.lt_succ_of_lt hi)
    obtain ⟨t, ht, hdone⟩ := hon.step hc hfits (hbusy n (Nat.lt_succ_self n) u hu)
    exact ⟨t, by rw [steps_succ_of_ok hu, ht], hdone⟩

/-- Nothing is left to do within so many steps. -/
theorem OnTime.exists_done (h : s.OnTime c queues) (hzero : s.driver.cycle = 0) :
    ∃ n ≤ (∑ k, (queues.get k).length) * c.latencyBound, ∃ t, Session.steps n s = .ok t ∧
      t.driver.isDone = true := by
  by_contra hnever
  have hbusy : ∀ i < (∑ k, (queues.get k).length) * c.latencyBound + 1, ∀ u,
      Session.steps i s = .ok u → u.driver.isDone = false := by
    intro i hi u hu
    by_contra hdone
    exact hnever ⟨i, Nat.le_of_lt_succ hi, u, hu, by simpa using hdone⟩
  obtain ⟨t, ht, hon⟩ := h.steps hc hfits hbusy
  -- the clock shows the number of steps, which is more than it may show
  obtain ⟨ledger, hcoupled⟩ := hon.coupled
  have hcycle := (steps_cycle ht).1
  have hslots := hcoupled.slots_add
  have hlimit : t.driver.slots.size * c.latencyBound ≤
      (∑ k, (queues.get k).length) * c.latencyBound := Nat.mul_le_mul_right _ (by omega)
  have htimely := hon.timely.cycle
  omega

omit hc hfits

/-! ### Counters -/

/-- No counter exceeds `n`, and none has been taken below zero: what has been admitted and has not
completed is under way. -/
structure CountersWithin (n : Nat) (s : QuietSession) : Prop where
  slots : s.driver.slots.size ≤ n
  outstanding : s.driver.completed + s.driver.index.size = s.driver.slots.size
  fromChannel : ∀ k, s.driver.admitted.get k ≤ n
  admitted : s.memory.admitted ≤ n
  directions : s.memory.reads + s.memory.writes ≤ n
  perChannel : ∀ k, s.memory.perChannel.get k ≤ n
  inFlight : ∀ k, s.memory.inFlight.get k ≤ n
  model : ∀ counter ∈ LatencyModel.counters s.memory.model, counter.2 ≤ n
  unreported : s.memory.unreported = 0

theorem Coupled.countersWithin (h : s.Coupled c queues ledger []) :
    s.CountersWithin (∑ k, (queues.get k).length) := by
  have hslots : s.driver.slots.size ≤ ∑ k, (queues.get k).length :=
    h.slots_add ▸ Nat.le_add_right ..
  have hadmitted : s.memory.admitted ≤ ∑ k, (queues.get k).length := by
    rw [h.admitted, ← h.records.size_slots]
    exact hslots
  refine ⟨hslots, h.records.completed_add_size, fun k => ?_, hadmitted, ?_, fun k => ?_,
    fun k => ?_, fun counter hcounter => ?_, h.tallied.unreported⟩
  · rw [h.records.admitted]
    exact Nat.le_trans List.countP_le_length (h.records.size_slots ▸ hslots)
  · exact h.tallied.directions ▸ hadmitted
  · exact Nat.le_trans (h.tallied.perChannel k) hadmitted
  · rw [h.orderly.inFlight]
    exact Nat.le_trans List.countP_le_length (Nat.le_trans h.tallied.pending hadmitted)
  · have hsum := List.le_sum_of_mem (List.mem_map_of_mem (f := Prod.snd) hcounter)
    exact Nat.le_trans hsum (Nat.le_trans h.tallied.model hadmitted)

/-- A replay on a memory just built begins with books and memory in step, and with no time gone. -/
theorem OnTime.opening (hc : c.Usable) {m : QueuedMemory Service} (hbuild : c.build = some m) :
    (Session.opening queues m Silence.mk).attach.OnTime c queues := by
  obtain ⟨-, -, -, htotal, hpending, -, -⟩ := MemoryConfig.orderly_of_build hc hbuild
  refine ⟨⟨⟨[], .opening hc hbuild⟩, ⟨Nat.zero_le _, fun p hp => ?_, ?_⟩⟩, fun p hp => ?_⟩
  · exact absurd (hpending ▸ hp) List.not_mem_nil
  · exact Nat.le_trans (Nat.le_of_eq htotal) (Nat.zero_le _)
  · exact absurd (hpending ▸ hp) List.not_mem_nil

end Session

/-- The replay of a trace that fits ends with a report, and in time. -/
theorem exists_replay_of_fits {c : MemoryConfig} {memory : QueuedMemory Service} (hc : c.Usable)
    (hbuild : c.build = some memory) (strategy : Strategy) (trace : List Request)
    (hfits : (trace.length + 1) * c.latencyBound < UInt64.size) :
    ∃ report last, replay strategy trace memory Silence.mk = (.ok report, last, Silence.mk) ∧
      report.cycles ≤ trace.length * c.latencyBound := by
  obtain ⟨hfields, -⟩ := MemoryConfig.orderly_of_build hc hbuild
  let queues := c.queues strategy trace
  have hsum : ∑ k, (queues.get k).length = trace.length := c.total_queues strategy trace
  have hqueues : (∑ k, (queues.get k).length + 1) * c.latencyBound < UInt64.size := by rwa [hsum]
  obtain ⟨n, hn, t, ht, hdone⟩ := (Session.OnTime.opening hc hbuild).exists_done hc hqueues rfl
  rw [hsum] at hn
  have hlimit : trace.length * c.latencyBound ≤ (trace.length + 1) * c.latencyBound :=
    Nat.mul_le_mul_right _ (Nat.le_succ _)
  have hfuel : n ≤ UInt64.size - 0 := by omega
  obtain ⟨i, hi, last, hlast, -, hrun⟩ := Session.run_of_steps hfuel ht hdone
  refine ⟨last.report, last.memory, replay_built hc hfields strategy trace hrun, ?_⟩
  show last.driver.cycle ≤ _
  rw [(Session.steps_cycle hlast).1]
  exact Nat.le_trans (Nat.le_of_eq (Nat.zero_add i)) (Nat.le_trans hi hn)

/-- So it leaves 64 bits nowhere. -/
theorem replay_ne_overflow {c : MemoryConfig} {memory : QueuedMemory Service} (hc : c.Usable)
    (hbuild : c.build = some memory) (strategy : Strategy) (trace : List Request)
    (hfits : (trace.length + 1) * c.latencyBound < UInt64.size) :
    (replay strategy trace memory Silence.mk).1 ≠ .error .overflow := by
  obtain ⟨report, last, hreplay, -⟩ := exists_replay_of_fits hc hbuild strategy trace hfits
  rw [hreplay]
  exact nofun

/-- **Replays on built-in memories end.** With a configuration that passes its check, and a trace
for which one more than its requests times the longest latency is a 64-bit number, the replay ends
with a report, within so many cycles as the requests times that latency. On the way every step,
and every offer in it, goes through, and no counter exceeds the number of requests. -/
theorem replay_terminates (c : MemoryConfig) (strategy : Strategy) (trace : List Request)
    (hvalid : c.validate = .ok ())
    (hfits : (trace.length + 1) * c.latencyBound < UInt64.size) :
    ∃ memory queues report last, c.build = some memory ∧
      Distribution.distribute (MemorySystem.channelOf memory) (MemorySystem.bankOf memory)
        strategy trace = .ok queues ∧
      replay strategy trace memory Silence.mk = (.ok report, last, Silence.mk) ∧
      report.cycles ≤ trace.length * c.latencyBound ∧
      ∀ n ≤ report.cycles, ∃ s : QuietSession,
        Session.steps n (Session.opening queues memory Silence.mk).attach = .ok s ∧
        ∀ ks, ∃ t, Session.offers ks s = .ok t ∧ t.CountersWithin trace.length := by
  have hc := MemoryConfig.usable_of_validate hvalid
  obtain ⟨memory, hbuild⟩ := MemoryConfig.exists_build hc
  obtain ⟨hfields, -⟩ := MemoryConfig.orderly_of_build hc hbuild
  let queues := c.queues strategy trace
  have hsum : ∑ k, (queues.get k).length = trace.length := c.total_queues strategy trace
  have hqueues : (∑ k, (queues.get k).length + 1) * c.latencyBound < UInt64.size := by rwa [hsum]
  have hopening : (Session.opening queues memory Silence.mk).attach.OnTime c queues :=
    .opening hc hbuild
  -- some step within the limit leaves nothing to do, and the replay ends there at the latest
  obtain ⟨n, hn, t, ht, hdone⟩ := hopening.exists_done hc hqueues rfl
  rw [hsum] at hn
  have hlimit : trace.length * c.latencyBound ≤ (trace.length + 1) * c.latencyBound :=
    Nat.mul_le_mul_right _ (Nat.le_succ _)
  have hfuel : n ≤ UInt64.size - (Session.opening queues memory Silence.mk).driver.cycle := by
    show n ≤ UInt64.size - 0
    omega
  obtain ⟨i, hi, last, hlast, -, hrun⟩ := Session.run_of_steps hfuel ht hdone
  obtain ⟨j, u, hu, -, hd, -, -, hfirst⟩ := Session.run_eq_ok hrun
  have hcycles : last.driver.cycle = j := by
    rw [hd, (Session.steps_cycle hu).1]
    exact Nat.zero_add j
  refine ⟨memory, queues, last.report, last.memory, hbuild, distribute_built hc hfields _ _,
    replay_built hc hfields strategy trace hrun, ?_, fun n hn => ?_⟩
  · show last.driver.cycle ≤ _
    rw [(Session.steps_cycle hlast).1]
    exact Nat.le_trans (Nat.le_of_eq (Nat.zero_add i)) (Nat.le_trans hi hn)
  · have hn' : n ≤ j := hcycles ▸ hn
    obtain ⟨s, hs, hon⟩ := hopening.steps hc hqueues
      fun m hm => hfirst m (Nat.lt_of_lt_of_le hm hn')
    refine ⟨s, hs, fun ks => ?_⟩
    obtain ⟨t, ht, hrunning⟩ := Session.offers_progress
      (fun k s (hs : s.Running c queues) => hs.offer hc hqueues k) ks hon.toRunning
    obtain ⟨ledger, hcoupled⟩ := hrunning.coupled
    exact ⟨t, ht, hsum ▸ hcoupled.countersWithin⟩

/-- A memory with open rows and room for one request in each pseudo-channel. -/
def narrowRows : MemoryConfig := { model := .rowBuffer, queueDepth := 1 }

/-- Two rows of one bank, and a write to another channel. -/
def twoRows : List Request := [.fresh 0 .read, .fresh 0x40000 .read, .fresh 0x800 .write]

/-- The second row has to wait until the first access has completed. -/
theorem replay_terminates_narrowRows :
    narrowRows.validate = .ok () ∧ (twoRows.length + 1) * narrowRows.latencyBound < UInt64.size ∧
    ∃ memory queues report last, narrowRows.build = some memory ∧
      Distribution.distribute (MemorySystem.channelOf memory) (MemorySystem.bankOf memory)
        .rowLocality twoRows = .ok queues ∧
      replay .rowLocality twoRows memory Silence.mk = (.ok report, last, Silence.mk) ∧
      report.cycles ≤ twoRows.length * narrowRows.latencyBound ∧
      ∀ n ≤ report.cycles, ∃ s : QuietSession,
        Session.steps n (Session.opening queues memory Silence.mk).attach = .ok s ∧
        ∀ ks, ∃ t, Session.offers ks s = .ok t ∧ t.CountersWithin twoRows.length :=
  ⟨rfl, by decide, replay_terminates narrowRows .rowLocality twoRows rfl (by decide)⟩

end MemoryReplay
