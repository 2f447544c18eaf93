import MemoryReplay.Proofs.Memory.Isolation
import MemoryReplay.Proofs.Replay.Termination

/-!
# Channels of a built-in replay do not interfere

A replay of a whole trace contains eight replays, one for the requests of each channel. Beside
the whole replay runs the replay of one channel alone, in the same cycles; whatever the whole one
does to a request of the channel, the other one does to it in the same cycle.

- `Session.Shadows k s s'`: the replay `s'` is what `s` is to channel `k`. `Shadows.step`: each
  step of `s` is one of `s'`.
- `Session.Resting`: a replay in which nothing is left to do stays as it is.
- `Progress.Unblamed`: a replay on a built-in memory stops for an overflow only.
- `channels_independent`: the reports of a whole replay and of its channels.
-/

namespace MemoryReplay

/-- Whether a completion is for a request of channel `k`. -/
def Completion.isFor (c : MemoryConfig) (k : Fin channels) (key : Completion) : Bool :=
  half (c.fields.channel key.address) = k

theorem Ledger.ofChannel_concat (ledger : Ledger) (e : Entry) (k : Fin channels) :
    Ledger.ofChannel (ledger ++ [e]) k =
      if e.channel = k then ledger.ofChannel k ++ [e] else ledger.ofChannel k := by
  unfold ofChannel
  by_cases hk : e.channel = k <;> simp [List.filter_append, hk]

namespace Session

variable {c : MemoryConfig} {queues queues' : Vector (List Request) channels} {k : Fin channels}
  {s s' t : QuietSession} {ledger : Ledger} {events : List Completion}

/-- Every queue holds requests of its own channel. -/
def Routed (c : MemoryConfig) (queues : Vector (List Request) channels) : Prop :=
  ∀ k, ∀ r ∈ queues.get k, half (c.fields.channel r.address) = k

theorem Coupled.routed_entry (h : s.Coupled c queues ledger events) (hrouted : Routed c queues) :
    ∀ e ∈ ledger, half (c.fields.channel e.request.address) = e.channel := by
  intro e he
  obtain ⟨r, hr, heq⟩ := h.conserves.mem_of_entry he
  have haddress : r.unstamped.address = e.request.unstamped.address := heq ▸ rfl
  exact (congrArg _ (congrArg _ haddress)).symm.trans (hrouted e.channel r hr)

theorem Coupled.routed_waiting (h : s.Coupled c queues ledger events) (hrouted : Routed c queues) :
    Routed c s.driver.queues := by
  intro k r hr
  obtain ⟨q, hq, heq⟩ := h.conserves.mem_of_waiting hr
  have haddress : q.unstamped.address = r.unstamped.address := heq ▸ rfl
  exact (congrArg _ (congrArg _ haddress)).symm.trans (hrouted k q hq)

/-! ### One channel beside the whole -/

/-- The replay `s'` of the queue of channel `k` alone is what the whole replay `s` is to it. -/
structure Shadows (c : MemoryConfig) (queues queues' : Vector (List Request) channels)
    (k : Fin channels) (s s' : QuietSession) (ledger : Ledger) (events : List Completion) :
    Prop where
  whole : s.Coupled c queues ledger events
  alone : s'.Coupled c queues' (ledger.ofChannel k) (events.filter (Completion.isFor c k))
  memory : s.memory.Mirrors k s'.memory
  queue : ∀ j, s'.driver.queues.get j = if j = k then s.driver.queues.get k else []

namespace Shadows

/-- Both clocks show the same. -/
theorem cycle (h : Shadows c queues queues' k s s' ledger events) :
    s'.driver.cycle = s.driver.cycle := by
  rw [← h.alone.clock, h.memory.now, h.whole.clock]

/-- What channel `j` does in the whole replay it does in the other one if it is the channel. -/
theorem offer (hc : c.Usable) (hrouted : Routed c queues)
    (h : Shadows c queues queues' k s s' ledger []) {j : Fin channels}
    (hoffer : s.offer j = .ok t) :
    ∃ t' ledger, s'.offer j = .ok t' ∧ Shadows c queues queues' k t t' ledger [] := by
  have hidle : j ≠ k → s'.offer j = .ok s' := fun hj => offer_of_nil (by rw [h.queue, if_neg hj])
  rcases quiet_offer_eq_ok (h.whole.inside hc) hoffer with ⟨hq, rfl⟩ |
    ⟨head, rest, hq, hfull, rfl⟩ |
    ⟨head, rest, latency, model, hq, hroom, hacc, hdue, htotal, rfl⟩
  · -- nothing to offer
    refine ⟨s', ledger, ?_, h⟩
    by_cases hj : j = k
    · subst hj
      exact offer_of_nil (by rw [h.queue, if_pos rfl, hq])
    · exact hidle hj
  · -- refused
    refine ⟨s', ledger, ?_, h⟩
    by_cases hj : j = k
    · subst hj
      have hown := h.whole.routed_waiting hrouted j head (hq ▸ List.mem_cons_self)
      refine offer_of_full (by rw [h.queue, if_pos rfl, hq]) ?_
      rw [h.memory.hasRoom hc h.whole.orderly h.alone.orderly hown]
      exact hfull
    · exact hidle hj
  · have hhead := h.whole.routed_waiting hrouted j head (hq ▸ List.mem_cons_self)
    by_cases hj : j = k
    · -- admitted here, and so it is there
      subst hj
      have hq' : s'.driver.queues.get j = head :: rest := by rw [h.queue, if_pos rfl, hq]
      obtain ⟨model', hacc', hmirrors⟩ :=
        h.memory.own hc h.whole.orderly h.alone.orderly hhead hacc
      refine ⟨s'.granted j head rest latency model', _, ?_, h.whole.granted hc hq hacc, ?_, hmirrors,
        fun i => ?_⟩
      · have hless := h.memory.latencies
        refine offer_of_admission hq' ?_ (h.alone.inside hc) hacc' (h.memory.now ▸ hdue) (by omega)
        rw [h.memory.hasRoom hc h.whole.orderly h.alone.orderly hhead]
        exact hroom
      · rw [Ledger.ofChannel_concat, if_pos rfl, ← h.cycle]
        exact h.alone.granted hc hq' hacc'
      · show (s'.driver.queues.set j rest).get i =
          if i = j then (s.driver.queues.set j rest).get j else []
        rw [Tally.get_set, Tally.get_set_self, h.queue]
        by_cases hi : i = j
        · simp [hi]
        · simp [hi, Ne.symm hi]
    · -- admitted in another channel
      refine ⟨s', _, hidle hj, h.whole.granted hc hq hacc, ?_, ?_, fun i => ?_⟩
      · rw [Ledger.ofChannel_concat, if_neg hj]
        exact h.alone
      · exact h.memory.other hc h.whole.orderly (hhead ▸ hj) hacc
      · show _ = if i = k then (s.driver.queues.set j rest).get k else []
        rw [Tally.get_set, if_neg hj]
        exact h.queue i

theorem offers (hc : c.Usable) (hrouted : Routed c queues) {ks : List (Fin channels)}
    (h : Shadows c queues queues' k s s' ledger []) (hoffers : offers ks s = .ok t) :
    ∃ t' ledger, Session.offers ks s' = .ok t' ∧ Shadows c queues queues' k t t' ledger [] := by
  induction ks generalizing s s' ledger with
  | nil =>
    obtain rfl := Progress.ok_inj hoffers
    exact ⟨s', ledger, rfl, h⟩
  | cons j rest ih =>
    obtain ⟨u, hu, ht⟩ := Progress.andThen_eq_ok hoffers
    obtain ⟨u', ledger, hu', hshadows⟩ := h.offer hc hrouted hu
    obtain ⟨t', ledger, ht', hdone⟩ := ih hshadows ht
    exact ⟨t', ledger, (offers_cons_of_ok hu').trans ht', hdone⟩

/-- **A step of the whole replay is a step of the channel's own**, if it can be made at all. -/
theorem step (hc : c.Usable) (hrouted : Routed c queues)
    (h : Shadows c queues queues' k s s' ledger []) (hstep : s.step = .ok t) :
    ∃ t' ledger, s'.step = .ok t' ∧ Shadows c queues queues' k t t' ledger [] := by
  rw [quiet_step] at hstep ⊢
  obtain ⟨v, hoffers, hcycle⟩ := Progress.andThen_eq_ok hstep
  obtain ⟨v', ledger, hoffers', hv⟩ := h.offers hc hrouted hoffers
  obtain ⟨inFlight, hticked, heq⟩ := hv.whole.ticked
  obtain ⟨inFlight', hticked', heq'⟩ := hv.alone.ticked
  obtain ⟨u, hsettles, ht⟩ := hticked.settles
  obtain ⟨t', hsettles', ht'⟩ := hticked'.settles
  rw [heq] at hcycle
  split at hcycle
  · next hfits =>
    rw [hsettles] at hcycle
    obtain rfl := Progress.ok_inj hcycle
    obtain ⟨-, hqueues, -, -, hmemory⟩ := settles_frame hsettles
    obtain ⟨-, hqueues', -, -, hmemory'⟩ := settles_frame hsettles'
    refine ⟨t', _, ?_, ht, ?_, ?_, ?_⟩
    · rw [hoffers', Progress.andThen_ok, heq', if_pos (by rw [hv.cycle]; exact hfits)]
      exact hsettles'
    · -- the channel's completions answer the channel's entries
      rw [hv.memory.fired hv.whole.orderly] at ht'
      have hledger := Ledger.ofChannel_settleAll
        (fun key => half (c.fields.channel key.address)) k (v.driver.cycle + 1)
        (v.memory.fired.map Pending.key) (hv.whole.routed_entry hrouted)
      rw [show (v.ticked inFlight).driver.cycle = v.driver.cycle + 1 from rfl, hledger]
      rw [show (v'.ticked inFlight').driver.cycle = v.driver.cycle + 1 from
        congrArg (· + 1) hv.cycle] at ht'
      exact ht'
    · rw [hmemory, hmemory']
      exact hv.memory.moved inFlight inFlight'
    · rw [hqueues, hqueues']
      exact hv.queue
  · cases hcycle

theorem steps (hc : c.Usable) (hrouted : Routed c queues)
    (h : Shadows c queues queues' k s s' ledger []) {n : Nat} (hsteps : steps n s = .ok t) :
    ∃ t' ledger, Session.steps n s' = .ok t' ∧ Shadows c queues queues' k t t' ledger [] := by
  induction n generalizing t with
  | zero =>
    obtain rfl := Progress.ok_inj hsteps
    exact ⟨s', ledger, rfl, h⟩
  | succ n ih =>
    obtain ⟨u, hu, hstep⟩ := steps_succ_eq_ok hsteps
    obtain ⟨u', ledger, hu', hshadows⟩ := ih hu
    obtain ⟨t', ledger, ht', hdone⟩ := hshadows.step hc hrouted hstep
    exact ⟨t', ledger, by rw [steps_succ_of_ok hu', ht'], hdone⟩

/-- When nothing is left to do, nothing is left to do for the channel. -/
theorem isDone (h : Shadows c queues queues' k s s' ledger []) (hdone : s.driver.isDone = true) :
    s'.driver.isDone = true := by
  obtain ⟨hempty, hsettled⟩ := h.whole.conserves.all_settled h.whole.records hdone
  refine h.alone.conserves.isDone_of_settled h.alone.records (fun j => ?_) fun e he => ?_
  · rw [h.queue, hempty k, ite_self]
  · exact hsettled e (List.mem_of_mem_filter he)

end Shadows

/-! ### The end of a replay -/

section

variable {σ ω : Type} [MemorySystem σ] [Observer ω]

/-- Every request has completed. -/
structure Resting (ledger : Ledger) (s : Session σ ω) : Prop where
  records : s.driver.Records ledger
  queues : ∀ k, s.driver.queues.get k = []
  settled : ∀ e ∈ ledger, e.waits = false

/-- More steps add nothing to the books. -/
theorem Resting.step {s t : Session σ ω} (h : s.Resting ledger) (hstep : s.step = .ok t) :
    t.Resting ledger := by
  obtain ⟨u, v, w, hu, -, hoffers, hadvance, hdeliver⟩ := step_eq_ok hstep
  -- all queues are empty, so no offer is an admission
  have hsame : v.Resting ledger := by
    refine offers_invariant (P := fun _ v => v.Resting ledger) ?_ _
      ⟨hu ▸ h.records, hu ▸ h.queues, h.settled⟩ hoffers
    intro k rest x y hx hoffer
    rcases offer_eq_ok hoffer with ⟨-, rfl⟩ | ⟨_, _, _, -, -, rfl⟩ | ⟨_, _, _, _, hq, -, -, -, -⟩
    · exact hx
    · exact ⟨hx.records, hx.queues, hx.settled⟩
    · rw [hx.queues k] at hq
      cases hq
  obtain ⟨_, _, -, -, rfl⟩ := advance_eq_ok hadvance
  obtain ⟨x, hx, -, hsettles⟩ := deliver_eq_ok hdeliver
  refine settles_invariant (P := fun _ t => t.Resting ledger) ?_ _
    ⟨hx ▸ (hsame.records.clock _ _).clock _ _, hx ▸ hsame.queues, hsame.settled⟩ hsettles
  -- a completion that is matched would have been awaited
  intro key rest y z hy hsettle
  obtain ⟨⟨r, hr⟩, -, -⟩ := settle_eq_ok hsettle
  have hnone : ∀ e ∈ ledger, e.awaits key = false := fun e he => by
    simp [Entry.awaits, hy.settled e he]
  rw [hy.records.match?_of_not_awaits hnone] at hr
  cases hr

theorem Resting.slots_eq {s t : Session σ ω} (h : s.Resting ledger) {n : Nat}
    (hsteps : steps n s = .ok t) : t.driver.slots.toList = s.driver.slots.toList := by
  have ht := steps_invariant (P := fun t => t.Resting ledger) (fun _ _ hs hstep => hs.step hstep) h
    hsteps
  rw [ht.records.slots, h.records.slots]

end

end Session

/-! ### Faults -/

/-- The session moved on, or a number left 64 bits; no error was reported. -/
def Progress.Unblamed {σ ω : Type} (p : Progress σ ω) : Prop :=
  (∃ t, p = .ok t) ∨ ∃ t, p = .overflow t

namespace Session

variable {c : MemoryConfig} {queues : Vector (List Request) channels} {s : QuietSession}
  {ledger : Ledger}

/-- A step keeps books and memory in step, or a number leaves 64 bits. -/
theorem Coupled.step_unblamed (hc : c.Usable) (h : s.Coupled c queues ledger []) :
    (∃ t ledger, s.step = .ok t ∧ t.Coupled c queues ledger []) ∨ ∃ t, s.step = .overflow t := by
  rw [quiet_step]
  rcases quiet_offers (List.finRange channels) s with ⟨v, hv⟩ | ⟨v, hv⟩
  · rw [hv, Progress.andThen_ok]
    obtain ⟨ledger, hcoupled⟩ : ∃ ledger, v.Coupled c queues ledger [] :=
      offers_invariant (P := fun _ v => ∃ ledger, v.Coupled c queues ledger [])
        (fun k rest x y ⟨_, hx⟩ hoffer => hx.offer hc hoffer) _ ⟨ledger, h⟩ hv
    obtain ⟨inFlight, hticked, heq⟩ := hcoupled.ticked
    obtain ⟨t, hsettles, ht⟩ := hticked.settles
    rw [heq]
    split
    · exact .inl ⟨t, _, hsettles, ht⟩
    · exact .inr ⟨v, rfl⟩
  · rw [hv]
    exact .inr ⟨v, rfl⟩

theorem Coupled.runFor_unblamed (hc : c.Usable) (h : s.Coupled c queues ledger []) (fuel : Nat) :
    (runFor fuel s).Unblamed := by
  induction fuel generalizing s ledger with
  | zero =>
    unfold runFor
    split
    · exact .inl ⟨s, rfl⟩
    · exact .inr ⟨s, rfl⟩
  | succ fuel ih =>
    unfold runFor
    split
    · exact .inl ⟨s, rfl⟩
    · rcases h.step_unblamed hc with ⟨t, ledger, ht, hcoupled⟩ | ⟨t, ht⟩
      · rw [ht]
        exact ih hcoupled
      · rw [ht]
        exact .inr ⟨t, rfl⟩

/-- A replay ends with a report, or because a number left 64 bits. -/
theorem Coupled.run_unblamed (hc : c.Usable) (h : s.attach.Coupled c queues ledger []) :
    (∃ report, s.run.1 = .ok report) ∨ s.run.1 = .error .overflow := by
  rcases h.runFor_unblamed hc (UInt64.size - s.driver.cycle) with ⟨t, ht⟩ | ⟨t, ht⟩
  · exact .inl ⟨t.report, congrArg Prod.fst (run_of_ok ht)⟩
  · exact .inr (congrArg Prod.fst (run_of_overflow ht))

end Session

/-! ### Traces -/

variable {c : MemoryConfig} {strategy : Strategy} {trace : List Request}
  {memory : QueuedMemory Service} {report : RunReport} {last : QuietSession}

theorem routed_queues (c : MemoryConfig) (strategy : Strategy) (trace : List Request) :
    Session.Routed c (c.queues strategy trace) := by
  intro k r hr
  rw [MemoryConfig.queues, Tally.get_ofFn] at hr
  exact (Distribution.mem_queueOf _ _ _ hr).2

/-- The queues of a trace, and those of its requests for one channel. -/
theorem opening_shadows (hc : c.Usable) (hbuild : c.build = some memory) (strategy : Strategy)
    (trace : List Request) (k : Fin channels) :
    let alone := trace.filter fun r => half (c.fields.channel r.address) = k
    Session.Shadows c (c.queues strategy trace) (c.queues strategy alone) k
      (Session.opening (c.queues strategy trace) memory Silence.mk).attach
      (Session.opening (c.queues strategy alone) memory Silence.mk).attach [] [] := by
  obtain ⟨-, -, -, -, hpending, -, -⟩ := c.orderly_of_build hc hbuild
  refine ⟨.opening hc hbuild, .opening hc hbuild, ⟨rfl, ?_, .refl k _, Nat.le_refl _⟩, fun j => ?_⟩
  · show memory.pending.map _ = (memory.pending.map _).filter _
    rw [hpending]
    rfl
  · show (c.queues strategy _).get j = if j = k then (c.queues strategy trace).get k else []
    unfold MemoryConfig.queues
    rw [Tally.get_ofFn, Tally.get_ofFn]
    exact Distribution.queueOf_filter strategy c.fields.channel c.fields.bank trace k j

/-- The requests of a channel have the same stamps in a replay of their own, which ends as well. -/
theorem exists_alone (hc : c.Usable) (hbuild : c.build = some memory)
    (hrun : (Session.opening (c.queues strategy trace) memory Silence.mk).run = (.ok report, last))
    (k : Fin channels) : ∃ single last',
      (Session.opening (c.queues strategy
        (trace.filter fun r => half (c.fields.channel r.address) = k)) memory Silence.mk).run =
        (.ok single, last') ∧
      (report.requests.filter fun r => half (c.fields.channel r.address) = k) = single.requests := by
  -- beside the steps of the whole replay go the steps of the channel alone
  obtain ⟨n, u, hu, hdone, hd, -, rfl, -⟩ := Session.run_eq_ok hrun
  obtain ⟨u', ledger, hu', hshadows⟩ := (opening_shadows hc hbuild strategy trace k).steps hc
    (routed_queues c strategy trace) hu
  have hfuel : n ≤ UInt64.size - 0 := by
    have hlt := Session.steps_lt (show 0 < UInt64.size by decide) hu
    omega
  obtain ⟨i, hi, w, hw, hwdone, hrun'⟩ :=
    Session.run_of_steps hfuel hu' (hshadows.isDone hdone)
  -- the channel alone may have ended earlier; then its books have stayed as they were
  obtain ⟨wledger, hsound⟩ := Session.steps_sound (opening_isSound _ _ _) hw
  obtain ⟨hempty, hsettled⟩ := hsound.conserves.all_settled hsound.records hwdone
  obtain ⟨j, rfl⟩ := Nat.exists_eq_add_of_le hi
  have hslots := Session.Resting.slots_eq ⟨hsound.records, hempty, hsettled⟩
    (Session.steps_from hw hu')
  refine ⟨_, w, hrun', ?_⟩
  show last.driver.slots.toList.filter _ = w.driver.slots.toList
  rw [hd, ← hslots, hshadows.alone.records.slots, hshadows.whole.records.slots, List.filter_map]
  refine congrArg _ (List.filter_congr fun e he => ?_)
  rw [← hshadows.whole.routed_entry (routed_queues c strategy trace) e he]
  rfl

/-- **The channels do not interfere.** If no number leaves 64 bits in the replay of a trace on a
memory just built, then each channel has the same requests with the same stamps in a replay of its
requests alone, and the whole replay lasts as long as the longest of the eight. -/
theorem channels_independent (c : MemoryConfig) (strategy : Strategy) (trace : List Request)
    (memory : QueuedMemory Service) (hvalid : c.validate = .ok ()) (hbuild : c.build = some memory)
    (hfits : (replay strategy trace memory Silence.mk).1 ≠ .error .overflow) :
    ∃ report, (replay strategy trace memory Silence.mk).1 = .ok report ∧
      ∃ single : Fin channels → RunReport,
        (∀ k, (replay strategy (trace.filter fun r => half (c.fields.channel r.address) = k) memory
            Silence.mk).1 = .ok (single k) ∧
          (report.requests.filter fun r => half (c.fields.channel r.address) = k) =
            (single k).requests) ∧
        report.cycles = Finset.univ.sup fun k => (single k).cycles := by
  have hc := MemoryConfig.usable_of_validate hvalid
  obtain ⟨hfields, -⟩ := MemoryConfig.orderly_of_build hc hbuild
  have hopening : (Session.opening (c.queues strategy trace) memory Silence.mk).attach.Coupled c
      (c.queues strategy trace) [] [] := .opening hc hbuild
  -- the replay reports no error, so it ends with a report unless it overflows
  have hunblamed := hopening.run_unblamed hc
  rcases hrun : (Session.opening (c.queues strategy trace) memory Silence.mk).run with ⟨result, last⟩
  rw [hrun] at hunblamed
  have hwhole := congrArg Prod.fst (replay_built hc hfields strategy trace hrun)
  rw [hwhole] at hfits ⊢
  obtain ⟨report, rfl⟩ : ∃ report, result = .ok report := hunblamed.resolve_right hfits
  choose single last' hsingle hrequests using exists_alone hc hbuild hrun
  refine ⟨report, rfl, single, fun k => ⟨?_, hrequests k⟩, ?_⟩
  · exact congrArg Prod.fst (replay_built hc hfields strategy _ (hsingle k))
  · -- a replay lasts until its last completion, which is the last one of its channel
    obtain ⟨_, hfaithful⟩ := exists_faithful hrun
    rw [hfaithful.cycles, Tally.max?_eq_sup fun r : Request => half (c.fields.channel r.address)]
    refine Finset.sup_congr rfl fun k _ => ?_
    obtain ⟨_, hfaithful'⟩ := exists_faithful (hsingle k)
    rw [hfaithful'.cycles, hrequests k]

/-- Open rows with two banks in each pseudo-channel. -/
def quickRows (bus : Bus) : MemoryConfig :=
  { model := .rowBuffer, bus, rows := ⟨1, 2, 3⟩, fields := ⟨10, 14, 1, 18⟩ }

/-- The memory that they describe. -/
def quickMemory (bus : Bus) : QueuedMemory Service where
  model := .rows
    { timing := ⟨1, 2, 3⟩, fields := ⟨10, 14, 1, 18⟩, openRows := Array.replicate 32 none }
  fields := ⟨10, 14, 1, 18⟩
  queueDepth := 32
  bus := bus

/-- Two rows of one bank in channel 0, and a write in channel 1. -/
def mixedTrace : List Request := [.fresh 0 .read, .fresh 0x40000 .read, .fresh 0x800 .write]

theorem replay_quickMemory_ne_overflow :
    (replay .roundRobin mixedTrace (quickMemory {}) Silence.mk).1 ≠ .error .overflow :=
  replay_ne_overflow (c := quickRows {}) (MemoryConfig.usable_of_validate rfl) rfl .roundRobin
    mixedTrace (by decide)

/-- The second row keeps channel 0 busy when channel 1 has long come to its end. -/
theorem channels_independent_quickRows :
    (quickRows {}).validate = .ok () ∧ (quickRows {}).build = some (quickMemory {}) ∧
    (replay .roundRobin mixedTrace (quickMemory {}) Silence.mk).1 ≠ .error .overflow ∧
    ∃ report, (replay .roundRobin mixedTrace (quickMemory {}) Silence.mk).1 = .ok report ∧
      ∃ single : Fin channels → RunReport,
        (∀ k, (replay .roundRobin
            (mixedTrace.filter fun r => half ((quickRows {}).fields.channel r.address) = k)
            (quickMemory {}) Silence.mk).1 = .ok (single k) ∧
          (report.requests.filter fun r => half ((quickRows {}).fields.channel r.address) = k) =
            (single k).requests) ∧
        report.cycles = Finset.univ.sup fun k => (single k).cycles :=
  ⟨rfl, rfl, replay_quickMemory_ne_overflow,
    channels_independent (quickRows {}) .roundRobin mixedTrace (quickMemory {}) rfl rfl
      replay_quickMemory_ne_overflow⟩

end MemoryReplay
