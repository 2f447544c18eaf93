import Mathlib
import MemoryReplay.Memory.Scripted
import MemoryReplay.Proofs.Memory.Recorded

/-!
# Reports of finished replays

A replay that ends tells the truth about every request, over any memory: also over one that
refuses for a while, completes in another order, or reports what nobody asked for.

- `Driver.Sound queues left d ledger`: the invariant in a cycle in which the channels `left` have
  not offered yet. Admissions are ordered by cycle and channel, and every completed request was
  stamped later than it was admitted.
- `Session.step_sound`: a step keeps it, and a step that completes something stamps it last.
- `RunReport.Faithful`: what a report says of the queues it comes from.
- `run_faithful`: every report is faithful, and counts the ticks of the memory.
-/

namespace MemoryReplay

/-- When and from where a request was admitted; earlier cycles first, then earlier channels. -/
def Entry.admission (e : Entry) : Nat ×ₗ Fin channels := toLex (e.request.issueCycle, e.channel)

namespace Driver

/-- The books in a cycle in which the channels `left` have not offered yet. -/
structure Sound (queues : Vector (List Request) channels) (left : List (Fin channels))
    (d : Driver) (ledger : Ledger) : Prop where
  records : d.Records ledger
  conserves : d.Conserves queues ledger
  increasing : (ledger.map Entry.admission).Pairwise (· < ·)
  offered : ∀ e ∈ ledger, ∀ k ∈ left, e.admission < toLex (d.cycle, k)
  issued : ∀ e ∈ ledger, e.request.issueCycle ≤ d.cycle
  stamped : ∀ e ∈ ledger, e.waits = false → e.request.completed = true ∧
    e.request.issueCycle < e.request.completeCycle ∧ e.request.completeCycle ≤ d.cycle

variable {queues : Vector (List Request) channels} {left : List (Fin channels)} {d : Driver}
  {ledger : Ledger}

theorem ofQueues_sound (queues : Vector (List Request) channels) (left : List (Fin channels)) :
    (ofQueues queues).Sound queues left [] where
  records := ofQueues_records queues
  conserves := ofQueues_conserves queues
  increasing := .nil
  offered := by simp
  issued := by simp
  stamped := by simp

namespace Sound

theorem skip {k : Fin channels} (h : d.Sound queues (k :: left) ledger) :
    d.Sound queues left ledger :=
  { h with offered := fun e he j hj => h.offered e he j (List.mem_cons_of_mem _ hj) }

theorem issue {k : Fin channels} {head : Request} {rest : List Request}
    (h : d.Sound queues (k :: left) ledger) (hleft : ∀ j ∈ left, k < j)
    (hq : d.queues.get k = head :: rest) :
    (d.issue k head rest).Sound queues left
      (ledger ++ [⟨head.markIssued d.cycle, k, true⟩]) where
  records := h.records.issue k head rest
  conserves := h.conserves.issue hq
  increasing := by
    rw [List.map_append, List.pairwise_append]
    refine ⟨h.increasing, List.pairwise_singleton .., fun a ha b hb => ?_⟩
    obtain ⟨e, he, rfl⟩ := List.mem_map.mp ha
    obtain rfl := List.mem_singleton.mp hb
    exact h.offered e he k List.mem_cons_self
  offered := by
    intro e he j hj
    rcases List.mem_append.mp he with he | he
    · exact h.offered e he j (List.mem_cons_of_mem _ hj)
    · -- the newest admission is from this cycle, and from an earlier channel
      obtain rfl := List.mem_singleton.mp he
      exact Prod.Lex.toLex_lt_toLex.mpr (.inr ⟨rfl, hleft j hj⟩)
  issued := by
    intro e he
    rcases List.mem_append.mp he with he | he
    · exact h.issued e he
    · obtain rfl := List.mem_singleton.mp he
      exact Nat.le_refl _
  stamped := by
    intro e he hdone
    rcases List.mem_append.mp he with he | he
    · exact h.stamped e he hdone
    · obtain rfl := List.mem_singleton.mp he
      cases hdone

/-- In the next cycle every channel may offer again. -/
theorem tick (h : d.Sound queues left ledger) (next : List (Fin channels))
    (mailbox : List Completion) :
    ({ d with cycle := d.cycle + 1, mailbox } : Driver).Sound queues next ledger where
  records := h.records.clock _ mailbox
  conserves := h.conserves.clock _ mailbox
  increasing := h.increasing
  offered e he _ _ := Prod.Lex.toLex_lt_toLex.mpr (.inl (Nat.lt_succ_of_le (h.issued e he)))
  issued e he := Nat.le_succ_of_le (h.issued e he)
  stamped e he hdone := by
    obtain ⟨hcompleted, hlt, hle⟩ := h.stamped e he hdone
    exact ⟨hcompleted, hlt, Nat.le_succ_of_le hle⟩

theorem empty_mailbox (h : d.Sound queues left ledger) :
    ({ d with mailbox := [] } : Driver).Sound queues left ledger :=
  { records := h.records.clock _ [], conserves := h.conserves.clock _ []
    increasing := h.increasing, offered := h.offered, issued := h.issued, stamped := h.stamped }

/-- Once all channels may offer again, every admission lies in an earlier cycle. -/
theorem issued_lt (h : d.Sound queues (List.finRange channels) ledger) :
    ∀ e ∈ ledger, e.request.issueCycle < d.cycle := by
  intro e he
  have hoffered := h.offered e he e.channel (List.mem_finRange _)
  rcases Prod.Lex.toLex_lt_toLex.mp hoffered with hlt | ⟨-, hlt⟩
  · exact hlt
  · exact absurd hlt (lt_irrefl _)

theorem settle {key : Completion} (h : d.Sound queues (List.finRange channels) ledger)
    (hsome : ∃ e ∈ ledger, e.awaits key = true) :
    (d.match? key).2.Sound queues (List.finRange channels) (ledger.settle key d.cycle) := by
  obtain ⟨-, -, hcycle, -⟩ := d.match?_frame key
  -- a completion does not touch the stamps of admission
  have hadmission : ∀ e ∈ ledger.settle key d.cycle,
      ∃ x ∈ ledger, e.admission = x.admission ∧ e.request.issueCycle = x.request.issueCycle := by
    intro e he
    rcases Ledger.mem_settle he with he | ⟨x, hx, -, rfl⟩
    · exact ⟨e, he, rfl, rfl⟩
    · exact ⟨x, hx, rfl, rfl⟩
  refine ⟨(h.records.match?_of_awaits hsome).2, h.conserves.settle key d.cycle, ?_, ?_, ?_, ?_⟩
  · rw [Ledger.map_settle Entry.admission key (fun _ => rfl)]
    exact h.increasing
  · intro e he k hk
    obtain ⟨x, hx, hadm, -⟩ := hadmission e he
    rw [hadm, hcycle]
    exact h.offered x hx k hk
  · intro e he
    obtain ⟨x, hx, -, hissue⟩ := hadmission e he
    rw [hissue, hcycle]
    exact h.issued x hx
  · intro e he hdone
    rw [hcycle]
    rcases Ledger.mem_settle he with he | ⟨x, hx, -, rfl⟩
    · exact h.stamped e he hdone
    · exact ⟨rfl, h.issued_lt x hx, Nat.le_refl _⟩

end Sound

end Driver

namespace Session

variable {σ ω : Type} [MemorySystem σ] [Observer ω] {queues : Vector (List Request) channels}

/-- The books of a session are sound, with every channel still to offer. -/
def IsSound (queues : Vector (List Request) channels) (s : Session σ ω) : Prop :=
  ∃ ledger, s.driver.Sound queues (List.finRange channels) ledger

theorem offers_sound {s t : Session σ ω} (hs : s.IsSound queues)
    (h : offers (List.finRange channels) s = .ok t) : ∃ ledger, t.driver.Sound queues [] ledger := by
  -- the channels that are left are in ascending order, so a later admission has a later channel
  have hinv := offers_invariant (P := fun left (t : Session σ ω) =>
    left.Pairwise (· < ·) ∧ ∃ ledger, t.driver.Sound queues left ledger) ?_ _
    ⟨List.pairwise_lt_finRange _, hs⟩ h
  · exact hinv.2
  rintro k left u v ⟨hsorted, ledger, hu⟩ hoffer
  obtain ⟨hleft, hsorted⟩ := List.pairwise_cons.mp hsorted
  refine ⟨hsorted, ?_⟩
  rcases offer_eq_ok hoffer with ⟨-, rfl⟩ | ⟨_, _, _, -, -, rfl⟩ |
    ⟨head, rest, _, _, hq, -, -, hd, -⟩
  · exact ⟨ledger, hu.skip⟩
  · exact ⟨ledger, hu.skip⟩
  · rw [hd]
    exact ⟨_, hu.issue hleft hq⟩

omit [MemorySystem σ] in
/-- Completions keep the books sound, and if there are any, one bears the latest stamp. -/
theorem settles_sound {keys : List Completion} {s t : Session σ ω} (hs : s.IsSound queues)
    (h : settles keys s = .ok t) :
    t.IsSound queues ∧ (t.driver.completed = s.driver.completed ∨
      ∃ r ∈ t.driver.slots.toList, r.completeCycle = t.driver.cycle) := by
  refine settles_invariant (P := fun _ (t : Session σ ω) => t.IsSound queues ∧
    (t.driver.completed = s.driver.completed ∨
      ∃ r ∈ t.driver.slots.toList, r.completeCycle = t.driver.cycle)) ?_ keys ⟨hs, .inl rfl⟩ h
  rintro key rest u v ⟨⟨ledger, hu⟩, -⟩ hsettle
  obtain ⟨⟨r, hr⟩, hd, -⟩ := settle_eq_ok hsettle
  have hsome : ∃ e ∈ ledger, e.awaits key = true := by
    rcases ledger.awaited_or key with hsome | hnone
    · exact hsome
    · rw [hu.records.match?_of_not_awaits hnone] at hr
      cases hr
  have hv := hu.settle hsome
  obtain ⟨x, -, -, hx⟩ := Ledger.exists_settled u.driver.cycle hsome
  unfold IsSound
  rw [hd]
  refine ⟨⟨_, hv⟩, .inr ⟨(x.settle u.driver.cycle).request, ?_, ?_⟩⟩
  · rw [hv.records.slots]
    exact List.mem_map_of_mem hx
  · exact (u.driver.match?_frame key).2.2.1.symm

/-- A step keeps the books sound, and what it completes bears the latest stamp. -/
theorem step_sound {s t : Session σ ω} (hs : s.IsSound queues) (h : s.step = .ok t) :
    t.IsSound queues ∧ (t.driver.completed = s.driver.completed ∨
      ∃ r ∈ t.driver.slots.toList, r.completeCycle = t.driver.cycle) := by
  obtain ⟨u, v, w, hu, -, hoffers, hadvance, hdeliver⟩ := step_eq_ok h
  obtain ⟨ledger, hv⟩ := offers_sound (s := u) (by unfold IsSound; rw [hu]; exact hs) hoffers
  obtain ⟨_, _, -, -, rfl⟩ := advance_eq_ok hadvance
  obtain ⟨x, hx, -, hsettles⟩ := deliver_eq_ok hdeliver
  have hsound : x.IsSound queues := by
    unfold IsSound
    rw [hx]
    exact ⟨ledger, (hv.tick (List.finRange channels) _).empty_mailbox⟩
  obtain ⟨ht, hlast⟩ := settles_sound hsound hsettles
  have hcompleted : x.driver.completed = s.driver.completed := by
    rw [hx, ← hu]
    exact (offers_frame hoffers).2.1
  exact ⟨ht, hcompleted ▸ hlast⟩

theorem steps_sound {n : Nat} {s t : Session σ ω} (hs : s.IsSound queues)
    (h : steps n s = .ok t) : t.IsSound queues :=
  steps_invariant (fun _ _ hs hstep => (step_sound hs hstep).1) hs h

/-- A session that is about to begin. -/
def opening (queues : Vector (List Request) channels) (memory : σ) (observer : ω) : Session σ ω :=
  { driver := .ofQueues queues, memory, observer }

/-- A replay that ends has made some number of steps, the last of them with something left to do. -/
theorem run_eq_ok {s t : Session σ ω} {report : RunReport} (h : s.run = (.ok report, t)) :
    ∃ n u, steps n s.attach = .ok u ∧ u.driver.isDone = true ∧ t.driver = u.driver ∧
      t.memory = u.memory ∧ report = t.report ∧
      ∀ m < n, ∀ v, steps m s.attach = .ok v → v.driver.isDone = false := by
  unfold run at h
  split at h
  · next v hcomplete =>
    cases h
    obtain ⟨u, hu, htell⟩ := Progress.andThen_eq_ok hcomplete
    obtain ⟨hd, hm⟩ := tell_eq_ok htell
    obtain ⟨n, -, hsteps, hdone, hfirst⟩ := runFor_eq_ok hu
    exact ⟨n, u, hsteps, hdone, hd, hm, rfl, hfirst⟩
  · cases h

end Session

/-- A replay that succeeded was a distribution and a run. -/
theorem replay_eq_ok {σ ω : Type} [MemorySystem σ] [Observer ω] {strategy : Strategy}
    {trace : List Request} {memory last : σ} {observer after : ω} {report : RunReport}
    (h : replay strategy trace memory observer = (.ok report, last, after)) :
    ∃ queues final, Distribution.distribute (MemorySystem.channelOf memory) (MemorySystem.bankOf memory)
        strategy trace = .ok queues ∧
      (Session.opening queues memory observer).run = (.ok report, final) ∧
      final.memory = last ∧ final.observer = after := by
  unfold replay at h
  split at h
  · cases h
  · next queues hqueues =>
    rcases hrun : (Session.opening queues memory observer).run with ⟨result, final⟩
    unfold Session.opening at hrun
    dsimp only at h
    rw [hrun] at h
    cases h
    exact ⟨queues, final, hqueues, hrun, rfl, rfl⟩

/-- What a report says of the queues it comes from; `origin` is its list of requests, each with
its channel. -/
structure RunReport.Faithful (report : RunReport) (queues : Vector (List Request) channels)
    (origin : List (Fin channels × Request)) : Prop where
  requests : report.requests = origin.map Prod.snd
  /-- Every queue is there, complete and in its order. -/
  interleaving : ∀ k, ((origin.filter fun p => p.1 = k).map fun p => p.2.unstamped) =
    (queues.get k).map Request.unstamped
  /-- Admissions are in the order of cycles and channels, and no two are from the same. -/
  increasing : (origin.map fun p => toLex (p.2.issueCycle, p.1)).Pairwise (· < ·)
  completed : ∀ r ∈ report.requests, r.completed = true ∧ r.issueCycle < r.completeCycle
  admitted : ∀ k, report.admitted.get k = (queues.get k).length
  /-- The replay lasts until the last completion. -/
  cycles : report.cycles = (report.requests.map Request.completeCycle).max?.getD 0

open Session in
/-- A replay lasts as long as its latest completion says. -/
theorem cycle_eq_max? {σ ω : Type} [MemorySystem σ] [Observer ω]
    {queues : Vector (List Request) channels} {n : Nat} {s t : Session σ ω}
    (hs : s.IsSound queues) (hzero : s.driver.cycle = 0) (h : steps n s = .ok t)
    (hdone : t.driver.isDone = true)
    (hfirst : ∀ m < n, ∀ u, steps m s = .ok u → u.driver.isDone = false) :
    t.driver.cycle = (t.driver.slots.toList.map Request.completeCycle).max?.getD 0 := by
  obtain ⟨ledger, ht⟩ := steps_sound hs h
  have hsettled := (ht.conserves.all_settled ht.records hdone).2
  have hle : ∀ c ∈ t.driver.slots.toList.map Request.completeCycle, c ≤ t.driver.cycle := by
    intro c hc
    rw [ht.records.slots, List.map_map] at hc
    obtain ⟨e, he, rfl⟩ := List.mem_map.mp hc
    exact (ht.stamped e he (hsettled e he)).2.2
  cases n with
  | zero =>
    -- nothing was ever admitted
    obtain rfl := Progress.ok_inj h
    have hempty : ledger = [] := by
      by_contra hne
      obtain ⟨e, he⟩ := List.exists_mem_of_ne_nil ledger hne
      have hlt := ht.issued_lt e he
      omega
    rw [ht.records.slots, hempty, hzero]
    rfl
  | succ n =>
    obtain ⟨u, hu, hlast⟩ := steps_succ_eq_ok h
    have hbusy : ¬ u.driver.total ≤ u.driver.completed := by
      simpa [Driver.isDone] using hfirst n (Nat.lt_succ_self n) u hu
    have hended : t.driver.total ≤ t.driver.completed := by simpa [Driver.isDone] using hdone
    have htotal := (step_cycle hlast).2.2
    -- the last step made the difference, so it completed a request, in the last cycle
    rcases (step_sound (steps_sound hs hu) hlast).2 with hsame | ⟨r, hr, hstamp⟩
    · omega
    · have hmax : (t.driver.slots.toList.map Request.completeCycle).max? = some t.driver.cycle :=
        List.max?_eq_some_iff.mpr ⟨hstamp ▸ List.mem_map_of_mem hr, hle⟩
      rw [hmax]
      rfl

section

variable {σ ω : Type} [MemorySystem σ] [Observer ω] {queues : Vector (List Request) channels}
  {memory : σ} {observer : ω} {report : RunReport} {last : Session σ ω}

omit [Observer ω] in
theorem opening_isSound (queues : Vector (List Request) channels) (memory : σ) (observer : ω) :
    (Session.opening queues memory observer).attach.IsSound queues :=
  ⟨[], Driver.ofQueues_sound queues _⟩

/-- A report lists the queues, interleaved in the order of admission. -/
theorem exists_faithful (h : (Session.opening queues memory observer).run = (.ok report, last)) :
    ∃ origin, report.Faithful queues origin := by
  obtain ⟨n, u, hsteps, hdone, hd, -, rfl, hfirst⟩ := Session.run_eq_ok h
  obtain ⟨ledger, hu⟩ := Session.steps_sound (opening_isSound queues memory observer) hsteps
  obtain ⟨hqueues, hsettled⟩ := hu.conserves.all_settled hu.records hdone
  have hcycle := cycle_eq_max? (opening_isSound queues memory observer) rfl hsteps hdone hfirst
  -- the ledger is the interleaving: it knows the channel of every request
  refine ⟨ledger.map fun e => (e.channel, e.request), ?_⟩
  refine { requests := ?_, interleaving := fun k => ?_, increasing := ?_, completed := ?_,
           admitted := fun k => ?_, cycles := ?_ }
  · show last.driver.slots.toList = _
    rw [hd, hu.records.slots, List.map_map]
    rfl
  · have horigin := hu.conserves.origin k
    rw [hqueues k, List.map_nil, List.append_nil] at horigin
    rw [← horigin, List.filter_map, List.map_map]
    rfl
  · rw [List.map_map]
    exact hu.increasing
  · intro r hr
    have hr' : r ∈ last.driver.slots.toList := hr
    rw [hd, hu.records.slots] at hr'
    obtain ⟨e, he, rfl⟩ := List.mem_map.mp hr'
    obtain ⟨hcompleted, hlt, -⟩ := hu.stamped e he (hsettled e he)
    exact ⟨hcompleted, hlt⟩
  · show last.driver.admitted.get k = _
    have hlength := congrArg List.length (hu.conserves.origin k)
    rw [hqueues k, List.map_nil, List.append_nil, List.length_map, List.length_map] at hlength
    rw [hd, hu.records.admitted k, List.countP_eq_length_filter]
    exact hlength
  · show last.driver.cycle = (last.driver.slots.toList.map _).max?.getD 0
    rw [hd]
    exact hcycle

/-- With a record, the replay is the same and the memory has been ticked once a cycle. -/
theorem run_recorded (h : (Session.opening queues memory observer).run = (.ok report, last)) :
    ∃ final : Session (Recorded σ) ω,
      (Session.opening queues (Recorded.mk memory []) observer).run = (.ok report, final) ∧
        final.mapMemory Recorded.memory = last ∧ final.memory.ticks = report.cycles := by
  -- forgetting the record gives back the replay without it
  have hsame := Session.run_mapMemory (Recorded.projects σ)
    (Session.opening queues (Recorded.mk memory []) observer)
  rcases hrun : (Session.opening queues (Recorded.mk memory []) observer).run with ⟨outcome, final⟩
  rw [hrun] at hsame
  have hplain : (outcome, final.mapMemory Recorded.memory) = (.ok report, last) :=
    hsame.symm.trans h
  obtain ⟨rfl, hlast⟩ := Prod.mk.inj hplain
  refine ⟨final, rfl, hlast, ?_⟩
  obtain ⟨n, u, hsteps, -, hd, hm, rfl, -⟩ := Session.run_eq_ok hrun
  show final.memory.ticks = final.driver.cycle
  have hticks := Session.steps_ticks hsteps
  have hcycle := (Session.steps_cycle hsteps).1
  rw [hm, hd, hticks, hcycle]
  rfl

end

/-- **Every finished replay is reported faithfully**, over any memory and any observer. Over the
same memory with a record the replay is the same, and the record shows one tick for each cycle. -/
theorem run_faithful {σ ω : Type} [MemorySystem σ] [Observer ω]
    (queues : Vector (List Request) channels) (memory : σ) (observer : ω) {report : RunReport}
    {last : Session σ ω}
    (h : (Session.opening queues memory observer).run = (.ok report, last)) :
    (∃ origin, report.Faithful queues origin) ∧
      ∃ final : Session (Recorded σ) ω,
        (Session.opening queues (Recorded.mk memory []) observer).run = (.ok report, final) ∧
          final.mapMemory Recorded.memory = last ∧ final.memory.ticks = report.cycles :=
  ⟨exists_faithful h, run_recorded h⟩

/-- Two reads of one address in channel 0 and a write in channel 1. -/
def threeRequests : Vector (List Request) channels :=
  Vector.ofFn fun k => match k.val with
    | 0 => [.fresh 0 .read, .fresh 0 .read]
    | 1 => [.fresh 64 .write]
    | _ => []

/-- A memory that takes requests in odd cycles only, and for which a read takes longer. -/
def oddCycles (bus : Bus) : ScriptedMemory :=
  { readLatency := 3, acceptPeriod := 2, acceptPhase := 1, bus }

theorem cycles_oddCycles (bus : Bus) :
    (Session.opening threeRequests (oddCycles bus) Silence.mk).run.1.toOption.map RunReport.cycles
      = some 6 := by
  cbv

/-- The second read waits two cycles for admission and completes last. -/
theorem run_faithful_oddCycles :
    ∃ report last, (Session.opening threeRequests (oddCycles {}) Silence.mk).run = (.ok report, last) ∧
      report.cycles = 6 ∧ (∃ origin, report.Faithful threeRequests origin) ∧
        ∃ final : Session (Recorded ScriptedMemory) Silence,
          (Session.opening threeRequests (Recorded.mk (oddCycles {}) []) Silence.mk).run
            = (.ok report, final) ∧
          final.mapMemory Recorded.memory = last ∧ final.memory.ticks = report.cycles := by
  have hcycles := cycles_oddCycles {}
  rcases hrun : (Session.opening threeRequests (oddCycles {}) Silence.mk).run with ⟨_ | report, last⟩
  · rw [hrun] at hcycles
    cases hcycles
  · rw [hrun] at hcycles
    exact ⟨report, last, rfl, Option.some.inj hcycles, run_faithful _ _ _ hrun⟩

end MemoryReplay
