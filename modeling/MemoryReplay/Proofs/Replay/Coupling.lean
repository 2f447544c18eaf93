import MemoryReplay.Proofs.Memory.Queued
import MemoryReplay.Proofs.Replay.Phases

/-!
# Books and memory of a built-in replay

A replay on a built-in memory, with nobody watching, keeps its books and its memory in step: what
is under way in the memory is what the books wait for. So no completion is ever unmatched.

- `QuietSession`: such a replay. `granted`, `ticked`, `settled`: what its phases do to it.
- `Session.Coupled c queues s ledger events`: the invariant. The completions `events` have been
  reported and are still to be matched.
- `Coupled.granted`, `Coupled.ticked`, `Coupled.settles`: the phases keep it. `Coupled.cycle_eq_ok`: the
  last two together.
-/

namespace MemoryReplay

/-- A replay on a built-in memory with nobody watching. -/
abbrev QuietSession := Session (QueuedMemory Service) Silence

/-- Requests under way, counted by what they report. -/
theorem Pending.count_key (pending : List Pending) (key : Completion) :
    (pending.map Pending.key).count key = pending.countP (·.key = key) := by
  rw [List.count, List.countP_map]
  exact List.countP_congr fun p _ => by simp

namespace Session

variable {c : MemoryConfig} {queues : Vector (List Request) channels} {s t : QuietSession}
  {k : Fin channels} {head : Request} {rest : List Request} {latency : Nat} {model : Service}
  {key : Completion} {ledger : Ledger} {events : List Completion}

/-! ### The phases in closed form -/

/-- The head of a queue has been admitted with a latency. -/
def granted (s : QuietSession) (k : Fin channels) (head : Request) (rest : List Request)
    (latency : Nat) (model : Service) : QuietSession :=
  { s with
    driver := s.driver.issue k head rest
    memory := s.memory.joined head.address head.direction latency model }

/-- Clock and memory have been moved on by a cycle. -/
def ticked (s : QuietSession) (inFlight : Vector Nat pseudoChannels) : QuietSession :=
  { s with
    driver := { s.driver with cycle := s.driver.cycle + 1 }
    memory := s.memory.moved inFlight }

/-- A completion has been matched. -/
def settled (s : QuietSession) (key : Completion) : QuietSession :=
  { s with driver := (s.driver.match? key).2 }

theorem quiet_ext {s t : QuietSession} (hd : s.driver = t.driver) (hm : s.memory = t.memory) :
    s = t := by
  cases s
  cases t
  cases hd
  cases hm
  rfl

theorem offer_of_nil (h : s.driver.queues.get k = []) : s.offer k = .ok s := by
  unfold offer
  rw [h]

theorem offer_of_full (hq : s.driver.queues.get k = head :: rest)
    (h : s.memory.hasRoom head.address = some false) : s.offer k = .ok s := by
  have hasked : MemorySystem.accepts s.memory head.address head.direction =
      some (false, s.memory) := by
    show (s.memory.hasRoom head.address).map _ = _
    rw [h]
    rfl
  simp only [offer, hq, hasked]

theorem offer_of_room (hq : s.driver.queues.get k = head :: rest)
    (h : s.memory.hasRoom head.address = some true) :
    s.offer k = match s.memory.add head.address head.direction with
      | none => .overflow s
      | some memory => .ok { s with driver := s.driver.issue k head rest, memory } := by
  have hasked : MemorySystem.accepts s.memory head.address head.direction =
      some (true, s.memory) := by
    show (s.memory.hasRoom head.address).map _ = _
    rw [h]
    rfl
  cases hadd : s.memory.add head.address head.direction with
  | none =>
    have hsubmit : MemorySystem.submit s.memory head.address head.direction = none := hadd
    simp only [offer, hq, hasked, hsubmit]
  | some memory =>
    have hsubmit : MemorySystem.submit s.memory head.address head.direction = some memory := hadd
    simp only [offer, hq, hasked, hsubmit]
    rfl

theorem offer_of_admission (hq : s.driver.queues.get k = head :: rest)
    (h : s.memory.hasRoom head.address = some true) (hinside : s.memory.fields.Inside)
    (hacc : s.memory.model.access head.address head.direction = some (latency, model))
    (hdue : s.memory.now + latency < UInt64.size)
    (htotal : s.memory.totalLatency + latency < UInt64.size) :
    s.offer k = .ok (s.granted k head rest latency model) := by
  have hadd := QueuedMemory.add_eq_some_iff.mpr
    ⟨hinside.channel, latency, model, hacc, hdue, htotal, rfl⟩
  rw [offer_of_room hq h, hadd]
  rfl

/-- An offer changes nothing unless the channel has a request for which there is room. -/
theorem offer_or_room (hinside : s.memory.fields.Inside) (k : Fin channels) :
    s.offer k = .ok s ∨ ∃ head rest, s.driver.queues.get k = head :: rest ∧
      s.memory.hasRoom head.address = some true := by
  cases hq : s.driver.queues.get k with
  | nil => exact .inl (offer_of_nil hq)
  | cons head rest =>
    have hroom := QueuedMemory.hasRoom_eq hinside head.address
    cases hfree : decide (s.memory.inFlight.get (s.memory.fields.channel head.address)
        < s.memory.queueDepth.toNat) with
    | false => exact .inl (offer_of_full hq (hfree ▸ hroom))
    | true => exact .inr ⟨head, rest, rfl, hfree ▸ hroom⟩

/-- An offer in a quiet replay: nothing to offer, no room, or the head is admitted. -/
theorem quiet_offer_eq_ok (hinside : s.memory.fields.Inside) (h : s.offer k = .ok t) :
    (s.driver.queues.get k = [] ∧ t = s) ∨
    (∃ head rest, s.driver.queues.get k = head :: rest ∧
      s.memory.hasRoom head.address = some false ∧ t = s) ∨
    (∃ head rest latency model, s.driver.queues.get k = head :: rest ∧
      s.memory.hasRoom head.address = some true ∧
      s.memory.model.access head.address head.direction = some (latency, model) ∧
      s.memory.now + latency < UInt64.size ∧ s.memory.totalLatency + latency < UInt64.size ∧
      t = s.granted k head rest latency model) := by
  rcases offer_eq_ok h with ⟨hq, rfl⟩ | ⟨head, rest, memory, hq, hasked, rfl⟩ |
    ⟨head, rest, asked, memory, hq, hasked, hadd, hd, hm⟩
  · exact .inl ⟨hq, rfl⟩
  · obtain ⟨room, hroom, heq⟩ := Option.map_eq_some_iff.mp hasked
    obtain ⟨rfl, rfl⟩ := Prod.mk.inj heq
    exact .inr (.inl ⟨head, rest, hq, hroom, rfl⟩)
  · obtain ⟨room, hroom, heq⟩ := Option.map_eq_some_iff.mp hasked
    obtain ⟨rfl, rfl⟩ := Prod.mk.inj heq
    obtain ⟨-, latency, model, hacc, hdue, htotal, rfl⟩ := QueuedMemory.add_eq_some_iff.mp hadd
    refine .inr (.inr ⟨head, rest, latency, model, hq, hroom, hacc, hdue, htotal, ?_⟩)
    exact quiet_ext hd hm

/-- A cycle: the clock leaves 64 bits, or what is due is matched. -/
theorem advance_andThen_deliver {inFlight : Vector Nat pseudoChannels}
    (hmailbox : s.driver.mailbox = []) (hclock : s.memory.now = s.driver.cycle)
    (hadvance : s.memory.advance = (Word.fits (s.memory.now + 1)).map fun _ =>
      (s.memory.moved inFlight, s.memory.fired.map Pending.key)) :
    s.advance.andThen deliver = if s.driver.cycle + 1 < UInt64.size then
      settles (s.memory.fired.map Pending.key) (s.ticked inFlight) else .overflow s := by
  -- both clocks show the same, so they leave 64 bits together
  have htick : MemorySystem.tick s.memory = (Word.fits (s.driver.cycle + 1)).map fun _ =>
      (s.memory.moved inFlight, s.memory.fired.map Pending.key) := hclock ▸ hadvance
  split
  · next hfits =>
    rw [Word.fits_eq_some_iff.mpr ⟨rfl, hfits⟩] at htick
    rw [quiet_cycle htick hfits, hmailbox, List.nil_append]
    unfold ticked
    rw [← hmailbox]
  · next hover => exact quiet_cycle_overflow (.inr hover)

/-! ### The invariant -/

/-- Books and memory agree on what is under way; the completions `events` have been reported and
are still to be matched. -/
structure Coupled (c : MemoryConfig) (queues : Vector (List Request) channels) (s : QuietSession)
    (ledger : Ledger) (events : List Completion) : Prop where
  records : s.driver.Records ledger
  conserves : s.driver.Conserves queues ledger
  mailbox : s.driver.mailbox = []
  clock : s.memory.now = s.driver.cycle
  orderly : s.memory.Orderly c
  tallied : s.memory.Tallied
  admitted : s.memory.admitted = ledger.length
  awaited : ∀ key, ledger.countP (Entry.awaits key) =
    s.memory.pending.countP (·.key = key) + events.count key

namespace Coupled

theorem inside (h : s.Coupled c queues ledger events) (hc : c.Usable) : s.memory.fields.Inside :=
  h.orderly.inside hc

theorem granted (h : s.Coupled c queues ledger events) (hc : c.Usable)
    (hq : s.driver.queues.get k = head :: rest)
    (hacc : s.memory.model.access head.address head.direction = some (latency, model)) :
    (s.granted k head rest latency model).Coupled c queues
      (ledger ++ [⟨head.markIssued s.driver.cycle, k, true⟩]) events where
  records := h.records.issue k head rest
  conserves := h.conserves.issue hq
  mailbox := h.mailbox
  clock := h.clock
  orderly := h.orderly.joined hc hacc
  tallied := h.tallied.joined h.orderly hc hacc
  admitted := by
    show s.memory.admitted + 1 = _
    rw [h.admitted, List.length_append, List.length_singleton]
  awaited key := by
    show _ = (s.memory.joined _ _ _ _).pending.countP _ + _
    rw [s.memory.pending_joined_perm.countP_eq, List.countP_cons, List.countP_append, h.awaited]
    -- the new entry awaits what the new request in the memory reports
    have hkey : Entry.awaits key ⟨head.markIssued s.driver.cycle, k, true⟩ =
        decide ((s.memory.arrival head.address head.direction latency).key = key) := by
      rw [Bool.eq_iff_iff, Entry.awaits_iff, decide_eq_true_iff]
      exact ⟨fun h => h.2, fun h => ⟨rfl, h⟩⟩
    rw [List.countP_singleton, hkey]
    omega

/-- A cycle moves what is due from the memory to the completions to be matched. -/
theorem ticked (h : s.Coupled c queues ledger []) : ∃ inFlight,
    (s.ticked inFlight).Coupled c queues ledger (s.memory.fired.map Pending.key) ∧
    s.advance.andThen deliver = if s.driver.cycle + 1 < UInt64.size then
      settles (s.memory.fired.map Pending.key) (s.ticked inFlight) else .overflow s := by
  obtain ⟨inFlight, horderly, hadvance⟩ := h.orderly.moved
  refine ⟨inFlight, ?_, advance_andThen_deliver h.mailbox h.clock hadvance⟩
  refine ⟨h.records.clock _ _, h.conserves.clock _ _, h.mailbox, congrArg (· + 1) h.clock, horderly,
    h.tallied.moved inFlight, h.admitted, fun key => ?_⟩
  rw [h.awaited, Pending.count_key]
  exact (s.memory.countP_moved inFlight _).symm

/-- A completion to be matched is awaited, and is matched. -/
theorem settle (h : s.Coupled c queues ledger (key :: events)) :
    s.settle key = .ok (s.settled key) ∧
      (s.settled key).Coupled c queues (ledger.settle key s.driver.cycle) events := by
  -- the count of this completion is positive, so some entry awaits it
  have hsome : ∃ e ∈ ledger, e.awaits key = true := by
    have hcount := h.awaited key
    rw [List.count_cons_self] at hcount
    exact List.countP_pos_iff.mp (by omega)
  obtain ⟨-, -, hcycle, hmailbox⟩ := s.driver.match?_frame key
  obtain ⟨hmatch, hrecords⟩ := h.records.match?_of_awaits hsome
  refine ⟨settle_of_match? hmatch, hrecords, h.conserves.settle key _, hmailbox.trans h.mailbox,
    h.clock.trans hcycle.symm, h.orderly, h.tallied, ?_, fun key' => ?_⟩
  · rw [Ledger.length_settle]
    exact h.admitted
  · have hcount := h.awaited key'
    rw [Ledger.countP_awaits_settle s.driver.cycle hsome, List.count_cons] at hcount
    show _ = s.memory.pending.countP _ + _
    -- one entry and one event go, both for `key`
    by_cases hk : key = key'
    · subst hk
      simp only [if_true, beq_self_eq_true] at hcount
      omega
    · simp only [if_neg hk, beq_iff_eq] at hcount
      omega

/-- All completions to be matched are matched. -/
theorem settles (h : s.Coupled c queues ledger events) : ∃ t, settles events s = .ok t ∧
    t.Coupled c queues (ledger.settleAll s.driver.cycle events) [] := by
  induction events generalizing s ledger with
  | nil => exact ⟨s, rfl, h⟩
  | cons key rest ih =>
    obtain ⟨hsettle, hcoupled⟩ := h.settle
    obtain ⟨t, ht, hdone⟩ := ih hcoupled
    rw [show (s.settled key).driver.cycle = s.driver.cycle from (s.driver.match?_frame key).2.2.1]
      at hdone
    exact ⟨t, (settles_cons_of_ok hsettle).trans ht, hdone⟩

/-- A cycle that went through has matched what was due in it. -/
theorem cycle_eq_ok (h : s.Coupled c queues ledger [])
    (hcycle : s.advance.andThen deliver = .ok t) : ∃ inFlight,
      (s.ticked inFlight).Coupled c queues ledger (s.memory.fired.map Pending.key) ∧
      t.Coupled c queues (ledger.settleAll (s.driver.cycle + 1) (s.memory.fired.map Pending.key)) [] ∧
      t.driver.cycle = s.driver.cycle + 1 ∧ t.driver.queues = s.driver.queues ∧
      t.memory = s.memory.moved inFlight := by
  obtain ⟨inFlight, hticked, heq⟩ := h.ticked
  obtain ⟨u, hsettles, hu⟩ := hticked.settles
  rw [heq] at hcycle
  split at hcycle
  · rw [hsettles] at hcycle
    obtain rfl := Progress.ok_inj hcycle
    obtain ⟨hclock, hqueues, -, -, hmemory⟩ := settles_frame hsettles
    exact ⟨inFlight, hticked, hu, hclock, hqueues, hmemory⟩
  · cases hcycle

/-- Whatever a channel offers, books and memory stay in step. -/
theorem offer (hc : c.Usable) (h : s.Coupled c queues ledger events) (hoffer : s.offer k = .ok t) :
    ∃ ledger, t.Coupled c queues ledger events := by
  rcases quiet_offer_eq_ok (h.inside hc) hoffer with ⟨-, rfl⟩ | ⟨_, _, -, -, rfl⟩ |
    ⟨head, rest, latency, model, hq, -, hacc, -, -, rfl⟩
  · exact ⟨ledger, h⟩
  · exact ⟨ledger, h⟩
  · exact ⟨_, h.granted hc hq hacc⟩

end Coupled

end Session

end MemoryReplay
