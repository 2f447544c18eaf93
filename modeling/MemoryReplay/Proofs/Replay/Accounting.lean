import MemoryReplay.Memory.Scripted
import MemoryReplay.Proofs.Replay.Phases

/-!
# The books always balance

A driver counts the same requests in several places: slots, queues, completions, admissions by
channel, and the pending index. They agree after every call of `Session.step`, however the call
ends and however badly the memory and the log behave.

- `Driver.Called queues d`: books that some calls of `Session.step` have led to.
- `Driver.Balanced d`: the counters agree, and the index holds just the requests under way.
- `balanced_of_called`: books that were opened with fresh requests balance after every call.
-/

namespace MemoryReplay

namespace Driver

/-- Books that calls of `Session.step` have led to. Every call has a memory and an observer of its
own, in any state, and finds any completions in the mailbox, whoever reported them; and the next
call follows also on a call that a fault has stopped. -/
inductive Called (queues : Vector (List Request) channels) : Driver → Prop
  | opened : Called queues (ofQueues queues)
  | call {σ ω : Type} [MemorySystem σ] [Observer ω] {d : Driver} (mailbox : List Completion)
      (memory : σ) (observer : ω) (h : Called queues d) :
      Called queues (Session.step ⟨{ d with mailbox }, memory, observer⟩).2.driver

/-- In particular a session may be stepped again and again. -/
theorem Called.step {queues : Vector (List Request) channels} {σ ω : Type} [MemorySystem σ]
    [Observer ω] (s : Session σ ω) (h : Called queues s.driver) :
    Called queues s.step.2.driver :=
  .call s.driver.mailbox s.memory s.observer h

/-- The counters agree with each other and with the requests. -/
structure Balanced (d : Driver) : Prop where
  /-- Requests admitted and requests that still wait are all there are. -/
  total : d.slots.size + ∑ k, (d.queues.get k).length = d.total
  /-- An admitted request has completed or is under way. -/
  admitted : d.completed + d.index.size = d.slots.size
  completed : d.completed = d.slots.toList.countP (·.completed)
  perChannel : ∑ k, d.admitted.get k = d.slots.size
  /-- A slot is stored once, under the completion of its request. -/
  stored_once : ∀ key, (d.index.waiting key).Nodup
  /-- The slots stored are those of the requests that have not completed. -/
  stored_iff : ∀ key slot, slot ∈ d.index.waiting key ↔
    ∃ r, d.slots[slot]? = some r ∧ r.key = key ∧ r.completed = false

/-- A ledger of requests that were fresh: an entry waits until its request has completed. -/
def Fresh (d : Driver) (ledger : Ledger) : Prop :=
  (∀ k, ∀ r ∈ d.queues.get k, r.completed = false) ∧
    ∀ e ∈ ledger, e.request.completed = !e.waits

/-- The invariant from which the balance follows: some ledger tells the whole story. -/
def Accounted (queues : Vector (List Request) channels) (d : Driver) : Prop :=
  ∃ ledger, d.Records ledger ∧ d.Conserves queues ledger ∧ d.Fresh ledger

variable {queues : Vector (List Request) channels}

theorem accounted_ofQueues (hfresh : ∀ k, ∀ r ∈ queues.get k, r.completed = false) :
    (ofQueues queues).Accounted queues :=
  ⟨[], ofQueues_records queues, ofQueues_conserves queues, hfresh, by simp⟩

theorem accounted_stable (queues : Vector (List Request) channels) :
    Stable (Accounted queues) where
  issue d k head rest hq := by
    rintro ⟨ledger, hrec, hcons, hqueue, hledger⟩
    refine ⟨_, hrec.issue k head rest, hcons.issue hq, fun j r hr => ?_, fun e he => ?_⟩
    · -- what is left of a queue was in it before
      have hr' : r ∈ (d.queues.set k rest).get j := hr
      rw [Tally.get_set] at hr'
      by_cases hj : k = j
      · subst hj
        rw [if_pos rfl] at hr'
        exact hqueue k r (hq ▸ List.mem_cons_of_mem head hr')
      · rw [if_neg hj] at hr'
        exact hqueue j r hr'
    · rcases List.mem_append.mp he with he | he
      · exact hledger e he
      · obtain rfl := List.mem_singleton.mp he
        exact hqueue k head (hq ▸ List.mem_cons_self)
  clock d cycle mailbox := by
    rintro ⟨ledger, hrec, hcons, hfresh⟩
    exact ⟨ledger, hrec.clock cycle mailbox, hcons.clock cycle mailbox, hfresh⟩
  settle d key := by
    rintro ⟨ledger, hrec, hcons, hqueue, hledger⟩
    -- only a completion that some entry awaits changes the books
    rcases ledger.awaited_or key with hsome | hnone
    · refine ⟨_, (hrec.match?_of_awaits hsome).2, hcons.settle key d.cycle, ?_, fun e he => ?_⟩
      · rw [(d.match?_frame key).1]
        exact hqueue
      · rcases Ledger.mem_settle he with he | ⟨x, -, -, rfl⟩
        · exact hledger e he
        · rfl
    · -- a completion that nobody asked for
      rw [hrec.match?_of_not_awaits hnone]
      exact ⟨ledger, hrec, hcons, hqueue, hledger⟩

theorem Accounted.balanced {d : Driver} (h : d.Accounted queues) : d.Balanced := by
  obtain ⟨ledger, hrec, hcons, -, hledger⟩ := h
  -- each clause is a count over the ledger, by `Records`
  refine ⟨?_, hrec.completed_add_size, ?_, ?_, fun key => ?_, fun key slot => ?_⟩
  · rw [hrec.size_slots]
    exact hcons.length_add
  · rw [hrec.completed, hrec.slots, List.countP_map]
    exact List.countP_congr fun e he => by simp [hledger e he]
  · rw [hrec.size_slots, ← Tally.sum_countP Entry.channel]
    exact Finset.sum_congr rfl fun k _ => hrec.admitted k
  · rw [hrec.waiting]
    exact List.nodup_findIdxs
  · have hslot : d.slots[slot]? = (ledger[slot]?).map Entry.request := by
      rw [← Array.getElem?_toList, hrec.slots, List.getElem?_map]
    rw [hrec.waiting, List.mem_findIdxs_iff_exists_getElem_pos, hslot]
    constructor
    · rintro ⟨hlt, hawaits⟩
      obtain ⟨hwaits, hkey⟩ := Entry.awaits_iff.mp hawaits
      refine ⟨_, by rw [List.getElem?_eq_getElem hlt]; rfl, hkey, ?_⟩
      rw [hledger _ (List.getElem_mem hlt), hwaits]
      rfl
    · rintro ⟨r, hr, hkey, hopen⟩
      obtain ⟨e, he, rfl⟩ := Option.map_eq_some_iff.mp hr
      obtain ⟨hlt, rfl⟩ := List.getElem?_eq_some_iff.mp he
      refine ⟨hlt, Entry.awaits_iff.mpr ⟨?_, hkey⟩⟩
      rw [hledger _ (List.getElem_mem hlt)] at hopen
      simpa using hopen

theorem accounted_of_called {d : Driver}
    (hfresh : ∀ k, ∀ r ∈ queues.get k, r.completed = false) (h : Called queues d) :
    d.Accounted queues := by
  induction h with
  | opened => exact accounted_ofQueues hfresh
  | @call σ ω _ _ d mailbox memory observer _ ih =>
    have hstable := accounted_stable queues
    exact hstable.step _ (hstable.clock d d.cycle mailbox ih)

/-- **The books balance after every call**, whatever the memories accept, refuse and report, and
wherever an observer fails. -/
theorem balanced_of_called {d : Driver}
    (hfresh : ∀ k, ∀ r ∈ queues.get k, r.completed = false) (h : Called queues d) :
    d.Balanced ∧ d.total = ∑ k, (queues.get k).length := by
  have hacc := accounted_of_called hfresh h
  refine ⟨hacc.balanced, ?_⟩
  obtain ⟨_, -, hcons, -⟩ := hacc
  exact hcons.total

/-- A read in channel 0 and a write in channel 1. -/
def readAndWrite : Vector (List Request) channels :=
  Vector.ofFn fun k => match k.val with
    | 0 => [.fresh 0 .read]
    | 1 => [.fresh 64 .write]
    | _ => []

/-- A session whose log takes nothing, over a memory that will report a stray completion. -/
def unloggable : Session ScriptedMemory (EventLog Transcript) where
  driver := ofQueues readAndWrite
  memory := { attached := true, injected := [⟨64, .write⟩] }
  observer := { device := { broken := [.stream .all] } }

/-- Two calls fail at the log, each after an admission; a third one, without the log, meets one
completion too many. -/
theorem balanced_after_failed_calls :
    unloggable.step.1 = .error (.reported (.log .broken)) ∧
      unloggable.step.2.step.1 = .error (.reported (.log .broken)) ∧
      let last : Session ScriptedMemory Silence :=
        ⟨unloggable.step.2.step.2.driver, unloggable.step.2.step.2.memory, ⟨⟩⟩
      last.step.2.driver.Balanced ∧
        last.step.2.driver.total = ∑ k, (readAndWrite.get k).length := by
  refine ⟨rfl, rfl, ?_⟩
  intro last
  have htwice : Called readAndWrite unloggable.step.2.step.2.driver :=
    Called.step _ (Called.step _ .opened)
  exact balanced_of_called (by decide) (Called.step last htwice)

end Driver

end MemoryReplay
