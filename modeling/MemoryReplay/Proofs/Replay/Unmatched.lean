import Mathlib
import MemoryReplay.Proofs.Replay.Accounting

/-!
# Completions that no request waits for

A memory may report completions that nobody asked for, between others that are in order. A step
matches what it can, up to the first completion that comes once more than requests wait for it, and
names that one.

- `Driver.Covers`, `Driver.Surplus`: whether requests wait for all completions of a list, and whether
  a completion is one too many behind others. `exists_first_surplus`: the first such one.
- `Driver.OldestFirst`: how the waiting slots are kept. `Driver.Between`: the books between two calls.
- `Driver.Stamped`: the books when some completions have been matched. `Stamped.match?`: one more.
- `Session.Reports`: a step up to the completions that it is to match.
- `unmatched_reported_exactly`: which steps stop, where, and in which state.
-/

namespace MemoryReplay

namespace Driver

/-! ### Completions and the requests that wait for them -/

/-- For each of the completions a request waits. -/
def Covers (d : Driver) (keys : List Completion) : Prop :=
  ∀ key, keys.count key ≤ (d.index.waiting key).length

/-- Behind the completions `done`, a completion for `key` comes more often than requests wait for it. -/
def Surplus (d : Driver) (done : List Completion) (key : Completion) : Prop :=
  (d.index.waiting key).length < (done ++ [key]).count key

variable {d before after : Driver} {done keys : List Completion} {key : Completion}

theorem count_concat (done : List Completion) (key other : Completion) :
    (done ++ [key]).count other = done.count other + if key = other then 1 else 0 := by
  rw [List.count_append, List.count_singleton]
  simp only [beq_iff_eq]

theorem surplus_iff : d.Surplus done key ↔ (d.index.waiting key).length ≤ done.count key := by
  unfold Surplus
  rw [count_concat, if_pos rfl]
  exact Nat.lt_succ_iff

theorem covers_concat_iff : d.Covers (keys ++ [key]) ↔ d.Covers keys ∧ ¬ d.Surplus keys key := by
  constructor
  · intro h
    refine ⟨fun other => Nat.le_trans ?_ (h other), Nat.not_lt.mpr (h key)⟩
    exact (List.sublist_append_left keys [key]).count_le other
  · rintro ⟨hkeys, hkey⟩ other
    by_cases hother : key = other
    · exact hother ▸ Nat.not_lt.mp hkey
    · rw [count_concat, if_neg hother]
      exact hkeys other

/-- Requests wait for all completions if and only if none of them is one too many. -/
theorem covers_iff : d.Covers keys ↔
    ∀ done key rest, keys = done ++ key :: rest → ¬ d.Surplus done key := by
  constructor
  · rintro h done key rest rfl hsurplus
    have hle := h key
    rw [surplus_iff] at hsurplus
    rw [List.count_append, List.count_cons_self] at hle
    omega
  · intro h
    induction keys using List.reverseRecOn with
    | nil => exact fun _ => Nat.zero_le _
    | append_singleton keys last ih =>
      refine covers_concat_iff.mpr ⟨ih fun done key rest heq => ?_, h keys last [] rfl⟩
      exact h done key (rest ++ [last]) (by rw [heq]; simp)

/-- If requests do not wait for all completions, there is a first one that is too many. -/
theorem exists_first_surplus (h : ¬ d.Covers keys) :
    ∃ done key rest, keys = done ++ key :: rest ∧ d.Covers done ∧ d.Surplus done key := by
  induction keys using List.reverseRecOn with
  | nil => exact absurd (fun _ => Nat.zero_le _) h
  | append_singleton keys last ih =>
    by_cases hkeys : d.Covers keys
    · refine ⟨keys, last, [], rfl, hkeys, ?_⟩
      by_contra hlast
      exact h (covers_concat_iff.mpr ⟨hkeys, hlast⟩)
    · obtain ⟨done, key, rest, rfl, hdone, hkey⟩ := ih hkeys
      exact ⟨done, key, rest ++ [last], by simp, hdone, hkey⟩

/-! ### Books that calls have led to -/

/-- The slots that wait for a completion hold requests with its key, in the order of admission. -/
structure OldestFirst (d : Driver) : Prop where
  ascending : ∀ key, (d.index.waiting key).Pairwise (· < ·)
  stored : ∀ key, ∀ slot ∈ d.index.waiting key, ∃ r, d.slots[slot]? = some r ∧ r.key = key

theorem Records.oldestFirst {ledger : Ledger} (h : d.Records ledger) : d.OldestFirst where
  ascending key := by
    rw [h.waiting]
    exact List.pairwise_findIdxs
  stored key slot hslot := by
    rw [h.waiting, List.mem_findIdxs_iff_exists_getElem_pos] at hslot
    obtain ⟨hlt, hawaits⟩ := hslot
    refine ⟨ledger[slot].request, ?_, (Entry.awaits_iff.mp hawaits).2⟩
    rw [← Array.getElem?_toList, h.slots, List.getElem?_map, List.getElem?_eq_getElem hlt]
    rfl

/-- Books between two calls of `Session.step`. The memory may have reported completions since the
last one. -/
def Between (queues : Vector (List Request) channels) (d : Driver) : Prop :=
  ∃ called mailbox, Called queues called ∧ d = { called with mailbox }

/-- Some ledger tells the story of the books, whatever became of the calls. -/
theorem recorded_stable : Stable fun d => ∃ ledger, d.Records ledger where
  issue d k head rest _ := by
    rintro ⟨ledger, hrec⟩
    exact ⟨_, hrec.issue k head rest⟩
  clock d cycle mailbox := by
    rintro ⟨ledger, hrec⟩
    exact ⟨ledger, hrec.clock cycle mailbox⟩
  settle d key := by
    rintro ⟨ledger, hrec⟩
    rcases ledger.awaited_or key with hsome | hnone
    · exact ⟨_, (hrec.match?_of_awaits hsome).2⟩
    · rw [hrec.match?_of_not_awaits hnone]
      exact ⟨ledger, hrec⟩

/-- What survives the operations of the books holds between calls if it held of the books when they
were opened. -/
theorem Stable.of_between {P : Driver → Prop} (hP : Stable P)
    {queues : Vector (List Request) channels} (hopened : P (ofQueues queues))
    (h : Between queues d) : P d := by
  have hcalled : ∀ {d}, Called queues d → P d := by
    intro d h
    induction h with
    | opened => exact hopened
    | @call σ ω _ _ d mailbox memory observer _ ih => exact hP.step _ (hP.clock d d.cycle mailbox ih)
  obtain ⟨called, mailbox, h, rfl⟩ := h
  exact hP.clock called called.cycle mailbox (hcalled h)

/-! ### Completions matched one after the other -/

/-- The books `before` in the next cycle, when the completions `done` have been matched in it: each of
them has stamped the request that waited longest. -/
structure Stamped (before : Driver) (done : List Completion) (after : Driver) : Prop where
  /-- Nothing else is changed. -/
  frame : after = { before with
    cycle := before.cycle + 1
    mailbox := []
    slots := after.slots
    index := after.index
    completed := after.completed }
  slots : ∀ slot, after.slots[slot]? = before.slots[slot]?.map fun r =>
    if slot ∈ (before.index.waiting r.key).take (done.count r.key) then
      r.markCompleted (before.cycle + 1) else r
  waiting : ∀ key, after.index.waiting key = (before.index.waiting key).drop (done.count key)
  size : after.index.size = before.index.size - done.length
  completed : after.completed = before.completed + done.length

/-- The slot that has waited longest is stamped. -/
theorem match?_of_head {slot : Nat} {r : Request} (hslot : (d.index.waiting key).head? = some slot)
    (hr : d.slots[slot]? = some r) : d.match? key = (some (r.markCompleted d.cycle),
      { d with
        slots := d.slots.setIfInBounds slot (r.markCompleted d.cycle)
        index := (d.index.complete key).2
        completed := d.completed + 1 }) := by
  rw [← PendingIndex.complete_fst] at hslot
  unfold match?
  rw [show d.index.complete key = ((d.index.complete key).1, (d.index.complete key).2) from rfl, hslot]
  simp [hr]

namespace Stamped

/-- When the clock has moved on, nothing has been matched yet. -/
theorem begin (d : Driver) : d.Stamped [] { d with cycle := d.cycle + 1, mailbox := [] } where
  frame := rfl
  slots slot := by simp
  waiting key := rfl
  size := rfl
  completed := rfl

/-- With no request left to wait for it, a completion changes nothing. -/
theorem match?_of_surplus (h : before.Stamped done after) (hsurplus : before.Surplus done key) :
    after.match? key = (none, after) := by
  have hnone : after.index.waiting key = [] := by
    rw [h.waiting]
    exact List.drop_of_length_le (surplus_iff.mp hsurplus)
  unfold Driver.match?
  rw [PendingIndex.complete_of_nil hnone]

/-- The request that waits longest for a completion is the next one in order, and unstamped. -/
theorem exists_oldest (h : before.Stamped done after) (hold : before.OldestFirst)
    (hkey : ¬ before.Surplus done key) : ∃ slot r, r.key = key ∧
      (before.index.waiting key)[done.count key]? = some slot ∧ before.slots[slot]? = some r ∧
      (after.index.waiting key).head? = some slot ∧ after.slots[slot]? = some r := by
  have hlt : done.count key < (before.index.waiting key).length :=
    Nat.lt_of_not_le (mt surplus_iff.mpr hkey)
  obtain ⟨slot, hslot⟩ : ∃ slot, (before.index.waiting key)[done.count key]? = some slot :=
    ⟨_, List.getElem?_eq_getElem hlt⟩
  obtain ⟨r, hr, rfl⟩ := hold.stored key slot (List.mem_of_getElem? hslot)
  have hunstamped : slot ∉ (before.index.waiting r.key).take (done.count r.key) := by
    intro hmem
    have hascending := hold.ascending r.key
    rw [← List.take_append_drop (done.count r.key) (before.index.waiting r.key)] at hascending
    have hdrop : slot ∈ (before.index.waiting r.key).drop (done.count r.key) :=
      List.mem_of_head? (List.head?_drop.trans hslot)
    exact Nat.lt_irrefl slot ((List.pairwise_append.mp hascending).2.2 slot hmem slot hdrop)
  refine ⟨slot, r, rfl, hslot, hr, ?_, ?_⟩
  · rw [h.waiting, List.head?_drop, hslot]
  · rw [h.slots, hr, Option.map_some, if_neg hunstamped]

/-- One more completion stamps the slot that is next in order, and no other one. -/
theorem slots_concat (h : before.Stamped done after) {slot : Nat} {r : Request}
    (hslot : (before.index.waiting r.key)[done.count r.key]? = some slot)
    (hr : before.slots[slot]? = some r) (hafter : after.slots[slot]? = some r) (other : Nat) :
    (after.slots.setIfInBounds slot (r.markCompleted (before.cycle + 1)))[other]? =
      before.slots[other]?.map fun x =>
        if other ∈ (before.index.waiting x.key).take ((done ++ [r.key]).count x.key) then
          x.markCompleted (before.cycle + 1) else x := by
  have htake : (before.index.waiting r.key).take ((done ++ [r.key]).count r.key) =
      (before.index.waiting r.key).take (done.count r.key) ++ [slot] := by
    rw [count_concat, if_pos rfl, List.take_add_one, hslot]
    rfl
  rw [Array.getElem?_setIfInBounds]
  by_cases hsame : slot = other
  · obtain rfl := hsame
    obtain ⟨hbound, -⟩ := Array.getElem?_eq_some_iff.mp hafter
    rw [if_pos rfl, if_pos hbound, hr, Option.map_some, htake, if_pos (by simp)]
  · rw [if_neg hsame, h.slots]
    refine Option.map_congr fun x _ => ?_
    by_cases hkey : x.key = r.key
    · rw [hkey, htake]
      simp [Ne.symm hsame]
    · rw [count_concat, if_neg (Ne.symm hkey)]
      rfl

/-- One more completion is matched to the request that waits longest. -/
theorem match? (h : before.Stamped done after) (hold : before.OldestFirst)
    (hkey : ¬ before.Surplus done key) : (∃ r, (after.match? key).1 = some r) ∧
      before.Stamped (done ++ [key]) (after.match? key).2 := by
  obtain ⟨slot, r, rfl, hslot, hr, hhead, hafter⟩ := h.exists_oldest hold hkey
  have hcycle : after.cycle = before.cycle + 1 := congrArg Driver.cycle h.frame
  rw [match?_of_head hhead hafter]
  refine ⟨⟨_, rfl⟩, by rw [h.frame], fun other => ?_, fun other => ?_, ?_, ?_⟩
  · rw [hcycle]
    exact h.slots_concat hslot hr hafter other
  · show (after.index.complete r.key).2.waiting other = _
    rw [PendingIndex.waiting_complete, h.waiting, count_concat]
    by_cases hsame : r.key = other
    · subst hsame
      simp
    · rw [if_neg hsame, if_neg hsame, Nat.add_zero]
  · show (after.index.complete r.key).2.size = _
    have hne : after.index.waiting r.key ≠ [] := fun hnil => by simp [hnil] at hhead
    rw [PendingIndex.size_complete hne, h.size, List.length_append]
    rfl
  · show after.completed + 1 = _
    rw [h.completed, List.length_append]
    rfl

end Stamped

end Driver

/-! ### Steps that tell nobody -/

namespace Session

open Driver

variable {σ : Type} {s t admitted : Session σ Silence} {before : Driver} {key : Completion}
  {done keys rest events : List Completion}

theorem settle_of_none {driver : Driver} (h : s.driver.match? key = (none, driver)) :
    s.settle key = .stop (.unmatched key driver.cycle) { s with driver } := by
  unfold settle
  rw [h]

/-- While requests wait for them, completions are matched. -/
theorem settles_of_covers (hold : before.OldestFirst) (h : before.Stamped done s.driver)
    (hcovers : before.Covers (done ++ keys)) :
    ∃ t, settles keys s = .ok t ∧ before.Stamped (done ++ keys) t.driver := by
  induction keys generalizing done s with
  | nil => exact ⟨s, rfl, by simpa using h⟩
  | cons key rest ih =>
    have hkey : ¬ before.Surplus done key := covers_iff.mp hcovers done key rest rfl
    obtain ⟨hmatch, hnext⟩ := h.match? hold hkey
    rw [settles_cons_of_ok (settle_of_match? hmatch)]
    rw [List.append_cons] at hcovers ⊢
    exact ih hnext hcovers

/-- The first completion that is one too many stops the matching. -/
theorem settles_of_surplus (hold : before.OldestFirst) (h : before.Stamped [] s.driver)
    (hcovers : before.Covers done) (hkey : before.Surplus done key) (rest : List Completion) :
    ∃ t, settles (done ++ key :: rest) s = .stop (.unmatched key (before.cycle + 1)) t ∧
      before.Stamped done t.driver := by
  obtain ⟨t, ht, hstamped⟩ := settles_of_covers hold h hcovers
  have hcycle : t.driver.cycle = before.cycle + 1 := congrArg Driver.cycle hstamped.frame
  refine ⟨t, ?_, hstamped⟩
  rw [settles_append_of_ok ht, ← hcycle]
  show (t.settle key).andThen _ = _
  rw [settle_of_none (hstamped.match?_of_surplus hkey)]
  rfl

variable [MemorySystem σ] {memory : σ}

/-- The step of a session gets as far as its completions: `admitted` is the session when the
admissions have been made, `memory` its memory after the cycle, and `events` are the completions
reported until then. -/
structure Reports (s admitted : Session σ Silence) (memory : σ) (events : List Completion) :
    Prop where
  admits : offers (List.finRange channels) s = .ok admitted
  ticks : ∃ reported, MemorySystem.tick admitted.memory = some (memory, reported) ∧
    events = s.driver.mailbox ++ reported
  clock : s.driver.cycle + 1 < UInt64.size

theorem Reports.cycle (h : s.Reports admitted memory events) :
    admitted.driver.cycle = s.driver.cycle :=
  (offers_frame h.admits).1

/-- After the cycle, when nothing has been matched yet. -/
def cycled (admitted : Session σ Silence) (memory : σ) : Session σ Silence where
  driver := { admitted.driver with cycle := admitted.driver.cycle + 1, mailbox := [] }
  memory := memory
  observer := admitted.observer

/-- What is left of the step is to match the completions. -/
theorem Reports.step (h : s.Reports admitted memory events) :
    s.step = settles events (admitted.cycled memory) := by
  obtain ⟨reported, htick, rfl⟩ := h.ticks
  rw [quiet_step, h.admits, Progress.andThen_ok, ← (offers_frame h.admits).2.2.1]
  exact quiet_cycle htick (h.cycle ▸ h.clock)

/-- A step that does not get as far as its completions has met a number that leaves 64 bits. -/
theorem reports_or_overflow (s : Session σ Silence) :
    (∃ admitted memory events, s.Reports admitted memory events) ∨ s.step.1 = .error .overflow := by
  rw [quiet_step]
  rcases quiet_offers (List.finRange channels) s with ⟨admitted, hadmits⟩ | ⟨t, ht⟩
  · rw [hadmits, Progress.andThen_ok]
    by_cases hclock : admitted.driver.cycle + 1 < UInt64.size
    · cases htick : MemorySystem.tick admitted.memory with
      | none => exact .inr (congrArg Prod.fst (quiet_cycle_overflow (.inl htick)))
      | some moved =>
        refine .inl ⟨admitted, moved.1, _, hadmits, ⟨moved.2, htick, rfl⟩, ?_⟩
        rwa [← (offers_frame hadmits).1]
    · exact .inr (congrArg Prod.fst (quiet_cycle_overflow (.inr hclock)))
  · right
    rw [ht]
    rfl

/-- What survives every operation of the books holds when the admissions have been made. -/
theorem Reports.stable {P : Driver → Prop} (hP : Stable P)
    {queues : Vector (List Request) channels} (hopened : P (ofQueues queues))
    (hs : Between queues s.driver) (h : s.Reports admitted memory events) : P admitted.driver := by
  have hoffers := offers_snd (Q := fun s => P s.driver) hP.offer (List.finRange channels) s
    (hP.of_between hopened hs)
  rw [h.admits] at hoffers
  exact hoffers

/-- The memory is the one that was moved on. -/
theorem Reports.memory_step (h : s.Reports admitted memory events) : s.step.2.memory = memory := by
  rw [h.step]
  exact settles_memory events _

/-- With requests waiting for all completions, the step matches them all. -/
theorem Reports.step_of_covers (h : s.Reports admitted memory events)
    (hold : admitted.driver.OldestFirst) (hcovers : admitted.driver.Covers events) :
    s.step.1 = .ok () ∧ admitted.driver.Stamped events s.step.2.driver := by
  obtain ⟨t, ht, hstamped⟩ := settles_of_covers (s := admitted.cycled memory) hold (.begin _) hcovers
  rw [h.step, ht]
  exact ⟨rfl, hstamped⟩

/-- Otherwise it stops at the first one that is too many. -/
theorem Reports.step_of_surplus (h : s.Reports admitted memory (done ++ key :: rest))
    (hold : admitted.driver.OldestFirst) (hcovers : admitted.driver.Covers done)
    (hkey : admitted.driver.Surplus done key) :
    s.step.1 = .error (.reported (.unmatched key (s.driver.cycle + 1))) ∧
      admitted.driver.Stamped done s.step.2.driver := by
  obtain ⟨t, ht, hstamped⟩ := settles_of_surplus (s := admitted.cycled memory) hold (.begin _) hcovers
    hkey rest
  rw [h.step, ht, h.cycle]
  exact ⟨rfl, hstamped⟩

end Session

/-- **Unmatched completions are reported exactly.** Let the books be between two calls, and nobody
be told of the step.

Only a step that gets as far as its completions can stop at one of them. The slots that wait for a
completion then are the requests under way that it can mean. Such a step stops if and only if some
completion comes more often, up to its place, than requests wait for it. It names the first such
completion and the new cycle, and by then exactly the completions before have stamped the oldest
requests. Otherwise all of them have. -/
theorem unmatched_reported_exactly {σ : Type} [MemorySystem σ]
    {queues : Vector (List Request) channels} {s : Session σ Silence}
    (hs : Driver.Between queues s.driver) :
    (∀ key cycle, s.step.1 = .error (.reported (.unmatched key cycle)) →
      ∃ admitted memory events, s.Reports admitted memory events) ∧
    ∀ admitted memory events, s.Reports admitted memory events →
      admitted.driver.OldestFirst ∧
      ((∀ k, ∀ r ∈ queues.get k, r.completed = false) → ∀ key slot,
        slot ∈ admitted.driver.index.waiting key ↔
          ∃ r, admitted.driver.slots[slot]? = some r ∧ r.key = key ∧ r.completed = false) ∧
      ((∃ key cycle, s.step.1 = .error (.reported (.unmatched key cycle))) ↔
        ∃ done key rest, events = done ++ key :: rest ∧ admitted.driver.Surplus done key) ∧
      (∀ key cycle, s.step.1 = .error (.reported (.unmatched key cycle)) →
        cycle = s.driver.cycle + 1 ∧ s.step.2.memory = memory ∧
        ∃ done rest, events = done ++ key :: rest ∧ admitted.driver.Surplus done key ∧
          (∀ earlier other later, done = earlier ++ other :: later →
            ¬ admitted.driver.Surplus earlier other) ∧
          admitted.driver.Stamped done s.step.2.driver) ∧
      ((¬ ∃ done key rest, events = done ++ key :: rest ∧ admitted.driver.Surplus done key) →
        s.step.1 = .ok () ∧ s.step.2.memory = memory ∧
          admitted.driver.Stamped events s.step.2.driver) := by
  refine ⟨fun key cycle herror => ?_, fun admitted memory events h => ?_⟩
  · rcases s.reports_or_overflow with hreports | hover
    · exact hreports
    · rw [hover] at herror
      cases herror
  obtain ⟨ledger, hrecords⟩ :=
    h.stable Driver.recorded_stable ⟨[], Driver.ofQueues_records queues⟩ hs
  have hold := hrecords.oldestFirst
  have hpending : (∀ k, ∀ r ∈ queues.get k, r.completed = false) → ∀ key slot,
      slot ∈ admitted.driver.index.waiting key ↔
        ∃ r, admitted.driver.slots[slot]? = some r ∧ r.key = key ∧ r.completed = false := by
    intro hfresh
    exact (h.stable (Driver.accounted_stable queues) (Driver.accounted_ofQueues hfresh)
      hs).balanced.stored_iff
  refine ⟨hold, hpending, ?_⟩
  -- requests wait for all completions, or there is a first one that is too many
  by_cases hcovers : admitted.driver.Covers events
  · obtain ⟨hok, hstamped⟩ := h.step_of_covers hold hcovers
    have hquiet : ∀ key cycle, s.step.1 ≠ .error (.reported (.unmatched key cycle)) := by
      rintro key cycle herror
      rw [hok] at herror
      cases herror
    refine ⟨⟨?_, ?_⟩, ?_, fun _ => ⟨hok, h.memory_step, hstamped⟩⟩
    · rintro ⟨key, cycle, herror⟩
      exact absurd herror (hquiet key cycle)
    · rintro ⟨done, key, rest, hevents, hkey⟩
      exact absurd hkey (Driver.covers_iff.mp hcovers done key rest hevents)
    · intro key cycle herror
      exact absurd herror (hquiet key cycle)
  · obtain ⟨done, key, rest, rfl, hdone, hkey⟩ := Driver.exists_first_surplus hcovers
    obtain ⟨hstop, hstamped⟩ := h.step_of_surplus hold hdone hkey
    refine ⟨⟨fun _ => ⟨done, key, rest, rfl, hkey⟩, fun _ => ⟨key, _, hstop⟩⟩, ?_, ?_⟩
    · intro other cycle herror
      rw [hstop] at herror
      cases herror
      exact ⟨rfl, h.memory_step, done, rest, rfl, hkey, Driver.covers_iff.mp hdone, hstamped⟩
    · intro hnone
      exact absurd ⟨done, key, rest, rfl, hkey⟩ hnone

/-- A memory that completes a read and a write, the read once more, and something that nobody has
asked for. -/
def repeating (bus : Bus) : Session ScriptedMemory Silence where
  driver := Driver.ofQueues Driver.readAndWrite
  memory := { bus, attached := true, injected := [⟨0, .read⟩, ⟨128, .read⟩] }
  observer := Silence.mk

theorem step_repeating (bus : Bus) :
    (repeating bus).step.1 = .error (.reported (.unmatched ⟨0, .read⟩ 1)) := by
  cbv

/-- The read that is completed once more stops the step, when those before it have been matched. -/
theorem unmatched_reported_exactly_repeating :
    Driver.Between Driver.readAndWrite (repeating {}).driver ∧
    ∃ admitted memory,
      (repeating {}).Reports admitted memory
        [⟨0, .read⟩, ⟨64, .write⟩, ⟨0, .read⟩, ⟨128, .read⟩] ∧
      (repeating {}).step.1 = .error (.reported (.unmatched ⟨0, .read⟩ 1)) ∧
      ∃ done rest,
        [⟨0, .read⟩, ⟨64, .write⟩, ⟨0, .read⟩, ⟨128, .read⟩] = done ++ ⟨0, .read⟩ :: rest ∧
        admitted.driver.Surplus done ⟨0, .read⟩ ∧
        admitted.driver.Stamped done (repeating {}).step.2.driver := by
  have hbetween : Driver.Between Driver.readAndWrite (repeating {}).driver := ⟨_, [], .opened, rfl⟩
  obtain ⟨-, hmatched⟩ := unmatched_reported_exactly hbetween
  refine ⟨hbetween, _, _, ⟨rfl, ⟨_, rfl, rfl⟩, by decide⟩, step_repeating {}, ?_⟩
  obtain ⟨-, -, -, hstops, -⟩ := hmatched _ _ _ ⟨rfl, ⟨_, rfl, rfl⟩, by decide⟩
  obtain ⟨-, -, done, rest, hevents, hkey, -, hstamped⟩ := hstops _ _ (step_repeating {})
  exact ⟨done, rest, hevents, hkey, hstamped⟩

end MemoryReplay
