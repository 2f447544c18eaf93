import Mathlib
import MemoryReplay.Proofs.Memory.Queued
import MemoryReplay.Proofs.Memory.Recorded

/-!
# The contract of admission

A memory is asked before it is given a request, and given what it has just agreed to. A replay
keeps to that over any memory, whatever the memory answers, and so no queue of a memory with
bounded queues ever holds more than it may, not even between two channels of one step.

- `offerCalls`, `IsRound`, `Rounds`: the calls of an offer, of a step and of many steps.
  `Session.step_round`, `Session.steps_rounds`: a replay makes these calls and no others.
- `Gated calls`: each request was given right after the memory agreed to it.
- `MemorySystem.Kept P`: `P` survives a question, an admission right after its question, and a
  tick. `Kept.steps`: then it survives a replay, however that ends.
- `MemoryCall.redo`: a call made once more. `QueuedMemory.bounded_of_gated`: gated calls lead a
  memory to no state in which a queue is too long.
- `admission_contract`: all of it, for every memory and every replay.
-/

namespace MemoryReplay

/-! ### The calls of a step -/

/-- The calls in which a channel offers the head of its queue to a memory that gives the answer. -/
def offerCalls (answer : Bool) : List Request → List MemoryCall
  | [] => []
  | head :: _ =>
    .accepts head.address head.direction answer ::
      if answer then [.submit head.address head.direction] else []

/-- The queue of a channel that has offered its head. -/
def offered (answer : Bool) (queue : List Request) : List Request :=
  if answer then queue.tail else queue

/-- The calls of one step: the channels offer the heads of the queues in their order, and then the
memory is ticked once. The memory's answers decide which heads are gone afterwards. -/
def IsRound (queues : Vector (List Request) channels) (calls : List MemoryCall)
    (after : Vector (List Request) channels) : Prop :=
  ∃ (answer : Fin channels → Bool) (events : List Completion),
    calls = (List.finRange channels).flatMap (fun k => offerCalls (answer k) (queues.get k)) ++
      [.tick events] ∧
    ∀ k, after.get k = offered (answer k) (queues.get k)

/-- The calls of some number of steps, step by step, between two states of the queues. -/
inductive Rounds : Vector (List Request) channels → List (List MemoryCall) →
    Vector (List Request) channels → Prop
  | nil (queues) : Rounds queues [] queues
  | snoc {queues rounds between calls after} :
      Rounds queues rounds between → IsRound between calls after →
      Rounds queues (rounds ++ [calls]) after

namespace Session

variable {σ ω : Type} [MemorySystem σ] [Observer ω]

theorem offer_calls {k : Fin channels} {s t : Session (Recorded σ) ω} (h : s.offer k = .ok t) :
    ∃ answer, t.memory.calls = s.memory.calls ++ offerCalls answer (s.driver.queues.get k) ∧
      ∀ j, t.driver.queues.get j =
        if k = j then offered answer (s.driver.queues.get j) else s.driver.queues.get j := by
  rcases offer_eq_ok h with ⟨hq, rfl⟩ | ⟨head, rest, _, hq, hasked, rfl⟩ |
    ⟨head, rest, _, _, hq, hasked, hgiven, hd, hm⟩
  · refine ⟨false, ?_, ?_⟩
    · rw [hq]
      exact (List.append_nil _).symm
    · intro j
      exact (ite_self _).symm
  · obtain ⟨memory, -, rfl⟩ := Recorded.accepts_eq_some hasked
    refine ⟨false, ?_, ?_⟩
    · rw [hq]
      rfl
    · intro j
      exact (ite_self _).symm
  · obtain ⟨_, -, rfl⟩ := Recorded.accepts_eq_some hasked
    obtain ⟨_, -, rfl⟩ := Recorded.submit_eq_some hgiven
    refine ⟨true, ?_, ?_⟩
    · rw [hm, hq]
      exact List.append_assoc ..
    · intro j
      rw [hd]
      show (s.driver.queues.set k rest).get j = _
      rw [Tally.get_set]
      by_cases hj : k = j
      · subst hj
        rw [if_pos rfl, if_pos rfl, hq]
        rfl
      · rw [if_neg hj, if_neg hj]

/-- Channels that offer one after the other: the answer to one does not change what the others
have to offer. -/
theorem offers_calls {ks : List (Fin channels)} (hks : ks.Nodup) {s t : Session (Recorded σ) ω}
    (h : offers ks s = .ok t) :
    ∃ answer : Fin channels → Bool,
      t.memory.calls = s.memory.calls ++
        ks.flatMap (fun k => offerCalls (answer k) (s.driver.queues.get k)) ∧
      ∀ j, t.driver.queues.get j =
        if j ∈ ks then offered (answer j) (s.driver.queues.get j) else s.driver.queues.get j := by
  induction ks generalizing s with
  | nil =>
    obtain rfl := Progress.ok_inj h
    exact ⟨fun _ => false, (List.append_nil _).symm, fun j => rfl⟩
  | cons k rest ih =>
    obtain ⟨hk, hrest⟩ := List.nodup_cons.mp hks
    obtain ⟨u, hu, ht⟩ := Progress.andThen_eq_ok h
    obtain ⟨first, hcalls, hqueues⟩ := offer_calls hu
    obtain ⟨answer, hcalls', hqueues'⟩ := ih hrest ht
    -- the channels after `k` find their queues as they were
    have hlater : ∀ j ∈ rest, k ≠ j ∧ u.driver.queues.get j = s.driver.queues.get j := by
      rintro j hj
      have hne : k ≠ j := fun heq => hk (heq ▸ hj)
      exact ⟨hne, by rw [hqueues, if_neg hne]⟩
    refine ⟨Function.update answer k first, ?_, ?_⟩
    · have hsame : rest.flatMap (fun j => offerCalls (answer j) (u.driver.queues.get j)) =
          rest.flatMap (fun j =>
            offerCalls (Function.update answer k first j) (s.driver.queues.get j)) := by
        refine List.flatMap_congr fun j hj => ?_
        obtain ⟨hne, hqueue⟩ := hlater j hj
        rw [hqueue, Function.update_of_ne hne.symm]
      rw [hcalls', hcalls, hsame, List.append_assoc, List.flatMap_cons, Function.update_self]
    · intro j
      rw [hqueues']
      by_cases hj : j ∈ rest
      · obtain ⟨hne, hqueue⟩ := hlater j hj
        rw [if_pos hj, if_pos (List.mem_cons_of_mem k hj), hqueue, Function.update_of_ne hne.symm]
      · rw [if_neg hj, hqueues]
        by_cases hkj : k = j
        · subst hkj
          rw [if_pos rfl, if_pos List.mem_cons_self, Function.update_self]
        · have hnot : j ∉ k :: rest := by
            rintro hmem
            rcases List.mem_cons.mp hmem with rfl | hmem
            · exact hkj rfl
            · exact hj hmem
          rw [if_neg hkj, if_neg hnot]

/-- A step makes one round of calls. -/
theorem step_round {s t : Session (Recorded σ) ω} (h : s.step = .ok t) :
    ∃ calls, t.memory.calls = s.memory.calls ++ calls ∧
      IsRound s.driver.queues calls t.driver.queues := by
  obtain ⟨u, v, w, hu, hmemory, hoffers, hadvance, hdeliver⟩ := step_eq_ok h
  obtain ⟨answer, hcalls, hqueues⟩ := offers_calls (List.nodup_finRange channels) hoffers
  obtain ⟨_, events, htick, -, rfl⟩ := advance_eq_ok hadvance
  obtain ⟨_, -, rfl⟩ := Recorded.tick_eq_some htick
  obtain ⟨x, hx, hxm, hsettles⟩ := deliver_eq_ok hdeliver
  obtain ⟨-, hsettled, -, -, htm⟩ := settles_frame hsettles
  rw [hu] at hcalls hqueues
  refine ⟨_, ?_, answer, events, rfl, ?_⟩
  · rw [htm, hxm, ← hmemory, ← List.append_assoc, ← hcalls]
    rfl
  · intro k
    rw [hsettled, hx]
    exact (hqueues k).trans (if_pos (List.mem_finRange k))

/-- A replay makes one round of calls a step. -/
theorem steps_rounds {n : Nat} {s t : Session (Recorded σ) ω} (h : steps n s = .ok t) :
    ∃ rounds, rounds.length = n ∧ t.memory.calls = s.memory.calls ++ rounds.flatten ∧
      Rounds s.driver.queues rounds t.driver.queues := by
  induction n generalizing t with
  | zero =>
    obtain rfl := Progress.ok_inj h
    exact ⟨[], rfl, (List.append_nil _).symm, .nil _⟩
  | succ n ih =>
    obtain ⟨u, hu, ht⟩ := steps_succ_eq_ok h
    obtain ⟨rounds, hlength, hcalls, hrounds⟩ := ih hu
    obtain ⟨calls, hcalls', hround⟩ := step_round ht
    refine ⟨rounds ++ [calls], ?_, ?_, hrounds.snoc hround⟩
    · rw [List.length_append, hlength]
      rfl
    · rw [hcalls', hcalls, List.flatten_append, List.flatten_singleton, List.append_assoc]

end Session

/-! ### Gated calls -/

/-- Each request was given to the memory right after the memory had agreed to it. -/
inductive Gated : List MemoryCall → Prop
  | nil : Gated []
  | asked {calls} (a direction answer) : Gated calls →
      Gated (calls ++ [.accepts a direction answer])
  | given {calls} (a direction) : Gated calls →
      Gated (calls ++ [.accepts a direction true] ++ [.submit a direction])
  | ticked {calls} (events) : Gated calls → Gated (calls ++ [.tick events])

/-- So it was at any time before. -/
theorem Gated.of_prefix {calls earlier : List MemoryCall} (h : Gated calls)
    (hearlier : earlier <+: calls) : Gated earlier := by
  induction h with
  | nil =>
    obtain rfl := List.prefix_nil.mp hearlier
    exact .nil
  | asked a direction answer hcalls ih =>
    rcases List.prefix_concat_iff.mp hearlier with rfl | hearlier
    · exact hcalls.asked a direction answer
    · exact ih hearlier
  | given a direction hcalls ih =>
    rcases List.prefix_concat_iff.mp hearlier with rfl | hearlier
    · exact hcalls.given a direction
    · rcases List.prefix_concat_iff.mp hearlier with rfl | hearlier
      · exact hcalls.asked a direction true
      · exact ih hearlier
  | ticked events hcalls ih =>
    rcases List.prefix_concat_iff.mp hearlier with rfl | hearlier
    · exact hcalls.ticked events
    · exact ih hearlier

/-- A property of memories that survives a question, an admission right after the memory agreed to
it, and a tick. -/
structure MemorySystem.Kept {σ : Type} [MemorySystem σ] (P : σ → Prop) : Prop where
  asked : ∀ {m m' a direction answer}, P m → accepts m a direction = some (answer, m') → P m'
  given : ∀ {m asked m' a direction}, P m → accepts m a direction = some (true, asked) →
    submit asked a direction = some m' → P m'
  ticked : ∀ {m m' events}, P m → tick m = some (m', events) → P m'

namespace MemorySystem.Kept

variable {σ ω : Type} [MemorySystem σ] [Observer ω] {P : σ → Prop}

theorem offer (hP : Kept P) (k : Fin channels) (s : Session σ ω) (h : P s.memory) :
    P (s.offer k).2.memory := by
  unfold Session.offer
  split
  · exact h
  · split
    · exact h
    · next hasked => exact hP.asked h hasked
    · next hasked =>
      split
      · exact hP.asked h hasked
      · next hgiven =>
        rw [(Session.tell_snd _ _).2]
        exact hP.given h hasked hgiven

omit [Observer ω] in
theorem advance (hP : Kept P) (s : Session σ ω) (h : P s.memory) : P s.advance.2.memory := by
  unfold Session.advance
  split
  · next hticked _ => exact hP.ticked h hticked
  · exact h

/-- What survives the calls of a replay survives a step, however the step ends. -/
theorem step (hP : Kept P) (s : Session σ ω) (h : P s.memory) : P s.step.2.memory := by
  refine Session.step_snd (Q := fun s => P s.memory) ?_ hP.offer hP.advance ?_ s h
  · intro event s h
    rw [(Session.tell_snd _ _).2]
    exact h
  · intro s h
    rw [Session.deliver_memory]
    exact h

theorem steps (hP : Kept P) (n : Nat) (s : Session σ ω) (h : P s.memory) :
    P (Session.steps n s).2.memory := by
  induction n with
  | zero => exact h
  | succ n ih => exact Progress.andThen_snd (Q := fun s => P s.memory) ih hP.step

end MemorySystem.Kept

/-! ### Calls made once more -/

section

variable {σ ω : Type} [MemorySystem σ]

/-- A call made once more, of a memory that gives the answer of the record. -/
def MemoryCall.redo (m : σ) : MemoryCall → Checked σ
  | .accepts a direction answer => do
    let (given, m) ← MemorySystem.accepts m a direction
    if given = answer then some m else none
  | .submit a direction => MemorySystem.submit m a direction
  | .tick events => do
    let (m, given) ← MemorySystem.tick m
    if given = events then some m else none

theorem MemoryCall.redo_accepts {m m' : σ} {a : UInt64} {direction : Direction} {answer : Bool} :
    redo m (.accepts a direction answer) = some m' ↔
      MemorySystem.accepts m a direction = some (answer, m') := by
  constructor
  · intro h
    obtain ⟨⟨given, after⟩, hasked, h⟩ := Option.bind_eq_some_iff.mp h
    obtain ⟨rfl, hafter⟩ := Option.ite_none_right_eq_some.mp h
    obtain rfl := Option.some.inj hafter
    exact hasked
  · intro h
    exact Option.bind_eq_some_iff.mpr ⟨_, h, if_pos rfl⟩

theorem MemoryCall.redo_tick {m m' : σ} {events : List Completion} :
    redo m (.tick events) = some m' ↔ MemorySystem.tick m = some (m', events) := by
  constructor
  · intro h
    obtain ⟨⟨after, given⟩, hticked, h⟩ := Option.bind_eq_some_iff.mp h
    obtain ⟨rfl, hafter⟩ := Option.ite_none_right_eq_some.mp h
    obtain rfl := Option.some.inj hafter
    exact hticked
  · intro h
    exact Option.bind_eq_some_iff.mpr ⟨_, h, if_pos rfl⟩

/-- One more call follows those that were made before. -/
theorem foldlM_redo_concat {start m' : σ} {calls : List MemoryCall} {call : MemoryCall} :
    (calls ++ [call]).foldlM MemoryCall.redo start = some m' ↔
      ∃ m, calls.foldlM MemoryCall.redo start = some m ∧ call.redo m = some m' := by
  rw [List.foldlM_append, Option.bind_eq_bind, Option.bind_eq_some_iff]
  simp only [List.foldlM_cons, List.foldlM_nil, Option.bind_eq_bind]
  exact exists_congr fun m => and_congr_right fun _ => by
    cases call.redo m <;> rfl

/-- The record of a replay is gated, and all that has happened to the memory. -/
theorem Recorded.kept (start : σ) : MemorySystem.Kept fun m : Recorded σ =>
    Gated m.calls ∧ m.calls.foldlM MemoryCall.redo start = some m.memory where
  asked := by
    rintro m m' a direction answer ⟨hgated, hredo⟩ hasked
    obtain ⟨memory, hanswer, rfl⟩ := Recorded.accepts_eq_some hasked
    exact ⟨hgated.asked a direction answer,
      foldlM_redo_concat.mpr ⟨_, hredo, MemoryCall.redo_accepts.mpr hanswer⟩⟩
  given := by
    rintro m asked m' a direction ⟨hgated, hredo⟩ hasked hgiven
    obtain ⟨between, hanswer, rfl⟩ := Recorded.accepts_eq_some hasked
    obtain ⟨memory, htaken, rfl⟩ := Recorded.submit_eq_some hgiven
    refine ⟨hgated.given a direction, foldlM_redo_concat.mpr ⟨between, ?_, htaken⟩⟩
    exact foldlM_redo_concat.mpr ⟨_, hredo, MemoryCall.redo_accepts.mpr hanswer⟩
  ticked := by
    rintro m m' events ⟨hgated, hredo⟩ hticked
    obtain ⟨memory, hevents, rfl⟩ := Recorded.tick_eq_some hticked
    exact ⟨hgated.ticked events,
      foldlM_redo_concat.mpr ⟨_, hredo, MemoryCall.redo_tick.mpr hevents⟩⟩

namespace Session

variable [Observer ω]

/-- The calls that the memory sees in a number of steps, or up to the fault that stops them. -/
def calls (n : Nat) (s : Session σ ω) : List MemoryCall := (steps n s.recorded).2.memory.calls

/-- The calls lead the memory to where the steps lead it. -/
theorem calls_spec (n : Nat) (s : Session σ ω) : Gated (s.calls n) ∧
    (s.calls n).foldlM MemoryCall.redo s.memory = some (steps n s).2.memory := by
  rw [← mapMemory_steps]
  exact (Recorded.kept s.memory).steps n s.recorded ⟨.nil, rfl⟩

theorem calls_rounds {n : Nat} {s t : Session σ ω} (h : steps n s = .ok t) :
    ∃ rounds, rounds.length = n ∧ s.calls n = rounds.flatten ∧
      Rounds s.driver.queues rounds t.driver.queues := by
  obtain ⟨final, hrecorded, rfl⟩ := exists_recorded h
  obtain ⟨rounds, hlength, hcalls, hrounds⟩ := steps_rounds hrecorded
  refine ⟨rounds, hlength, ?_, hrounds⟩
  unfold calls
  rw [hrecorded]
  exact hcalls

end Session

end

/-! ### Memories with bounded queues -/

namespace QueuedMemory

variable {κ : Type} {start m m' : QueuedMemory κ} {depth : Nat}

/-- No queue holds more than it may. -/
def Bounded (depth : Nat) (m : QueuedMemory κ) : Prop :=
  m.queueDepth.toNat = depth ∧ ∀ j, m.inFlight.get j ≤ depth

theorem Bounded.advance {events : List Completion} (h : m.Bounded depth)
    (hadvance : m.advance = some (m', events)) : m'.Bounded depth := by
  obtain ⟨now, -, hadvance⟩ := Option.bind_eq_some_iff.mp hadvance
  obtain ⟨inFlight, hfold, hadvance⟩ := Option.bind_eq_some_iff.mp hadvance
  have hfewer : ∀ j, inFlight.get j ≤ depth :=
    fun j => Nat.le_trans (foldlM_decrease_le hfold j) (h.2 j)
  split at hadvance
  · obtain ⟨rfl, -⟩ := Prod.mk.inj (Option.some.inj hadvance)
    exact ⟨h.1, hfewer⟩
  · obtain ⟨rfl, -⟩ := Prod.mk.inj (Option.some.inj hadvance)
    exact ⟨h.1, hfewer⟩

variable [LatencyModel κ]

/-- What has room for a request still holds no more than it may with it. -/
theorem Bounded.add {a : UInt64} {direction : Direction} (h : m.Bounded depth)
    (hroom : m.hasRoom a = some true) (hadd : m.add a direction = some m') :
    m'.Bounded depth := by
  have hlt : m.inFlight.get (m.fields.channel a) < depth := by
    rw [← h.1]
    exact of_decide_eq_true (hasRoom_eq_some_iff.mp hroom).2
  obtain ⟨-, latency, model, -, -, -, rfl⟩ := add_eq_some_iff.mp hadd
  refine ⟨h.1, fun j => ?_⟩
  show (increase m.inFlight (m.fields.channel a)).get j ≤ depth
  unfold increase
  rw [Tally.get_set]
  split
  · exact hlt
  · exact h.2 j

/-- Being asked does not change the memory. -/
theorem accepts_eq_some {a : UInt64} {direction : Direction} {answer : Bool}
    (h : MemorySystem.accepts m a direction = some (answer, m')) :
    m.hasRoom a = some answer ∧ m' = m := by
  obtain ⟨room, hroom, hpair⟩ := Option.map_eq_some_iff.mp h
  obtain ⟨rfl, rfl⟩ := Prod.mk.inj hpair
  exact ⟨hroom, rfl⟩

/-- Gated calls never make a queue too long. -/
theorem bounded_of_gated (hstart : start.Bounded depth) {calls : List MemoryCall}
    (hcalls : Gated calls) (h : calls.foldlM MemoryCall.redo start = some m) :
    m.Bounded depth := by
  induction hcalls generalizing m with
  | nil =>
    obtain rfl := Option.some.inj h
    exact hstart
  | asked a direction answer _ ih =>
    obtain ⟨before, hbefore, hasked⟩ := foldlM_redo_concat.mp h
    obtain ⟨-, rfl⟩ := accepts_eq_some (MemoryCall.redo_accepts.mp hasked)
    exact ih hbefore
  | given a direction _ ih =>
    obtain ⟨asked, hbefore, hgiven⟩ := foldlM_redo_concat.mp h
    obtain ⟨before, hbefore, hasked⟩ := foldlM_redo_concat.mp hbefore
    -- the room that the answer spoke of is still there
    obtain ⟨hroom, rfl⟩ := accepts_eq_some (MemoryCall.redo_accepts.mp hasked)
    exact (ih hbefore).add hroom hgiven
  | ticked events _ ih =>
    obtain ⟨before, hbefore, hticked⟩ := foldlM_redo_concat.mp h
    exact (ih hbefore).advance (MemoryCall.redo_tick.mp hticked)

end QueuedMemory

/-- **A replay keeps to the contract of admission**, over any memory, any books and any observer.

Steps that no fault stops make one round of calls each: in the order of the channels the head of
each queue that is not empty is asked for, it is given to the memory if and only if the memory has
just agreed to it, and in the end the memory is ticked once. However the steps end, these calls are
gated, and they are all that happens to the memory. So, starting from a memory with nothing under
way, whatever state some of the calls have led to, no pseudo-channel's queue is too long in it. -/
theorem admission_contract {σ κ ω : Type} [MemorySystem σ] [LatencyModel κ] [Observer ω] :
    (∀ (n : Nat) (s t : Session σ ω), Session.steps n s = .ok t →
      ∃ rounds, rounds.length = n ∧ s.calls n = rounds.flatten ∧
        Rounds s.driver.queues rounds t.driver.queues) ∧
    (∀ (n : Nat) (s : Session σ ω), Gated (s.calls n) ∧
      (s.calls n).foldlM MemoryCall.redo s.memory = some (Session.steps n s).2.memory) ∧
    (∀ (c : MemoryConfig) (model : κ) (attached : Bool) (driver : Driver) (observer : ω) (n : Nat)
        (calls : List MemoryCall),
      calls <+: Session.calls n ⟨driver, { c.fresh model with attached }, observer⟩ →
      ∃ m, calls.foldlM MemoryCall.redo { c.fresh model with attached } = some m ∧
        ∀ j, m.inFlight.get j ≤ c.queueDepth.toNat) := by
  refine ⟨fun n s t h => Session.calls_rounds h, fun n s => s.calls_spec n, ?_⟩
  intro c model attached driver observer n calls hcalls
  obtain ⟨hgated, hredo⟩ :=
    Session.calls_spec n (⟨driver, { c.fresh model with attached }, observer⟩ : Session _ ω)
  obtain ⟨later, hlater⟩ := hcalls
  -- what all calls lead to, the first of them lead to something on the way
  rw [← hlater, List.foldlM_append] at hredo
  obtain ⟨m, hm, -⟩ := Option.bind_eq_some_iff.mp hredo
  have hfresh : ({ c.fresh model with attached } : QueuedMemory κ).Bounded c.queueDepth.toNat :=
    ⟨rfl, fun j => (Tally.get_replicate 0 j).trans_le (Nat.zero_le _)⟩
  exact ⟨m, hm, (QueuedMemory.bounded_of_gated hfresh (hgated.of_prefix ⟨later, hlater⟩) hm).2⟩

/-- A read in channel 0 and a write of the same pseudo-channel in channel 1, with room for one. -/
def readAndWrite (bus : Bus) : Session (QueuedMemory FixedLatency) Silence where
  driver := .ofQueues <| Vector.ofFn fun k => match k.val with
    | 0 => [.fresh 0 .read]
    | 1 => [.fresh 64 .write]
    | _ => []
  memory := { MemoryConfig.fresh { queueDepth := 1, bus } (FixedLatency.uniform 1) with
    attached := true }
  observer := Silence.mk

theorem calls_readAndWrite (bus : Bus) : (readAndWrite bus).calls 2 =
    [.accepts 0 .read true, .submit 0 .read, .accepts 64 .write false, .tick [⟨0, .read⟩],
      .accepts 64 .write true, .submit 64 .write, .tick [⟨64, .write⟩]] := by
  cbv

theorem steps_readAndWrite (bus : Bus) : (Session.steps 2 (readAndWrite bus)).1 = .ok () := by
  cbv

/-- The write is refused in the first step and given to the memory in the second one. -/
theorem admission_contract_readAndWrite : ∃ t, Session.steps 2 (readAndWrite {}) = .ok t ∧
    (∃ rounds, rounds.length = 2 ∧ (readAndWrite {}).calls 2 = rounds.flatten ∧
      Rounds (readAndWrite {}).driver.queues rounds t.driver.queues) ∧
    Gated ((readAndWrite {}).calls 2) ∧
    ∃ m, [.accepts 0 .read true, .submit 0 .read].foldlM MemoryCall.redo (readAndWrite {}).memory =
      some m ∧ ∀ j, m.inFlight.get j ≤ 1 := by
  have hok := steps_readAndWrite {}
  rcases hsteps : Session.steps 2 (readAndWrite {}) with ⟨outcome, t⟩
  rw [hsteps] at hok
  obtain rfl : outcome = .ok () := hok
  obtain ⟨hrounds, hgated, hbounded⟩ :=
    @admission_contract (QueuedMemory FixedLatency) FixedLatency Silence _ _ _
  refine ⟨t, rfl, hrounds 2 _ t hsteps, (hgated 2 (readAndWrite {})).1, ?_⟩
  refine hbounded { queueDepth := 1 } (.uniform 1) true (readAndWrite {}).driver Silence.mk 2 _ ?_
  exact ⟨_, (calls_readAndWrite {}).symm⟩

end MemoryReplay
