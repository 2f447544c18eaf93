import Mathlib
import MemoryReplay.Proofs.Memory.Visits

/-!
# Every request completes once, in order and on time

A memory with bounded queues is given requests and moved on, in any order and whether or not there
is room, over any latency model. Its visits, sorted by the cycle in which they are due and then by
admission, make up a line: what is under way and what each cycle completes are parts of it.

- `Act`, `Chronicle`: what is done to a memory, and what came of it: the visits, and what was told
  of each cycle. `Chronicle.run`: many acts, starting from a memory with nothing under way.
- `Sooner`: the order in which requests complete.
- `Chronicle.Punctual fields h line`: the invariant. `Punctual.act`: each act keeps it.
- `Punctual.inSequence`: what the cycles complete, one cycle after the other, is in order.
  `Punctual.accounts`: nothing is lost and nothing is counted twice.
- `completes_on_time`: all of it, for every run.
-/

namespace MemoryReplay

/-- What can be done to a memory that is not asked first. -/
inductive Act where
  /-- From now on completions are reported. -/
  | attach
  /-- A request is admitted. -/
  | add (key : Completion)
  /-- One cycle. -/
  | tick
  deriving Repr, DecidableEq

/-- What was told of a cycle. -/
structure CycleRecord where
  /-- Whether there was somebody to tell. -/
  attached : Bool
  /-- The completions that were reported, in order. -/
  reported : List Completion
  /-- Completions that were counted instead. -/
  unreported : Nat
  deriving Repr, DecidableEq

namespace CycleRecord

/-- The record of a cycle that completes the requests. -/
def of (attached : Bool) (completed : List Completion) : CycleRecord :=
  if attached then ⟨true, completed, 0⟩ else ⟨false, [], completed.length⟩

@[simp] theorem attached_of (attached : Bool) (completed : List Completion) :
    (of attached completed).attached = attached := by
  cases attached <;> rfl

theorem length_of (attached : Bool) (completed : List Completion) :
    (of attached completed).reported.length + (of attached completed).unreported =
      completed.length := by
  cases attached
  · exact Nat.zero_add _
  · exact Nat.add_zero _

end CycleRecord

/-- Completes sooner than another visit; each comes with its number in the order of admission. -/
def Sooner (a b : Visit × Nat) : Prop :=
  a.1.due < b.1.due ∨ a.1.due = b.1.due ∧ a.2 < b.2

/-- A visit under way. -/
def Pending.of (fields : AddressFields) (e : Visit × Nat) : Pending :=
  ⟨e.1.due, e.2, e.1.key, fields.channel e.1.key.address⟩

/-- If whatever satisfies `p` stands in front, then it can be taken off there. -/
theorem filter_append_of_pairwise {α : Type} {p : α → Bool} {l : List α}
    (h : l.Pairwise fun a b => p b = true → p a = true) :
    l.filter p ++ l.filter (fun a => !p a) = l := by
  induction l with
  | nil => rfl
  | cons a rest ih =>
    obtain ⟨ha, hrest⟩ := List.pairwise_cons.mp h
    by_cases hp : p a = true
    · rw [List.filter_cons_of_pos hp, List.filter_cons_of_neg (by simp [hp]), List.cons_append,
        ih hrest]
    · have hnone : rest.filter p = [] :=
        List.filter_eq_nil_iff.mpr fun b hb hpb => hp (ha b hb hpb)
      have hall : (rest.filter fun b => !p b) = rest :=
        List.filter_eq_self.mpr fun b hb => by simpa using fun hpb => hp (ha b hb hpb)
      rw [List.filter_cons_of_neg hp, List.filter_cons_of_pos (by simpa using hp), hnone, hall]
      rfl

/-- The line with one more visit: behind all that are due no later. -/
def joinLine (e : Visit × Nat) (line : List (Visit × Nat)) : List (Visit × Nat) :=
  line.filter (·.1.due ≤ e.1.due) ++ e :: line.filter (e.1.due < ·.1.due)

section Line

variable {e : Visit × Nat} {line : List (Visit × Nat)}

theorem due_le_of_sooner {a b : Visit × Nat} (h : Sooner a b) : a.1.due ≤ b.1.due := by
  rcases h with hlt | ⟨heq, -⟩
  · exact Nat.le_of_lt hlt
  · exact Nat.le_of_eq heq

/-- In a line whoever is due no later than a cycle stands in front. -/
theorem filter_due_append (h : line.Pairwise Sooner) (cycle : Nat) :
    line.filter (·.1.due ≤ cycle) ++ line.filter (cycle < ·.1.due) = line := by
  have hlater : (line.filter fun a => decide (cycle < a.1.due)) =
      line.filter fun a => !decide (a.1.due ≤ cycle) := by
    simp only [← decide_not, Nat.not_le]
  rw [hlater]
  refine filter_append_of_pairwise (h.imp ?_)
  intro a b hab hb
  exact decide_eq_true (Nat.le_trans (due_le_of_sooner hab) (of_decide_eq_true hb))

theorem joinLine_perm (h : line.Pairwise Sooner) : (joinLine e line).Perm (e :: line) :=
  List.perm_middle.trans (.cons e (.of_eq (filter_due_append h e.1.due)))

theorem joinLine_sorted (h : line.Pairwise Sooner) (hlast : ∀ a ∈ line, a.2 < e.2) :
    (joinLine e line).Pairwise Sooner := by
  refine List.pairwise_append.mpr ⟨h.filter _, List.pairwise_cons.mpr ⟨?_, h.filter _⟩, ?_⟩
  · intro b hb
    exact .inl (by simpa using List.of_mem_filter hb)
  · intro a ha b hb
    have hle : a.1.due ≤ e.1.due := by simpa using List.of_mem_filter ha
    rcases List.mem_cons.mp hb with rfl | hb
    · rcases Nat.lt_or_eq_of_le hle with hlt | heq
      · exact .inl hlt
      · exact .inr ⟨heq, hlast a (List.mem_of_mem_filter ha)⟩
    · have hlt : e.1.due < b.1.due := by simpa using List.of_mem_filter hb
      exact .inl (Nat.lt_of_le_of_lt hle hlt)

/-- A visit that joins the line joins each part that it belongs to. -/
theorem filter_joinLine_of_pos {p : Visit × Nat → Bool} (he : p e = true) :
    (joinLine e line).filter p = joinLine e (line.filter p) := by
  unfold joinLine
  rw [List.filter_append, List.filter_cons_of_pos he, List.filter_comm, List.filter_comm p]

theorem filter_joinLine_of_neg (h : line.Pairwise Sooner) {p : Visit × Nat → Bool}
    (he : p e = false) : (joinLine e line).filter p = line.filter p := by
  unfold joinLine
  rw [List.filter_append, List.filter_cons_of_neg (by simp [he]), ← List.filter_append,
    filter_due_append h]

end Line

/-- A memory, the visits it has had and what was told of its cycles. -/
structure Chronicle (κ : Type) where
  memory : QueuedMemory κ
  /-- The admissions, in their order. -/
  visits : List Visit := []
  /-- The cycles so far, in their order. -/
  cycles : List CycleRecord := []

namespace Chronicle

variable {κ : Type}

/-- After an admission for which the model gave a latency. -/
def admitted (h : Chronicle κ) (key : Completion) (latency : Nat) (model : κ) : Chronicle κ :=
  { h with
    memory := h.memory.joined key.address key.direction latency model
    visits := h.visits ++ [⟨key, h.memory.now, latency⟩] }

/-- After a cycle that leaves the given counts. -/
def ticked (h : Chronicle κ) (inFlight : Vector Nat pseudoChannels) : Chronicle κ :=
  { h with
    memory := (h.memory.cycled inFlight).1
    cycles := h.cycles ++ [.of h.memory.attached (h.memory.fired.map Pending.key)] }

/-- The visits in the order in which they complete, and a memory that goes through them. -/
structure Punctual (fields : AddressFields) (h : Chronicle κ) (line : List (Visit × Nat)) :
    Prop where
  decodes : h.memory.fields = fields
  /-- Every visit is there once, with its number. -/
  perm : line.Perm h.visits.zipIdx
  sorted : line.Pairwise Sooner
  issued : ∀ v ∈ h.visits, v.issue ≤ h.memory.now
  inOrder : h.visits.Pairwise (·.issue ≤ ·.issue)
  admitted : h.memory.admitted = h.visits.length
  /-- A visit is under way until it finishes. -/
  pending : h.memory.pending = (line.filter (h.memory.now < ·.1.finish)).map (Pending.of fields)
  inFlight : ∀ j, h.memory.inFlight.get j = h.memory.pending.countP (·.channel = j)
  cycles : h.cycles.length = h.memory.now
  /-- Each cycle completes the visits that finish in it, and tells of them if it can. -/
  told : ∀ t r, h.cycles[t]? = some r →
    r = CycleRecord.of r.attached ((line.filter (·.1.finish = t + 1)).map (·.1.key))
  unreported : h.memory.unreported = (h.cycles.map CycleRecord.unreported).sum
  perChannel : ∀ j, h.memory.perChannel.get j =
    h.visits.countP fun v => fields.channel v.key.address = j
  reads : h.memory.reads = h.visits.countP (·.key.direction = .read)
  writes : h.memory.writes = h.visits.countP (·.key.direction = .write)

namespace Punctual

variable {fields : AddressFields} {h : Chronicle κ} {line : List (Visit × Nat)}

theorem opening (c : MemoryConfig) (model : κ) :
    Punctual c.fields { memory := c.fresh model } [] where
  decodes := rfl
  perm := .refl _
  sorted := .nil
  issued := by simp
  inOrder := .nil
  admitted := rfl
  pending := rfl
  inFlight j := Tally.get_replicate 0 j
  cycles := rfl
  told := by simp
  unreported := rfl
  perChannel j := Tally.get_replicate 0 j
  reads := rfl
  writes := rfl

/-- To be told of completions changes nothing else. -/
theorem attach (hp : h.Punctual fields line) :
    Punctual fields { h with memory := { h.memory with attached := true } } line :=
  { hp with }

/-! ### What a line says of its visits -/

theorem mem_iff (hp : h.Punctual fields line) {e : Visit × Nat} :
    e ∈ line ↔ h.visits[e.2]? = some e.1 := by
  rw [hp.perm.mem_iff]
  exact List.mem_zipIdx_iff_getElem?

theorem issue_le (hp : h.Punctual fields line) {e : Visit × Nat} (he : e ∈ line) :
    e.1.issue ≤ h.memory.now :=
  hp.issued e.1 (List.mem_of_getElem? (hp.mem_iff.mp he))

theorem number_lt (hp : h.Punctual fields line) {e : Visit × Nat} (he : e ∈ line) :
    e.2 < h.visits.length := by
  obtain ⟨hlt, -⟩ := List.getElem?_eq_some_iff.mp (hp.mem_iff.mp he)
  exact hlt

/-- Who was admitted first was admitted no later. -/
theorem issue_le_of_number_lt (hp : h.Punctual fields line) {a b : Visit × Nat} (ha : a ∈ line)
    (hb : b ∈ line) (hlt : a.2 < b.2) : a.1.issue ≤ b.1.issue := by
  obtain ⟨hi, ha⟩ := List.getElem?_eq_some_iff.mp (hp.mem_iff.mp ha)
  obtain ⟨hj, hb⟩ := List.getElem?_eq_some_iff.mp (hp.mem_iff.mp hb)
  rw [← ha, ← hb]
  exact List.pairwise_iff_getElem.mp hp.inOrder _ _ hi hj hlt

theorem pending_sorted (hp : h.Punctual fields line) :
    h.memory.pending.Pairwise (·.due ≤ ·.due) := by
  rw [hp.pending, List.pairwise_map]
  exact (hp.sorted.filter _).imp due_le_of_sooner

/-- The requests under way of which something holds. -/
theorem pending_filter (hp : h.Punctual fields line) (p : Pending → Bool) :
    h.memory.pending.filter p =
      ((line.filter (h.memory.now < ·.1.finish)).filter fun e => p (.of fields e)).map
        (Pending.of fields) := by
  rw [hp.pending, List.filter_map]
  rfl

/-- The next cycle completes the visits that finish in it. -/
theorem fired (hp : h.Punctual fields line) : h.memory.fired =
    (line.filter (·.1.finish = h.memory.now + 1)).map (Pending.of fields) := by
  unfold QueuedMemory.fired
  rw [hp.pending_filter, List.filter_filter]
  refine congrArg _ (List.filter_congr fun e he => ?_)
  rw [Bool.eq_iff_iff, Bool.and_eq_true]
  simp only [decide_eq_true_eq]
  exact Visit.finishes_iff (hp.issue_le he)

/-! ### What becomes of a line -/

/-- A visit joins the line where its latency puts it; no cycle that is over learns of it. -/
theorem joined (hp : h.Punctual fields line) (key : Completion) (latency : Nat) (model : κ) :
    (h.admitted key latency model).Punctual fields
      (joinLine (⟨key, h.memory.now, latency⟩, h.visits.length) line) where
  decodes := hp.decodes
  perm := by
    refine (joinLine_perm hp.sorted).trans ((hp.perm.cons _).trans ?_)
    show List.Perm _ (h.visits ++ [_]).zipIdx
    rw [List.zipIdx_append, Nat.zero_add]
    exact (List.perm_append_singleton ..).symm
  sorted := joinLine_sorted hp.sorted fun _ ha => hp.number_lt ha
  issued := by
    intro v hv
    rcases List.mem_append.mp hv with hv | hv
    · exact hp.issued v hv
    · obtain rfl := List.mem_singleton.mp hv
      exact Nat.le_refl _
  inOrder := by
    refine List.pairwise_append.mpr ⟨hp.inOrder, List.pairwise_singleton .., ?_⟩
    intro v hv w hw
    obtain rfl := List.mem_singleton.mp hw
    exact hp.issued v hv
  admitted := by
    show h.memory.admitted + 1 = (h.visits ++ [_]).length
    rw [hp.admitted, List.length_append]
    rfl
  pending := by
    let e : Visit × Nat := (⟨key, h.memory.now, latency⟩, h.visits.length)
    have hentry : h.memory.arrival key.address key.direction latency = Pending.of fields e := by
      unfold QueuedMemory.arrival
      rw [hp.admitted, hp.decodes]
      rfl
    have hunderway : decide (h.memory.now < e.1.finish) = true :=
      decide_eq_true (Visit.issue_lt_finish e.1)
    show QueuedMemory.schedule (h.memory.arrival key.address key.direction latency) _ = _
    rw [QueuedMemory.schedule_eq hp.pending_sorted, hp.pending_filter, hp.pending_filter, hentry]
    show _ = List.map _ (List.filter (fun x => decide (h.memory.now < x.1.finish)) (joinLine e line))
    rw [filter_joinLine_of_pos hunderway, joinLine, List.map_append]
    rfl
  inFlight := QueuedMemory.inFlight_joined hp.inFlight
  cycles := hp.cycles
  told := by
    intro t r hr
    obtain ⟨ht, -⟩ := List.getElem?_eq_some_iff.mp hr
    have hlater : h.memory.now < (⟨key, h.memory.now, latency⟩ : Visit).finish :=
      Visit.issue_lt_finish ⟨key, h.memory.now, latency⟩
    have hpast : t < h.memory.now := hp.cycles ▸ ht
    have hother : (⟨key, h.memory.now, latency⟩ : Visit).finish ≠ t + 1 := by omega
    rw [filter_joinLine_of_neg hp.sorted (decide_eq_false hother)]
    exact hp.told t r hr
  unreported := hp.unreported
  perChannel := by
    intro j
    show (QueuedMemory.increase h.memory.perChannel (h.memory.fields.channel key.address)).get j =
      (h.visits ++ [_]).countP _
    unfold QueuedMemory.increase
    rw [hp.decodes, List.countP_append, List.countP_singleton, ← hp.perChannel, Tally.get_set]
    by_cases hj : fields.channel key.address = j
    · subst hj
      simp
    · simp [hj]
  reads := by
    show (if key.direction = .read then _ else _) = (h.visits ++ [_]).countP _
    rw [List.countP_append, List.countP_singleton, ← hp.reads]
    cases key.direction <;> rfl
  writes := by
    show (if key.direction = .write then _ else _) = (h.visits ++ [_]).countP _
    rw [List.countP_append, List.countP_singleton, ← hp.writes]
    cases key.direction <;> rfl

/-- A cycle leaves the line as it is, and completes its share of it. -/
theorem moved (hp : h.Punctual fields line) {inFlight : Vector Nat pseudoChannels}
    (hcounts : ∀ k, inFlight.get k =
      (h.memory.moved inFlight).pending.countP (·.channel = k)) :
    (h.ticked inFlight).Punctual fields line where
  decodes := hp.decodes
  perm := hp.perm
  sorted := hp.sorted
  issued v hv := Nat.le_succ_of_le (hp.issued v hv)
  inOrder := hp.inOrder
  admitted := hp.admitted
  pending := by
    show h.memory.pending.filter _ = _
    rw [hp.pending_filter, List.filter_filter]
    refine congrArg _ (List.filter_congr fun e he => ?_)
    rw [Bool.eq_iff_iff, Bool.and_eq_true]
    simp only [decide_eq_true_eq]
    exact Visit.stays_iff (hp.issue_le he)
  inFlight := hcounts
  cycles := by
    show (h.cycles ++ [_]).length = h.memory.now + 1
    rw [List.length_append, hp.cycles]
    rfl
  told := by
    intro t r hr
    rcases Nat.lt_trichotomy t h.cycles.length with hlt | rfl | hgt
    · exact hp.told t r ((List.getElem?_append_left hlt).symm.trans hr)
    · obtain rfl := Option.some.inj (List.getElem?_concat_length.symm.trans hr)
      rw [CycleRecord.attached_of, hp.fired, List.map_map, hp.cycles]
      rfl
    · have hlength := (List.getElem?_eq_some_iff.mp hr).1
      have hlong : (h.ticked inFlight).cycles.length = h.cycles.length + 1 :=
        List.length_append
      omega
  unreported := by
    show (if h.memory.attached = true then _ else _) = ((h.cycles ++ [_]).map _).sum
    rw [List.map_append, List.sum_append, ← hp.unreported]
    cases h.memory.attached
    · simp [CycleRecord.of]
    · rfl
  perChannel := hp.perChannel
  reads := hp.reads
  writes := hp.writes

/-! ### What a line says of the cycles -/

/-- Whoever finishes in a later cycle stands further back. -/
theorem finish_pairwise (hp : h.Punctual fields line) (cycle : Nat) :
    (line.filter (·.1.finish ≤ cycle + 1)).Pairwise fun a b =>
      b.1.finish ≤ cycle → a.1.finish ≤ cycle := by
  refine List.pairwise_filter.mpr (hp.sorted.imp_of_mem ?_)
  rintro a b ha hb hab hfa - hfb
  have hfa : a.1.finish ≤ cycle + 1 := by simpa using hfa
  have hbefore := Visit.issue_lt_finish b.1
  by_contra hlate
  unfold Visit.finish at *
  rcases hab with hlt | ⟨heq, hnumber⟩
  · -- `a` is due before `b` and finishes after it
    unfold Visit.due at hlt
    omega
  · -- then `a` came later, and was due at once
    have hissue := hp.issue_le_of_number_lt ha hb hnumber
    unfold Visit.due at heq
    omega

/-- What the cycles complete, one cycle after the other, is the front of the line. -/
theorem inSequence (hp : h.Punctual fields line) (n : Nat) :
    (List.range n).flatMap (fun t => line.filter (·.1.finish = t + 1)) =
      line.filter (·.1.finish ≤ n) := by
  induction n with
  | zero =>
    have hnone : line.filter (·.1.finish ≤ 0) = [] :=
      List.filter_eq_nil_iff.mpr fun e _ => by
        have := Visit.issue_lt_finish e.1
        simp
        omega
    rw [hnone]
    rfl
  | succ n ih =>
    have hfront : (line.filter (·.1.finish ≤ n + 1)).filter (·.1.finish ≤ n) =
        line.filter (·.1.finish ≤ n) := by
      rw [List.filter_filter]
      refine List.filter_congr fun e _ => ?_
      rw [Bool.eq_iff_iff, Bool.and_eq_true]
      simp only [decide_eq_true_eq]
      omega
    have hback : (line.filter (·.1.finish ≤ n + 1)).filter (fun e => !decide (e.1.finish ≤ n)) =
        line.filter (·.1.finish = n + 1) := by
      rw [List.filter_filter]
      refine List.filter_congr fun e _ => ?_
      rw [Bool.eq_iff_iff, Bool.and_eq_true]
      simp only [Bool.not_eq_true', decide_eq_false_iff_not, decide_eq_true_eq]
      omega
    rw [List.range_succ, List.flatMap_append, ih, List.flatMap_singleton, ← hfront, ← hback]
    refine filter_append_of_pairwise ((hp.finish_pairwise n).imp ?_)
    intro a b hab hb
    exact decide_eq_true (hab (of_decide_eq_true hb))

/-- Every admission has been reported, counted or is under way. -/
theorem accounts (hp : h.Punctual fields line) : h.visits.length =
    (h.cycles.map fun r => r.reported.length).sum + h.memory.unreported +
      h.memory.outstanding := by
  -- each cycle has told of as many as it completed
  have hshares : (h.cycles.map fun r => r.reported.length + r.unreported) =
      (List.range h.memory.now).map fun t => (line.filter (·.1.finish = t + 1)).length := by
    refine List.ext_getElem (by simp [hp.cycles]) fun t ht _ => ?_
    rw [List.getElem_map] at *
    have hr := hp.told t _ (List.getElem?_eq_getElem (by simpa using ht))
    rw [hr, CycleRecord.length_of]
    simp
  have hdone : ((h.cycles.map fun r => r.reported.length).sum + h.memory.unreported) =
      (line.filter (·.1.finish ≤ h.memory.now)).length := by
    rw [hp.unreported, ← List.sum_map_add, hshares, ← hp.inSequence, List.length_flatMap]
  have hrest : h.memory.outstanding = (line.filter (h.memory.now < ·.1.finish)).length := by
    unfold QueuedMemory.outstanding
    rw [hp.pending, List.length_map]
  have hall : h.visits.length = line.length := by
    rw [hp.perm.length_eq, List.length_zipIdx]
  have hsplit := line.length_eq_length_filter_add fun e => decide (e.1.finish ≤ h.memory.now)
  simp only [← decide_not, Nat.not_le] at hsplit
  rw [hdone, hrest, hall, hsplit]

theorem visits_length_eq (hp : h.Punctual fields line) :
    h.memory.reads + h.memory.writes = h.visits.length ∧
      ∑ j, h.memory.perChannel.get j = h.visits.length := by
  constructor
  · rw [hp.reads, hp.writes, List.length_eq_countP_add_countP fun v => v.key.direction = .read]
    refine congrArg _ (List.countP_congr fun v _ => ?_)
    cases v.key.direction <;> simp
  · rw [← Tally.sum_countP (fun v : Visit => fields.channel v.key.address) h.visits]
    exact Finset.sum_congr rfl fun j _ => hp.perChannel j

end Punctual

/-! ### Acts -/

section

variable [LatencyModel κ] {c : MemoryConfig} {fields : AddressFields} {h h' : Chronicle κ}
  {line : List (Visit × Nat)} {key : Completion} {acts earlier : List Act}

/-- One act, and what came of it. -/
def act (h : Chronicle κ) : Act → Checked (Chronicle κ)
  | .attach => some { h with memory := MemorySystem.attach h.memory }
  | .add key => do
    let (latency, _) ← LatencyModel.access h.memory.model key.address key.direction
    let memory ← MemorySystem.submit h.memory key.address key.direction
    return { h with memory, visits := h.visits ++ [⟨key, h.memory.now, latency⟩] }
  | .tick => do
    let (memory, reported) ← MemorySystem.tick h.memory
    let told := ⟨h.memory.attached, reported, memory.unreported - h.memory.unreported⟩
    return { h with memory, cycles := h.cycles ++ [told] }

/-- Acts one after the other, on a memory of a configuration with nothing under way. -/
def run (c : MemoryConfig) (model : κ) (acts : List Act) : Checked (Chronicle κ) :=
  acts.foldlM act { memory := c.fresh model }

/-- An admission joins the latency of the model to the visits. -/
theorem act_add_iff : h.act (.add key) = some h' ↔ h.memory.fields.channelShift.toNat < 64 ∧
    ∃ latency model,
      LatencyModel.access h.memory.model key.address key.direction = some (latency, model) ∧
      h.memory.now + latency < UInt64.size ∧ h.memory.totalLatency + latency < UInt64.size ∧
      h' = h.admitted key latency model := by
  constructor
  · intro hact
    obtain ⟨⟨latency, _⟩, hserved, hact⟩ := Option.bind_eq_some_iff.mp hact
    obtain ⟨memory, hadd, hact⟩ := Option.bind_eq_some_iff.mp hact
    obtain ⟨hshift, _, model, hsame, hdue, htotal, rfl⟩ := QueuedMemory.add_eq_some_iff.mp hadd
    obtain ⟨rfl, rfl⟩ := Prod.mk.inj (Option.some.inj (hserved.symm.trans hsame))
    exact ⟨hshift, latency, _, hserved, hdue, htotal, (Option.some.inj hact).symm⟩
  · rintro ⟨hshift, latency, model, hserved, hdue, htotal, rfl⟩
    refine Option.bind_eq_some_iff.mpr ⟨_, hserved, Option.bind_eq_some_iff.mpr ⟨_, ?_, rfl⟩⟩
    exact QueuedMemory.add_eq_some_iff.mpr ⟨hshift, latency, model, hserved, hdue, htotal, rfl⟩

/-- A cycle of a memory that goes through a line never fails but for the clock. -/
theorem Punctual.act_tick (hp : h.Punctual fields line) :
    ∃ inFlight, (h.ticked inFlight).Punctual fields line ∧
      h.act .tick = (Word.fits (h.memory.now + 1)).map fun _ => h.ticked inFlight := by
  obtain ⟨inFlight, hcounts, hadvance⟩ := QueuedMemory.advance_eq hp.pending_sorted hp.inFlight
  refine ⟨inFlight, hp.moved hcounts, ?_⟩
  show (h.memory.advance >>= _) = _
  rw [hadvance]
  cases Word.fits (h.memory.now + 1) with
  | none => rfl
  | some now =>
    have htold : (⟨h.memory.attached, (h.memory.cycled inFlight).2,
        (h.memory.cycled inFlight).1.unreported - h.memory.unreported⟩ : CycleRecord) =
          .of h.memory.attached (h.memory.fired.map Pending.key) := by
      unfold QueuedMemory.cycled CycleRecord.of
      cases h.memory.attached <;> simp
    show _ = some (h.ticked inFlight)
    unfold ticked
    rw [← htold]
    rfl

/-- Whatever is done, requests complete in the order of a line. -/
theorem Punctual.act {a : Act} (hp : h.Punctual fields line) (hact : h.act a = some h') :
    ∃ line', h'.Punctual fields line' := by
  cases a with
  | attach =>
    obtain rfl := Option.some.inj hact
    exact ⟨line, hp.attach⟩
  | add key =>
    obtain ⟨-, latency, model, -, -, -, rfl⟩ := act_add_iff.mp hact
    exact ⟨_, hp.joined key latency model⟩
  | tick =>
    obtain ⟨inFlight, hmoved, hticked⟩ := hp.act_tick
    obtain ⟨_, -, rfl⟩ := Option.map_eq_some_iff.mp (hticked.symm.trans hact)
    exact ⟨line, hmoved⟩

/-- Nothing that came of an act is ever taken back. -/
theorem act_extends {a : Act} (hact : h.act a = some h') :
    h.visits <+: h'.visits ∧ h.cycles <+: h'.cycles := by
  cases a with
  | attach =>
    obtain rfl := Option.some.inj hact
    exact ⟨List.prefix_rfl, List.prefix_rfl⟩
  | add key =>
    obtain ⟨-, latency, model, -, -, -, rfl⟩ := act_add_iff.mp hact
    exact ⟨List.prefix_append .., List.prefix_rfl⟩
  | tick =>
    obtain ⟨⟨memory, reported⟩, -, hact⟩ := Option.bind_eq_some_iff.mp hact
    obtain rfl := Option.some.inj hact
    exact ⟨List.prefix_rfl, List.prefix_append ..⟩

theorem acts_punctual (hp : h.Punctual fields line) (hacts : acts.foldlM act h = some h') :
    ∃ line', h'.Punctual fields line' := by
  induction acts generalizing h line with
  | nil =>
    obtain rfl := Option.some.inj hacts
    exact ⟨line, hp⟩
  | cons a rest ih =>
    obtain ⟨between, hact, hrest⟩ := Option.bind_eq_some_iff.mp hacts
    obtain ⟨line', hbetween⟩ := hp.act hact
    exact ih hbetween hrest

theorem acts_extends (hacts : acts.foldlM act h = some h') :
    h.visits <+: h'.visits ∧ h.cycles <+: h'.cycles := by
  induction acts generalizing h with
  | nil =>
    obtain rfl := Option.some.inj hacts
    exact ⟨List.prefix_rfl, List.prefix_rfl⟩
  | cons a rest ih =>
    obtain ⟨between, hact, hrest⟩ := Option.bind_eq_some_iff.mp hacts
    obtain ⟨hvisits, hcycles⟩ := act_extends hact
    obtain ⟨hvisits', hcycles'⟩ := ih hrest
    exact ⟨hvisits.trans hvisits', hcycles.trans hcycles'⟩

/-- A run has been at the end of every shorter run. -/
theorem run_prefix {model : κ} (hrun : run c model acts = some h') (hearlier : earlier <+: acts) :
    ∃ h, run c model earlier = some h ∧ h.visits <+: h'.visits ∧ h.cycles <+: h'.cycles := by
  obtain ⟨later, rfl⟩ := hearlier
  unfold run at hrun
  rw [List.foldlM_append] at hrun
  obtain ⟨h, hfirst, hlater⟩ := Option.bind_eq_some_iff.mp hrun
  exact ⟨h, hfirst, acts_extends hlater⟩

theorem run_punctual {model : κ} (hrun : run c model acts = some h) :
    ∃ line, h.Punctual c.fields line :=
  acts_punctual (.opening c model) hrun

end

end Chronicle

open Chronicle in
/-- **Every request completes exactly once, in order and on time**, in any run of a memory with a
valid configuration over any latency model, whether or not it had room for what it was given.

The visits form a line, sorted by the cycle in which they are due and then by admission. Under way
are those that have not finished, and the queues count them; each cycle has completed those that
finish in it, and what the cycles have completed, one after the other, is the front of the line.
Every admission was reported, counted as unreported, or is under way. After a cycle all that is
under way is due later. The next cycle fails only if the clock leaves 64 bits, and an admission
with a latency only if a sum does. All this has been so at any time before. -/
theorem completes_on_time {κ : Type} [LatencyModel κ] (c : MemoryConfig) (model : κ)
    (acts : List Act) {h : Chronicle κ} (hvalid : c.validate = .ok ())
    (hrun : run c model acts = some h) :
    (∃ line, h.Punctual c.fields line ∧
      (List.range h.memory.now).flatMap (fun t => line.filter (·.1.finish = t + 1)) =
        line.filter (·.1.finish ≤ h.memory.now)) ∧
    h.memory.reads + h.memory.writes = ∑ j, h.memory.perChannel.get j ∧
    h.memory.reads + h.memory.writes = (h.cycles.map fun r => r.reported.length).sum +
      h.memory.unreported + h.memory.outstanding ∧
    (h.memory.now + 1 < UInt64.size → ∃ h', h.act .tick = some h') ∧
    (∀ h', h.act .tick = some h' → ∀ p ∈ h'.memory.pending, h'.memory.now < p.due) ∧
    (∀ key latency after,
      LatencyModel.access h.memory.model key.address key.direction = some (latency, after) →
      h.memory.now + latency < UInt64.size → h.memory.totalLatency + latency < UInt64.size →
      h.act (.add key) = some (h.admitted key latency after)) ∧
    ∀ earlier, earlier <+: acts → ∃ before, run c model earlier = some before ∧
      before.visits <+: h.visits ∧ before.cycles <+: h.cycles := by
  have hc := MemoryConfig.usable_of_validate hvalid
  obtain ⟨line, hp⟩ := run_punctual hrun
  obtain ⟨hdirections, hchannels⟩ := hp.visits_length_eq
  obtain ⟨inFlight, -, htick⟩ := hp.act_tick
  refine ⟨⟨line, hp, hp.inSequence _⟩, hdirections.trans hchannels.symm,
    hdirections.trans hp.accounts, ?_, ?_, ?_, fun earlier => run_prefix hrun⟩
  · intro hclock
    rw [htick, Word.fits_eq_some_iff.mpr ⟨rfl, hclock⟩]
    exact ⟨_, rfl⟩
  · intro h' hact p hpending
    obtain ⟨_, -, rfl⟩ := Option.map_eq_some_iff.mp (htick.symm.trans hact)
    have hlater : p ∈ h.memory.pending.filter (h.memory.now + 1 < ·.due) := hpending
    show h.memory.now + 1 < p.due
    simpa using (List.mem_filter.mp hlater).2
  · intro key latency after hserved hdue htotal
    have hshift : h.memory.fields.channelShift.toNat < 64 := hp.decodes ▸ hc.fields.channel
    exact act_add_iff.mpr ⟨hshift, latency, after, hserved, hdue, htotal, rfl⟩

/-- A read that takes four cycles, and two writes that take none: one completes before there is
anybody to tell, the other after that. -/
def lateListener : List Act :=
  [.add ⟨0, .read⟩, .tick, .add ⟨64, .write⟩, .tick, .attach, .add ⟨64, .write⟩, .tick, .tick]

theorem cycles_lateListener (bus : Bus) :
    (Chronicle.run { queueDepth := 1, bus } (FixedLatency.mk 4 0) lateListener).map
      Chronicle.cycles = some [⟨false, [], 0⟩, ⟨false, [], 1⟩, ⟨true, [⟨64, .write⟩], 0⟩,
        ⟨true, [⟨0, .read⟩], 0⟩] := by
  cbv

/-- The queue holds more than it should; still each request finishes when it has to. -/
theorem completes_on_time_lateListener : ∃ h : Chronicle FixedLatency,
    ({ queueDepth := 1 } : MemoryConfig).validate = .ok () ∧
    Chronicle.run { queueDepth := 1 } (FixedLatency.mk 4 0) lateListener = some h ∧
    (∃ line, h.Punctual ({ queueDepth := 1 } : MemoryConfig).fields line) ∧
    h.memory.reads + h.memory.writes = ∑ j, h.memory.perChannel.get j ∧
    h.memory.reads + h.memory.writes = 2 + h.memory.unreported + h.memory.outstanding := by
  obtain ⟨h, hrun, hcycles⟩ := Option.map_eq_some_iff.mp (cycles_lateListener {})
  obtain ⟨⟨line, hp, -⟩, hchannels, haccounts, -⟩ :=
    completes_on_time { queueDepth := 1 } (FixedLatency.mk 4 0) lateListener rfl hrun
  rw [hcycles] at haccounts
  exact ⟨h, rfl, hrun, ⟨line, hp⟩, hchannels, haccounts⟩

end MemoryReplay
