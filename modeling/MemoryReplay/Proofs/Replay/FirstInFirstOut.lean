import MemoryReplay.Proofs.Replay.Soundness

/-!
# First in, first out

A completion names an address and a direction only. The books let it answer the oldest request that
it can mean, so over a whole run the completions of one key answer the requests with this key in the
order of their admission. What has been answered is not touched again.

- `Completion.cyclesIn`: the cycles in which a completion was reported.
- `Ledger.Keeps`: what is answered stays as it is. `Ledger.Turns`: the entries of a key, side by side
  with the completions that have answered them. `Ledger.Answered`: so it is for every key.
- `Driver.Matches`: the invariant of the books. `Matches.issue`, `Matches.settle`: the operations
  keep it.
- `Session.Matching`: the invariant of a replay, with what its memory has reported.
- `Driver.AnsweredInTurn`: what it says of the slots. `first_in_first_out`: it holds after any steps.
-/

namespace MemoryReplay

/-- The cycles in which a completion was reported, in order. -/
def Completion.cyclesIn (key : Completion) (reports : List (Completion × Nat)) : List Nat :=
  (reports.filter fun p => p.1 = key).map Prod.snd

theorem Completion.cyclesIn_concat (key key' : Completion) (reports : List (Completion × Nat))
    (cycle : Nat) : key'.cyclesIn (reports ++ [(key, cycle)]) =
      key'.cyclesIn reports ++ if key = key' then [cycle] else [] := by
  unfold cyclesIn
  by_cases hkey : key = key' <;> simp [List.filter_append, hkey]

/-- The request as it stands in a slot: admitted in cycle `issue`, and with a completion if one has
answered it. -/
def Request.withStamps (r : Request) (issue : Nat) : Option Nat → Request
  | none => r.markIssued issue
  | some cycle => (r.markIssued issue).markCompleted cycle

/-- The cycle of the completion that has answered the entry. -/
def Entry.answer (e : Entry) : Option Nat := if e.waits then none else some e.request.completeCycle

namespace Ledger

variable {ledger ledger' old : Ledger} {reports : List (Completion × Nat)} {key : Completion}
  {cycle : Nat} {e : Entry}

/-! ### Entries that are answered stay as they are -/

/-- What was answered in the ledger before stands in this one in the same place. -/
def Keeps (old ledger : Ledger) : Prop :=
  ∀ (i : Nat) (e : Entry), old[i]? = some e → e.waits = false → ledger[i]? = some e

theorem Keeps.refl (ledger : Ledger) : ledger.Keeps ledger := fun _ _ he _ => he

theorem Keeps.concat (h : old.Keeps ledger) (e : Entry) : old.Keeps (ledger ++ [e]) := by
  intro i x hx hdone
  have hi := h i x hx hdone
  rw [List.getElem?_append_left (List.getElem?_eq_some_iff.mp hi).1]
  exact hi

/-- A settlement stamps an entry that waited. -/
theorem getElem?_settle {i : Nat} (hi : ledger[i]? = some e) (hdone : e.waits = false) :
    (ledger.settle key cycle)[i]? = some e := by
  induction ledger generalizing i with
  | nil => exact hi
  | cons x rest ih =>
    rw [settle_cons]
    cases i with
    | zero =>
      obtain rfl : x = e := Option.some.inj hi
      have hpassed : x.awaits key = false := by simp [Entry.awaits, hdone]
      rw [if_neg (by simp [hpassed])]
      rfl
    | succ i =>
      have hrest : rest[i]? = some e := hi
      split
      · exact hrest
      · exact ih hrest

theorem Keeps.settle (h : old.Keeps ledger) (key : Completion) (cycle : Nat) :
    old.Keeps (ledger.settle key cycle) :=
  fun i x hx hdone => getElem?_settle (h i x hx hdone) hdone

/-! ### Entries of one key -/

/-- The entries of a key are those that completions have answered in the cycles `cycles`, and behind
them those that wait. -/
structure Turns (ledger : Ledger) (key : Completion) (cycles : List Nat)
    (answered waiting : Ledger) : Prop where
  split : (ledger.filter fun e => e.request.key = key) = answered ++ waiting
  answers : answered.map Entry.answer = cycles.map some
  waits : ∀ e ∈ waiting, e.waits = true

namespace Turns

variable {cycles : List Nat} {answered waiting : Ledger}

theorem length_eq (h : ledger.Turns key cycles answered waiting) :
    answered.length = cycles.length := by
  simpa using congrArg List.length h.answers

theorem not_awaits (h : ledger.Turns key cycles answered waiting) :
    ∀ e ∈ answered, e.awaits key = false := by
  intro e he
  by_contra hawaits
  have hwaits := (Entry.awaits_iff.mp (by simpa using hawaits)).1
  have hmem := List.mem_map_of_mem (f := Entry.answer) he
  rw [h.answers] at hmem
  simp [Entry.answer, hwaits] at hmem

theorem awaits (h : ledger.Turns key cycles answered waiting) :
    ∀ e ∈ waiting, e.awaits key = true := by
  intro e he
  have hmem : e ∈ ledger.filter fun e => e.request.key = key := by
    rw [h.split]
    exact List.mem_append_right _ he
  exact Entry.awaits_iff.mpr ⟨h.waits e he, by simpa using List.of_mem_filter hmem⟩

/-- What has answered an entry is the completion in its place. -/
theorem answer_eq (h : ledger.Turns key cycles answered waiting) {i : Nat}
    (hi : (ledger.filter fun e => e.request.key = key)[i]? = some e) : e.answer = cycles[i]? := by
  rw [h.split] at hi
  by_cases hlt : i < answered.length
  · rw [List.getElem?_append_left hlt] at hi
    have hplace := congrArg (fun l => l[i]?) h.answers
    simp only [List.getElem?_map, hi, Option.map_some] at hplace
    obtain ⟨cycle, hcycle, heq⟩ := Option.map_eq_some_iff.mp hplace.symm
    rw [hcycle, ← heq]
  · have hge := Nat.le_of_not_lt hlt
    rw [List.getElem?_append_right hge] at hi
    have hwaits := h.waits e (List.mem_of_getElem? hi)
    rw [h.length_eq] at hge
    rw [List.getElem?_eq_none hge]
    unfold Entry.answer
    rw [if_pos hwaits]

theorem concat (h : ledger.Turns key cycles answered waiting) (hwaits : e.waits = true) :
    (ledger ++ [e]).Turns key cycles answered
      (waiting ++ [e].filter fun e => e.request.key = key) where
  split := by rw [List.filter_append, h.split, List.append_assoc]
  answers := h.answers
  waits x hx := by
    rcases List.mem_append.mp hx with hx | hx
    · exact h.waits x hx
    · obtain rfl := List.mem_singleton.mp (List.mem_of_mem_filter hx)
      exact hwaits

/-- A completion of the key answers the first entry that waits. -/
theorem settle (h : ledger.Turns key cycles answered (e :: waiting)) (cycle : Nat) :
    (ledger.settle key cycle).Turns key (cycles ++ [cycle]) (answered ++ [e.settle cycle])
      waiting where
  split := by
    have hkeys : ∀ x ∈ ledger, x.awaits key = true → decide (x.request.key = key) = true :=
      fun x _ hawaits => decide_eq_true (Entry.awaits_iff.mp hawaits).2
    rw [Ledger.filter_settle (fun e => decide (e.request.key = key)) (fun _ => rfl) hkeys, h.split,
      if_pos rfl, settle_eq_of_split h.not_awaits (h.awaits e List.mem_cons_self)]
    simp
  answers := by
    rw [List.map_append, h.answers, List.map_append]
    rfl
  waits x hx := h.waits x (List.mem_cons_of_mem _ hx)

/-- A completion of another key answers none of them. -/
theorem settle_other {key' : Completion} (h : ledger.Turns key' cycles answered waiting)
    (hkey : key ≠ key') (cycle : Nat) :
    (ledger.settle key cycle).Turns key' cycles answered waiting where
  split := by
    have hkeys : ∀ x ∈ ledger, x.awaits key = true → decide (x.request.key = key') = false :=
      fun x _ hawaits => decide_eq_false ((Entry.awaits_iff.mp hawaits).2.symm ▸ hkey)
    rw [Ledger.filter_settle (fun e => decide (e.request.key = key')) (fun _ => rfl) hkeys, h.split]
    rfl
  answers := h.answers
  waits := h.waits

end Turns

/-- The entries of each key are answered in turn, by the completions reported for the key. -/
def Answered (ledger : Ledger) (reports : List (Completion × Nat)) : Prop :=
  ∀ key : Completion, ∃ answered waiting, ledger.Turns key (key.cyclesIn reports) answered waiting

theorem Answered.concat (h : ledger.Answered reports) (hwaits : e.waits = true) :
    (ledger ++ [e]).Answered reports := by
  intro key
  obtain ⟨answered, waiting, hturns⟩ := h key
  exact ⟨answered, _, hturns.concat hwaits⟩

theorem Answered.settle (h : ledger.Answered reports) (hsome : ∃ e ∈ ledger, e.awaits key = true)
    (cycle : Nat) : (ledger.settle key cycle).Answered (reports ++ [(key, cycle)]) := by
  intro key'
  obtain ⟨answered, waiting, hturns⟩ := h key'
  rw [Completion.cyclesIn_concat]
  by_cases hkey : key = key'
  · subst hkey
    rw [if_pos rfl]
    cases waiting with
    | nil =>
      -- some entry of the key waits, so not all of them are answered
      obtain ⟨e, he, hawaits⟩ := hsome
      have hmem : e ∈ ledger.filter fun e => e.request.key = key :=
        List.mem_filter.mpr ⟨he, by simp [(Entry.awaits_iff.mp hawaits).2]⟩
      rw [hturns.split, List.append_nil] at hmem
      rw [hturns.not_awaits e hmem] at hawaits
      cases hawaits
    | cons e newer => exact ⟨_, newer, hturns.settle cycle⟩
  · rw [if_neg hkey, List.append_nil]
    exact ⟨answered, waiting, hturns.settle_other hkey cycle⟩

end Ledger

namespace Driver

variable {queues : Vector (List Request) channels} {old ledger : Ledger} {d : Driver}
  {reports : List (Completion × Nat)} {key : Completion}

/-- Books whose completions so far are `reports`; `old` is the ledger at some moment before. -/
structure Matches (queues : Vector (List Request) channels) (old : Ledger) (d : Driver)
    (ledger : Ledger) (reports : List (Completion × Nat)) : Prop where
  records : d.Records ledger
  answered : ledger.Answered reports
  keeps : old.Keeps ledger
  heads : ∀ k, ∀ r ∈ d.queues.get k, r ∈ queues.get k
  /-- Nothing but the two stamps was written into a request. -/
  stamped : ∀ e ∈ ledger, ∃ q ∈ queues.get e.channel,
    e.request = q.withStamps e.request.issueCycle e.answer

namespace Matches

theorem opening (queues : Vector (List Request) channels) :
    (ofQueues queues).Matches queues [] [] [] where
  records := ofQueues_records queues
  answered _ := ⟨[], [], rfl, rfl, fun _ he => absurd he List.not_mem_nil⟩
  keeps := .refl []
  heads _ _ hr := hr
  stamped _ he := absurd he List.not_mem_nil

/-- From now on, the present moment is the moment before. -/
theorem since (h : d.Matches queues old ledger reports) : d.Matches queues ledger ledger reports :=
  { h with keeps := .refl ledger }

theorem issue {k : Fin channels} {head : Request} {rest : List Request}
    (h : d.Matches queues old ledger reports) (hq : d.queues.get k = head :: rest) :
    (d.issue k head rest).Matches queues old (ledger ++ [⟨head.markIssued d.cycle, k, true⟩])
      reports where
  records := h.records.issue k head rest
  answered := h.answered.concat rfl
  keeps := h.keeps.concat _
  heads j r hr := by
    have hr : r ∈ (d.queues.set k rest).get j := hr
    rw [Tally.get_set] at hr
    split at hr
    · next hj =>
      refine h.heads j r ?_
      rw [← hj, hq]
      exact List.mem_cons_of_mem _ hr
    · exact h.heads j r hr
  stamped e he := by
    rcases List.mem_append.mp he with he | he
    · exact h.stamped e he
    · obtain rfl := List.mem_singleton.mp he
      exact ⟨head, h.heads k head (hq ▸ List.mem_cons_self), rfl⟩

theorem clock (h : d.Matches queues old ledger reports) (cycle : Nat) (mailbox : List Completion) :
    ({ d with cycle, mailbox } : Driver).Matches queues old ledger reports :=
  ⟨h.records.clock cycle mailbox, h.answered, h.keeps, h.heads, h.stamped⟩

theorem settle (h : d.Matches queues old ledger reports) (hmatch : ∃ r, (d.match? key).1 = some r) :
    (d.match? key).2.Matches queues old (ledger.settle key d.cycle) (reports ++ [(key, d.cycle)]) := by
  have hsome : ∃ e ∈ ledger, e.awaits key = true := by
    rcases ledger.awaited_or key with hsome | hnone
    · exact hsome
    · obtain ⟨r, hr⟩ := hmatch
      rw [h.records.match?_of_not_awaits hnone] at hr
      cases hr
  refine ⟨(h.records.match?_of_awaits hsome).2, h.answered.settle hsome d.cycle,
    h.keeps.settle key d.cycle, ?_, fun e he => ?_⟩
  · rw [(d.match?_frame key).1]
    exact h.heads
  · rcases Ledger.mem_settle he with he | ⟨x, hx, hawaits, rfl⟩
    · exact h.stamped e he
    · obtain ⟨q, hq, hrequest⟩ := h.stamped x hx
      refine ⟨q, hq, ?_⟩
      have hwaits : x.answer = none := by
        unfold Entry.answer
        rw [if_pos (Entry.awaits_iff.mp hawaits).1]
      rw [hwaits] at hrequest
      exact congrArg (fun r => r.markCompleted d.cycle) hrequest

end Matches

/-! ### Slots -/

/-- The slots and the waiting slots of books whose completions so far are `reports`. -/
structure AnsweredInTurn (queues : Vector (List Request) channels) (d : Driver)
    (reports : List (Completion × Nat)) : Prop where
  /-- Every completion has a request that it answers. -/
  answered : ∀ key : Completion,
    (key.cyclesIn reports).length ≤ (d.slots.toList.filter fun r => r.key = key).length
  /-- The requests of a key bear the completions of the key one after the other; those that are left
  bear none. -/
  stamps : ∀ (key : Completion) (i : Nat) (r : Request),
    (d.slots.toList.filter fun r => r.key = key)[i]? = some r →
      ∃ k, ∃ q ∈ queues.get k, r = q.withStamps r.issueCycle (key.cyclesIn reports)[i]?
  /-- Those that are left wait, in their order. -/
  waiting : ∀ key : Completion, d.index.waiting key =
    (d.slots.toList.findIdxs fun r => r.key = key).drop (key.cyclesIn reports).length

end Driver

/-- Where the items of one kind come before those of another, these are what is left without the
former. -/
theorem findIdxs_eq_drop {α : Type} {p q : α → Bool} {l first later : List α} (start : Nat)
    (hqp : ∀ x ∈ l, q x = true → p x = true) (hsplit : l.filter p = first ++ later)
    (hfirst : ∀ x ∈ first, q x = false) (hlater : ∀ x ∈ later, q x = true) :
    l.findIdxs q start = (l.findIdxs p start).drop first.length := by
  induction l generalizing first later start with
  | nil => simp
  | cons x rest ih =>
    have hrest : ∀ y ∈ rest, q y = true → p y = true := fun y hy => hqp y (List.mem_cons_of_mem _ hy)
    rw [List.findIdxs_cons, List.findIdxs_cons]
    by_cases hp : p x = true
    · rw [List.filter_cons, if_pos hp] at hsplit
      rw [if_pos hp]
      cases first with
      | nil =>
        -- `x` and all that follow are of the later kind
        obtain rfl : x :: rest.filter p = later := hsplit
        have hx : q x = true := hlater x List.mem_cons_self
        have hlast := ih (start + 1) hrest (List.nil_append _).symm hfirst
          fun y hy => hlater y (List.mem_cons_of_mem _ hy)
        rw [if_pos hx, hlast]
        rfl
      | cons y first =>
        obtain ⟨rfl, hnext⟩ := List.cons.inj hsplit
        have hx : q x = false := hfirst x List.mem_cons_self
        have hlast := ih (start + 1) hrest hnext
          (fun z hz => hfirst z (List.mem_cons_of_mem _ hz)) hlater
        rw [if_neg (by simp [hx]), hlast]
        rfl
    · have hq : ¬ q x = true := fun hq => hp (hqp x List.mem_cons_self hq)
      rw [List.filter_cons, if_neg hp] at hsplit
      rw [if_neg hp, if_neg hq]
      exact ih (start + 1) hrest hsplit hfirst hlater

namespace Driver.Matches

variable {queues : Vector (List Request) channels} {old ledger : Ledger} {d : Driver}
  {reports : List (Completion × Nat)}

theorem answeredInTurn (h : d.Matches queues old ledger reports) : d.AnsweredInTurn queues reports := by
  have hslots : ∀ key : Completion, (d.slots.toList.filter fun r => r.key = key) =
      (ledger.filter fun e => e.request.key = key).map Entry.request := fun key => by
    rw [h.records.slots, List.filter_map]
    rfl
  refine ⟨fun key => ?_, fun key i r hr => ?_, fun key => ?_⟩
  · obtain ⟨answered, waiting, hturns⟩ := h.answered key
    rw [hslots, hturns.split, ← hturns.length_eq, List.length_map, List.length_append]
    exact Nat.le_add_right ..
  · obtain ⟨answered, waiting, hturns⟩ := h.answered key
    rw [hslots, List.getElem?_map] at hr
    obtain ⟨e, he, rfl⟩ := Option.map_eq_some_iff.mp hr
    obtain ⟨q, hq, hrequest⟩ := h.stamped e (List.mem_of_mem_filter (List.mem_of_getElem? he))
    exact ⟨e.channel, q, hq, hturns.answer_eq he ▸ hrequest⟩
  · obtain ⟨answered, waiting, hturns⟩ := h.answered key
    rw [h.records.waiting, h.records.slots, List.findIdxs_map, ← hturns.length_eq]
    refine findIdxs_eq_drop 0 (fun e _ hawaits => ?_) hturns.split hturns.not_awaits hturns.awaits
    exact decide_eq_true (Entry.awaits_iff.mp hawaits).2

/-- A slot that was answered before is as it was then. -/
theorem slot_kept {d' : Driver} {reports' : List (Completion × Nat)}
    (h : d.Matches queues old ledger reports) {ledger' : Ledger}
    (h' : d'.Matches queues ledger ledger' reports') {i : Nat} {r : Request}
    (hr : d.slots[i]? = some r) (hdone : i ∉ d.index.waiting r.key) : d'.slots[i]? = some r := by
  rw [← Array.getElem?_toList, h.records.slots, List.getElem?_map] at hr
  obtain ⟨e, he, rfl⟩ := Option.map_eq_some_iff.mp hr
  have hwaits : e.waits = false := by
    by_contra hwaits
    obtain ⟨hi, hget⟩ := List.getElem?_eq_some_iff.mp he
    refine hdone ?_
    rw [h.records.waiting]
    refine (List.mem_findIdxs_iff_pos_getElem hi).mpr ?_
    rw [hget]
    exact Entry.awaits_iff.mpr ⟨by simpa using hwaits, rfl⟩
  rw [← Array.getElem?_toList, h'.records.slots, List.getElem?_map, h'.keeps i e he hwaits]
  rfl

end Driver.Matches

namespace Session

variable {σ ω : Type} [MemorySystem σ] [Observer ω] {queues : Vector (List Request) channels}
  {old : Ledger} {left : List Completion} {k : Fin channels} {s t : Session (Recorded σ) ω}

/-- A replay over a memory with a record, of which the completions `left` have been reported in this
cycle and are still to be matched. -/
structure Matching (queues : Vector (List Request) channels) (old : Ledger)
    (left : List Completion) (s : Session (Recorded σ) ω) : Prop where
  ticks : s.memory.ticks = s.driver.cycle
  mailbox : s.driver.mailbox = []
  books : ∃ ledger reports, s.driver.Matches queues old ledger reports ∧
    s.memory.reports = reports ++ left.map fun key => (key, s.driver.cycle)

namespace Matching

omit [MemorySystem σ] [Observer ω] in
theorem opening (queues : Vector (List Request) channels) (memory : σ) (observer : ω) :
    (Session.opening queues (Recorded.mk memory []) observer).Matching queues [] [] where
  ticks := rfl
  mailbox := rfl
  books := ⟨[], [], .opening queues, rfl⟩

theorem offer (h : s.Matching queues old []) (hoffer : s.offer k = .ok t) :
    t.Matching queues old [] := by
  obtain ⟨ledger, reports, hbooks, hreports⟩ := h.books
  obtain ⟨hticks', hreports'⟩ := offer_recorded hoffer
  rw [List.map_nil, List.append_nil, ← hreports'] at hreports
  rcases offer_eq_ok hoffer with ⟨-, rfl⟩ | ⟨_, _, _, -, -, rfl⟩ | ⟨head, rest, _, _, hq, -, -, hd, -⟩
  · exact h
  · exact ⟨hticks'.trans h.ticks, h.mailbox, ledger, reports, hbooks, by simpa using hreports⟩
  · refine ⟨?_, ?_, _, reports, hd ▸ hbooks.issue hq, by simpa using hreports⟩
    · rw [hticks', hd]
      exact h.ticks
    · rw [hd]
      exact h.mailbox

omit [MemorySystem σ] in
theorem settle {key : Completion} (h : s.Matching queues old (key :: left))
    (hsettle : s.settle key = .ok t) : t.Matching queues old left := by
  obtain ⟨hmatch, hd, hm⟩ := settle_eq_ok hsettle
  obtain ⟨ledger, reports, hbooks, hreports⟩ := h.books
  obtain ⟨-, -, hcycle, hmailbox⟩ := s.driver.match?_frame key
  refine ⟨?_, ?_, _, _, hd ▸ hbooks.settle hmatch, ?_⟩
  · rw [hd, hm, hcycle]
    exact h.ticks
  · rw [hd, hmailbox]
    exact h.mailbox
  · rw [hd, hm, hcycle, hreports, List.append_assoc]
    rfl

/-- **A step matches what the memory reports in it**, and nothing else. -/
theorem step (h : s.Matching queues old []) (hstep : s.step = .ok t) : t.Matching queues old [] := by
  obtain ⟨u, v, w, hd, hm, hoffers, hadvance, hdeliver⟩ := step_eq_ok hstep
  have hu : u.Matching queues old [] := ⟨by rw [hd, hm]; exact h.ticks, by rw [hd]; exact h.mailbox,
    by rw [hd, hm]; exact h.books⟩
  have hv : v.Matching queues old [] := offers_invariant
    (P := fun _ (v : Session (Recorded σ) ω) => v.Matching queues old [])
    (fun k rest x y hx hoffer => hx.offer hoffer) _ hu hoffers
  obtain ⟨_, events, htick, -, rfl⟩ := advance_eq_ok hadvance
  obtain ⟨memory, -, rfl⟩ := Recorded.tick_eq_some htick
  obtain ⟨x, hxd, hxm, hsettles⟩ := deliver_eq_ok hdeliver
  dsimp only at hxd hxm hsettles
  rw [hv.mailbox, List.nil_append] at hsettles
  -- the completions of the tick are all that is to be matched
  have hx : x.Matching queues old events := by
    obtain ⟨ledger, reports, hbooks, hreports⟩ := hv.books
    refine ⟨?_, by rw [hxd], ledger, reports, ?_, ?_⟩
    · rw [hxd, hxm, Recorded.ticks_note, hv.ticks]
      rfl
    · rw [hxd]
      exact (hbooks.clock _ _).clock _ _
    · rw [hxd, hxm, Recorded.reports_note, hreports, hv.ticks, List.map_nil, List.append_nil]
      rfl
  exact settles_invariant (P := fun left (t : Session (Recorded σ) ω) => t.Matching queues old left)
    (fun key left y z hy hsettle => hy.settle hsettle) events hx hsettles

theorem steps (h : s.Matching queues old []) {n : Nat} (hsteps : Session.steps n s = .ok t) :
    t.Matching queues old [] :=
  steps_invariant (P := fun t => t.Matching queues old []) (fun _ _ hs hstep => hs.step hstep) h
    hsteps

/-- A slot that was answered before some steps is as it was then. -/
theorem slot_kept (h : s.Matching queues old []) {n : Nat} (hsteps : Session.steps n s = .ok t)
    {i : Nat} {r : Request} (hr : s.driver.slots[i]? = some r)
    (hdone : i ∉ s.driver.index.waiting r.key) : t.driver.slots[i]? = some r := by
  obtain ⟨ledger, reports, hbooks, hreports⟩ := h.books
  have hsince : s.Matching queues ledger [] := ⟨h.ticks, h.mailbox, ledger, reports, hbooks.since,
    hreports⟩
  obtain ⟨_, _, hlater, -⟩ := (hsince.steps hsteps).books
  exact hbooks.slot_kept hlater hr hdone

end Matching

/-- Steps over a memory are those over the same memory with a record. -/
theorem steps_recorded {memory : σ} {observer : ω} {n : Nat} {t : Session σ ω}
    (h : steps n (opening queues memory observer) = .ok t) :
    ∃ final : Session (Recorded σ) ω,
      steps n (opening queues (Recorded.mk memory []) observer) = .ok final ∧
        final.mapMemory Recorded.memory = t :=
  exists_recorded h

end Session

/-- **First in, first out.** Let any number of steps over any memory go through. Over the same memory
with a record the steps are the same, and the record tells what the memory has reported: for every
key, the first completion has answered the first request with this key that was admitted, and so
on, each with the cycle after its tick. And what was answered at some moment on the way is still as
it was then. -/
theorem first_in_first_out {σ ω : Type} [MemorySystem σ] [Observer ω]
    (queues : Vector (List Request) channels) (memory : σ) (observer : ω) {n : Nat}
    {t : Session σ ω} (h : Session.steps n (Session.opening queues memory observer) = .ok t) :
    (∃ final : Session (Recorded σ) ω,
      Session.steps n (Session.opening queues (Recorded.mk memory []) observer) = .ok final ∧
        final.mapMemory Recorded.memory = t ∧ final.memory.ticks = t.driver.cycle ∧
        t.driver.AnsweredInTurn queues final.memory.reports) ∧
      ∀ m ≤ n, ∃ u, Session.steps m (Session.opening queues memory observer) = .ok u ∧
        ∀ (i : Nat) (r : Request), u.driver.slots[i]? = some r →
          i ∉ u.driver.index.waiting r.key → t.driver.slots[i]? = some r := by
  obtain ⟨final, hfinal, rfl⟩ := Session.steps_recorded h
  have hopening := Session.Matching.opening queues memory observer
  constructor
  · have hmatching := hopening.steps hfinal
    obtain ⟨ledger, reports, hbooks, hreports⟩ := hmatching.books
    rw [List.map_nil, List.append_nil] at hreports
    exact ⟨final, hfinal, rfl, hmatching.ticks, hreports ▸ hbooks.answeredInTurn⟩
  · intro m hm
    obtain ⟨j, rfl⟩ := Nat.exists_eq_add_of_le hm
    obtain ⟨u, hu, hlater⟩ := Session.steps_split hfinal
    refine ⟨u.mapMemory Recorded.memory, ?_, fun i r hr hdone =>
      (hopening.steps hu).slot_kept hlater hr hdone⟩
    have hsame := Session.steps_mapMemory (Recorded.projects σ) m
      (Session.opening queues (Recorded.mk memory []) observer)
    rw [hu] at hsame
    exact hsame.symm

theorem steps_oddCycles (bus : Bus) :
    (Session.steps 6 (Session.opening threeRequests
      (Recorded.mk (MemorySystem.attach (oddCycles bus)) []) Silence.mk)).1.toOption = some () ∧
    (Session.steps 6 (Session.opening threeRequests
      (Recorded.mk (MemorySystem.attach (oddCycles bus)) []) Silence.mk)).2.memory.reports =
        [(⟨64, .write⟩, 2), (⟨0, .read⟩, 4), (⟨0, .read⟩, 6)] := by
  cbv

/-- The first of two completions of one read answers the first of the two requests. -/
theorem first_in_first_out_oddCycles : ∃ t,
    Session.steps 6 (Session.opening threeRequests (MemorySystem.attach (oddCycles {}))
      Silence.mk) = .ok t ∧
    t.driver.AnsweredInTurn threeRequests [(⟨64, .write⟩, 2), (⟨0, .read⟩, 4), (⟨0, .read⟩, 6)] ∧
    ∀ m ≤ 6, ∃ u, Session.steps m (Session.opening threeRequests
        (MemorySystem.attach (oddCycles {})) Silence.mk) = .ok u ∧
      ∀ (i : Nat) (r : Request), u.driver.slots[i]? = some r →
        i ∉ u.driver.index.waiting r.key → t.driver.slots[i]? = some r := by
  obtain ⟨hok, hreports⟩ := steps_oddCycles {}
  have hsame := Session.steps_mapMemory (Recorded.projects ScriptedMemory) 6
    (Session.opening threeRequests (Recorded.mk (MemorySystem.attach (oddCycles {})) []) Silence.mk)
  rcases hrun : Session.steps 6 (Session.opening threeRequests
    (Recorded.mk (MemorySystem.attach (oddCycles {})) []) Silence.mk) with ⟨_ | _, final⟩
  · rw [hrun] at hok
    cases hok
  · rw [hrun] at hsame hreports
    have hsteps : Session.steps 6 (Session.opening threeRequests
        (MemorySystem.attach (oddCycles {})) Silence.mk) =
          .ok (final.mapMemory Recorded.memory) := hsame.symm
    obtain ⟨⟨final', hfinal, -, -, hturn⟩, hkept⟩ :=
      first_in_first_out threeRequests (MemorySystem.attach (oddCycles {})) Silence.mk hsteps
    obtain rfl : final' = final := Progress.ok_inj (hfinal.symm.trans hrun)
    rw [show final'.memory.reports = _ from hreports] at hturn
    exact ⟨_, hsteps, hturn, hkept⟩

end MemoryReplay
