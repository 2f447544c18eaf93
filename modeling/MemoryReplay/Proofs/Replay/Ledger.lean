import Mathlib.Data.List.Count
import MemoryReplay.Proofs.Replay.Waiting
import MemoryReplay.Proofs.Tally
import MemoryReplay.Replay.Driver

/-!
# The books as a ledger

A driver spreads what it knows of an admitted request over the slots, the pending index and
several counters. A ledger keeps it in one place: one entry for each admission, with the channel
it came from and whether its completion is still to come.

- `Ledger.settle`: the oldest entry that awaits a completion is stamped.
- `Driver.Records d ledger`: the books say what the ledger says. Slots, index and counters are
  functions of the ledger, so an invariant of the books is an invariant of the ledger.
- `Records.issue`, `Records.match?_of_awaits`, `Records.match?_of_not_awaits`: the operations of
  the books are those of the ledger.
- `Driver.Conserves queues d ledger`: entries and waiting requests together are the queues that
  the books were opened with.
-/

namespace MemoryReplay

/-- The request without what a replay writes into it. -/
def Request.unstamped (r : Request) : Request := .fresh r.address r.direction

@[simp] theorem Request.unstamped_markIssued (r : Request) (cycle : Nat) :
    (r.markIssued cycle).unstamped = r.unstamped := rfl

@[simp] theorem Request.unstamped_markCompleted (r : Request) (cycle : Nat) :
    (r.markCompleted cycle).unstamped = r.unstamped := rfl

@[simp] theorem Request.key_markIssued (r : Request) (cycle : Nat) :
    (r.markIssued cycle).key = r.key := rfl

@[simp] theorem Request.key_markCompleted (r : Request) (cycle : Nat) :
    (r.markCompleted cycle).key = r.key := rfl

/-- A request admitted. -/
structure Entry where
  request : Request
  /-- The channel whose queue it came from. -/
  channel : Fin channels
  /-- Whether its completion is still to come. -/
  waits : Bool := true

namespace Entry

/-- Whether a completion may mean this request. -/
def awaits (key : Completion) (e : Entry) : Bool := e.waits && e.request.key == key

/-- The entry once its completion has been seen. -/
def settle (cycle : Nat) (e : Entry) : Entry :=
  { e with request := e.request.markCompleted cycle, waits := false }

theorem awaits_iff {key : Completion} {e : Entry} :
    e.awaits key = true ↔ e.waits = true ∧ e.request.key = key := by
  simp [awaits]

@[simp] theorem awaits_settle (key : Completion) (cycle : Nat) (e : Entry) :
    (e.settle cycle).awaits key = false := by simp [awaits, settle]

/-- An entry awaits one completion at most. -/
theorem awaits_other {key key' : Completion} {e : Entry} (h : e.awaits key = true)
    (hne : key ≠ key') : e.awaits key' = false := by
  have hkey := (awaits_iff.mp h).2
  simp [awaits, hkey, hne]

end Entry

/-- The admissions so far, in their order. -/
abbrev Ledger := List Entry

namespace Ledger

/-- Stamps the oldest entry that awaits a completion. -/
def settle (key : Completion) (cycle : Nat) : Ledger → Ledger
  | [] => []
  | e :: rest => if e.awaits key then e.settle cycle :: rest else e :: settle key cycle rest

theorem settle_cons (key : Completion) (cycle : Nat) (e : Entry) (rest : Ledger) :
    settle key cycle (e :: rest) =
      if e.awaits key then e.settle cycle :: rest else e :: settle key cycle rest := rfl

/-- The entries of a channel. -/
def ofChannel (ledger : Ledger) (channel : Fin channels) : Ledger :=
  ledger.filter (·.channel = channel)

theorem awaited_or (ledger : Ledger) (key : Completion) :
    (∃ e ∈ ledger, e.awaits key = true) ∨ ∀ e ∈ ledger, e.awaits key = false := by
  by_cases h : ∃ e ∈ ledger, e.awaits key = true
  · exact .inl h
  · refine .inr fun e he => ?_
    by_contra hne
    exact h ⟨e, he, by simpa using hne⟩

theorem settle_eq_of_split {key : Completion} {cycle : Nat} {older newer : Ledger} {e : Entry}
    (holder : ∀ x ∈ older, x.awaits key = false) (he : e.awaits key = true) :
    settle key cycle (older ++ e :: newer) = older ++ e.settle cycle :: newer := by
  induction older with
  | nil => simp [settle, he]
  | cons x older ih =>
    have hx : x.awaits key = false := holder x List.mem_cons_self
    have hrest := ih fun y hy => holder y (List.mem_cons_of_mem _ hy)
    simp [settle, hx, hrest]

/-- The oldest entry that awaits a completion splits the ledger. -/
theorem exists_split {ledger : Ledger} {key : Completion}
    (h : ∃ e ∈ ledger, e.awaits key = true) :
    ∃ older e newer, ledger = older ++ e :: newer ∧ (∀ x ∈ older, x.awaits key = false) ∧
      e.awaits key = true := by
  induction ledger with
  | nil =>
    obtain ⟨e, he, -⟩ := h
    exact absurd he List.not_mem_nil
  | cons x rest ih =>
    by_cases hx : x.awaits key = true
    · exact ⟨[], x, rest, rfl, by simp, hx⟩
    · obtain ⟨e, he, haw⟩ := h
      have hrest : ∃ e ∈ rest, e.awaits key = true := by
        rcases List.mem_cons.mp he with rfl | he
        · exact absurd haw hx
        · exact ⟨e, he, haw⟩
      obtain ⟨older, e, newer, rfl, holder, he⟩ := ih hrest
      refine ⟨x :: older, e, newer, rfl, ?_, he⟩
      intro y hy
      rcases List.mem_cons.mp hy with rfl | hy
      · simpa using hx
      · exact holder y hy

/-- What a settlement leaves alone in an entry, it leaves alone in the ledger. -/
theorem map_settle {α : Type} (f : Entry → α) (key : Completion) {cycle : Nat}
    (hf : ∀ e : Entry, f (e.settle cycle) = f e) (ledger : Ledger) :
    (settle key cycle ledger).map f = ledger.map f := by
  induction ledger with
  | nil => rfl
  | cons e rest ih =>
    unfold settle
    split
    · simp [hf]
    · simp [ih]

/-- So it does for the entries of a kind that a settlement leaves alone. -/
theorem map_filter_settle {α : Type} (p : Entry → Bool) (f : Entry → α) (key : Completion)
    {cycle : Nat} (hp : ∀ e : Entry, p (e.settle cycle) = p e)
    (hf : ∀ e : Entry, f (e.settle cycle) = f e) (ledger : Ledger) :
    ((settle key cycle ledger).filter p).map f = (ledger.filter p).map f := by
  induction ledger with
  | nil => rfl
  | cons e rest ih =>
    unfold settle
    split
    · simp only [List.filter_cons, hp]
      split <;> simp [hf]
    · simp only [List.filter_cons]
      split <;> simp [ih]

/-- A settlement is one of the entries of a kind, or passes by all of them. -/
theorem filter_settle (p : Entry → Bool) {key : Completion} {cycle : Nat} {b : Bool}
    (hp : ∀ e : Entry, p (e.settle cycle) = p e) {ledger : Ledger}
    (hkey : ∀ e ∈ ledger, e.awaits key = true → p e = b) :
    (settle key cycle ledger).filter p =
      if b then settle key cycle (ledger.filter p) else ledger.filter p := by
  induction ledger with
  | nil => simp [settle]
  | cons e rest ih =>
    have hrest := ih fun x hx => hkey x (List.mem_cons_of_mem _ hx)
    rw [settle_cons]
    by_cases he : e.awaits key = true
    · have hb := hkey e List.mem_cons_self he
      cases b <;> simp [settle_cons, he, hp, hb]
    · rw [if_neg he, List.filter_cons, hrest]
      cases b <;> cases hpe : p e <;> simp [settle_cons, he, hpe]

@[simp] theorem length_settle (key : Completion) (cycle : Nat) (ledger : Ledger) :
    (settle key cycle ledger).length = ledger.length := by
  simpa using congrArg List.length (map_settle (fun _ => ()) key (fun _ => rfl) ledger)

/-- An entry of a settled ledger is as it was, or was just stamped. -/
theorem mem_settle {key : Completion} {cycle : Nat} {ledger : Ledger} {e : Entry}
    (h : e ∈ settle key cycle ledger) :
    e ∈ ledger ∨ ∃ x ∈ ledger, x.awaits key = true ∧ e = x.settle cycle := by
  induction ledger with
  | nil => exact .inl h
  | cons x rest ih =>
    unfold settle at h
    split at h
    · next hx =>
      rcases List.mem_cons.mp h with rfl | h
      · exact .inr ⟨x, List.mem_cons_self, hx, rfl⟩
      · exact .inl (List.mem_cons_of_mem _ h)
    · rcases List.mem_cons.mp h with rfl | h
      · exact .inl List.mem_cons_self
      · rcases ih h with h | ⟨y, hy, haw, rfl⟩
        · exact .inl (List.mem_cons_of_mem _ h)
        · exact .inr ⟨y, List.mem_cons_of_mem _ hy, haw, rfl⟩

/-- A settlement that finds an entry leaves its stamp somewhere. -/
theorem exists_settled {key : Completion} (cycle : Nat) {ledger : Ledger}
    (h : ∃ e ∈ ledger, e.awaits key = true) :
    ∃ x ∈ ledger, x.awaits key = true ∧ x.settle cycle ∈ settle key cycle ledger := by
  obtain ⟨older, e, newer, rfl, holder, he⟩ := exists_split h
  refine ⟨e, by simp, he, ?_⟩
  rw [settle_eq_of_split holder he]
  simp

/-- A settlement answers one entry that awaited the completion. -/
theorem countP_awaits_settle {key : Completion} (cycle : Nat) {ledger : Ledger}
    (h : ∃ e ∈ ledger, e.awaits key = true) (key' : Completion) :
    ledger.countP (Entry.awaits key') =
      (settle key cycle ledger).countP (Entry.awaits key') + if key = key' then 1 else 0 := by
  obtain ⟨older, e, newer, rfl, holder, he⟩ := exists_split h
  rw [settle_eq_of_split holder he]
  by_cases hk : key = key'
  · subst hk
    simp [he]
    omega
  · simp [Entry.awaits_other he hk, hk]

/-- Settles several completions in the same cycle. -/
def settleAll (cycle : Nat) (keys : List Completion) (ledger : Ledger) : Ledger :=
  keys.foldl (fun ledger key => ledger.settle key cycle) ledger

/-- What settlements leave alone in an entry, they leave alone in the ledger. -/
theorem map_settleAll {α : Type} (f : Entry → α) {cycle : Nat}
    (hf : ∀ e : Entry, f (e.settle cycle) = f e) (keys : List Completion) (ledger : Ledger) :
    (ledger.settleAll cycle keys).map f = ledger.map f := by
  induction keys generalizing ledger with
  | nil => rfl
  | cons key rest ih => exact (ih _).trans (map_settle f key hf ledger)

@[simp] theorem length_settleAll (cycle : Nat) (keys : List Completion) (ledger : Ledger) :
    (ledger.settleAll cycle keys).length = ledger.length := by
  simpa using congrArg List.length (map_settleAll (fun _ => ()) (fun _ => rfl) keys ledger)

/-- So they leave alone the number of entries of a kind. -/
theorem countP_settleAll (p : Entry → Bool) {cycle : Nat}
    (hp : ∀ e : Entry, p (e.settle cycle) = p e) (keys : List Completion) (ledger : Ledger) :
    (ledger.settleAll cycle keys).countP p = ledger.countP p := by
  have hmap := congrArg (List.countP id) (map_settleAll p hp keys ledger)
  rwa [List.countP_map, List.countP_map] at hmap

/-- Completions of which those for `k` answer entries of channel `k`, and those alone. -/
theorem ofChannel_settleAll (channelOf : Completion → Fin channels) (k : Fin channels)
    (cycle : Nat) (keys : List Completion) {ledger : Ledger}
    (hrouted : ∀ e ∈ ledger, channelOf e.request.key = e.channel) :
    (ledger.settleAll cycle keys).ofChannel k =
      (ledger.ofChannel k).settleAll cycle (keys.filter fun key => channelOf key = k) := by
  induction keys generalizing ledger with
  | nil => rfl
  | cons key rest ih =>
    -- an entry that awaits the completion is of the channel that the completion is for
    have hkey : ∀ e ∈ ledger, e.awaits key = true →
        decide (e.channel = k) = decide (channelOf key = k) := by
      intro e he haw
      rw [← hrouted e he, (Entry.awaits_iff.mp haw).2]
    -- a stamp changes neither the channel nor the key of an entry
    have hnext : ∀ e ∈ ledger.settle key cycle, channelOf e.request.key = e.channel := by
      intro e he
      rcases mem_settle he with he | ⟨x, hx, -, rfl⟩
      · exact hrouted e he
      · exact hrouted x hx
    have hsettle : (ledger.settle key cycle).ofChannel k = if channelOf key = k then
        (ledger.ofChannel k).settle key cycle else ledger.ofChannel k := by
      unfold ofChannel
      rw [filter_settle _ (fun _ => rfl) hkey]
      simp only [decide_eq_true_eq]
    show ((ledger.settle key cycle).settleAll cycle rest).ofChannel k = _
    rw [ih hnext, hsettle, List.filter_cons]
    by_cases hk : channelOf key = k <;> simp [hk, settleAll]

theorem countP_waits_add (ledger : Ledger) :
    ledger.countP (fun e => !e.waits) + ledger.countP Entry.waits = ledger.length := by
  have h := List.length_eq_countP_add_countP Entry.waits (l := ledger)
  have hnot : ledger.countP (fun e => decide (¬ e.waits = true)) = ledger.countP (fun e => !e.waits) :=
    List.countP_congr fun e _ => by simp
  omega

end Ledger

namespace Driver

@[simp] theorem size_slots_issue (d : Driver) (channel : Fin channels) (head : Request)
    (rest : List Request) : (d.issue channel head rest).slots.size = d.slots.size + 1 :=
  Array.size_push _

/-- The books say what the ledger says. -/
structure Records (d : Driver) (ledger : Ledger) : Prop where
  slots : d.slots.toList = ledger.map Entry.request
  waiting : ∀ key, d.index.waiting key = ledger.findIdxs (Entry.awaits key)
  size : d.index.size = ledger.countP Entry.waits
  completed : d.completed = ledger.countP (fun e => !e.waits)
  admitted : ∀ k, d.admitted.get k = ledger.countP (fun e => decide (e.channel = k))

/-- What the ledger has taken from a channel and what still waits there are the queue that the
channel began with. -/
structure Conserves (queues : Vector (List Request) channels) (d : Driver) (ledger : Ledger) :
    Prop where
  origin : ∀ k, (ledger.ofChannel k).map (·.request.unstamped)
    ++ (d.queues.get k).map Request.unstamped = (queues.get k).map Request.unstamped
  total : d.total = ∑ k, (queues.get k).length

/-! ### Opening the books -/

theorem ofQueues_records (queues : Vector (List Request) channels) :
    (ofQueues queues).Records [] where
  slots := rfl
  waiting key := PendingIndex.waiting_empty key
  size := rfl
  completed := rfl
  admitted k := Tally.get_replicate 0 k

theorem ofQueues_conserves (queues : Vector (List Request) channels) :
    (ofQueues queues).Conserves queues [] where
  origin _ := rfl
  total := Tally.length_flatten_toList queues

namespace Records

variable {d : Driver} {ledger : Ledger}

theorem size_slots (h : d.Records ledger) : d.slots.size = ledger.length := by
  simpa using congrArg List.length h.slots

theorem completed_add_size (h : d.Records ledger) :
    d.completed + d.index.size = d.slots.size := by
  rw [h.completed, h.size, h.size_slots, ledger.countP_waits_add]

/-- Looking at the clock or the mailbox changes no entry. -/
theorem clock (h : d.Records ledger) (cycle : Nat) (mailbox : List Completion) :
    ({ d with cycle, mailbox } : Driver).Records ledger :=
  ⟨h.slots, h.waiting, h.size, h.completed, h.admitted⟩

/-! ### Admission -/

theorem issue (h : d.Records ledger) (channel : Fin channels) (head : Request)
    (rest : List Request) :
    (d.issue channel head rest).Records (ledger ++ [⟨head.markIssued d.cycle, channel, true⟩]) where
  slots := by simp [Driver.issue, h.slots]
  waiting key := by
    show (d.index.insert _ d.slots.size).waiting key = _
    rw [PendingIndex.waiting_insert, List.findIdxs_append, h.waiting, h.size_slots]
    by_cases hk : head.key = key <;> simp [hk, Entry.awaits]
  size := by
    show d.index.size + 1 = _
    simp [h.size]
  completed := by
    show d.completed = _
    simp [h.completed]
  admitted k := by
    show (d.admitted.set channel (d.admitted.get channel + 1)).get k = _
    rw [Tally.get_set, List.countP_append, h.admitted, h.admitted]
    by_cases hc : channel = k
    · subst hc
      simp
    · simp [hc]

/-! ### Completion -/

/-- No slot waits for a completion that no entry awaits. -/
theorem waiting_eq_nil (h : d.Records ledger) {key : Completion}
    (hnone : ∀ e ∈ ledger, e.awaits key = false) : d.index.waiting key = [] := by
  rw [h.waiting, List.findIdxs_eq_nil_iff]
  exact hnone

/-- A completion that no entry awaits changes nothing. -/
theorem match?_of_not_awaits (h : d.Records ledger) {key : Completion}
    (hnone : ∀ e ∈ ledger, e.awaits key = false) : d.match? key = (none, d) := by
  unfold Driver.match?
  rw [PendingIndex.complete_of_nil (h.waiting_eq_nil hnone)]

/-- The slot that has waited longest is that of the oldest entry. -/
theorem waiting_of_split {older newer : Ledger} {e : Entry}
    (h : d.Records (older ++ e :: newer)) {key : Completion}
    (holder : ∀ x ∈ older, x.awaits key = false) (he : e.awaits key = true) :
    d.index.waiting key = older.length :: newer.findIdxs (Entry.awaits key) (older.length + 1) := by
  rw [h.waiting, List.findIdxs_append, List.findIdxs_eq_nil_iff.mpr holder]
  simp [he]

/-- A completion that some entry awaits stamps the oldest of them. -/
theorem match?_of_split {older newer : Ledger} {e : Entry}
    (h : d.Records (older ++ e :: newer)) {key : Completion}
    (holder : ∀ x ∈ older, x.awaits key = false) (he : e.awaits key = true) :
    d.match? key = (some (e.request.markCompleted d.cycle),
      { d with
        slots := d.slots.setIfInBounds older.length (e.request.markCompleted d.cycle)
        index := (d.index.complete key).2
        completed := d.completed + 1 }) := by
  have hslot : d.slots[older.length]? = some e.request := by
    rw [← Array.getElem?_toList, h.slots]
    simp
  have hfst : (d.index.complete key).1 = some older.length := by
    rw [PendingIndex.complete_fst, h.waiting_of_split holder he]
    rfl
  unfold Driver.match?
  rw [show d.index.complete key = ((d.index.complete key).1, (d.index.complete key).2) from rfl, hfst]
  simp [hslot]

theorem settle_of_split {older newer : Ledger} {e : Entry}
    (h : d.Records (older ++ e :: newer)) {key : Completion}
    (holder : ∀ x ∈ older, x.awaits key = false) (he : e.awaits key = true) :
    (d.match? key).2.Records (older ++ e.settle d.cycle :: newer) := by
  -- the entry moves from the waiting to the completed; everything else stays in its place
  have hwaits : e.waits = true := (Entry.awaits_iff.mp he).1
  have hwaiting := h.waiting_of_split holder he
  rw [h.match?_of_split holder he]
  refine ⟨?_, fun key' => ?_, ?_, ?_, fun k => ?_⟩
  · -- slots
    show (d.slots.setIfInBounds _ _).toList = _
    rw [Array.toList_setIfInBounds, h.slots]
    simp [Entry.settle]
  · -- the queue that was asked loses its head, and no other queue held that slot
    show (d.index.complete key).2.waiting key' = _
    rw [PendingIndex.waiting_complete]
    by_cases hk : key = key'
    · subst hk
      rw [if_pos rfl, hwaiting, List.findIdxs_append, List.findIdxs_eq_nil_iff.mpr holder]
      simp
    · rw [if_neg hk, h.waiting, List.findIdxs_append, List.findIdxs_append]
      simp [Entry.awaits_other he hk]
  · -- size
    show (d.index.complete key).2.size = _
    rw [PendingIndex.size_complete (by simp [hwaiting]), h.size]
    simp [Entry.settle, hwaits]
  · -- completed
    show d.completed + 1 = _
    rw [h.completed]
    simp [Entry.settle, hwaits]
    omega
  · -- admitted
    show d.admitted.get k = _
    rw [h.admitted]
    simp [Entry.settle, List.countP_append, List.countP_cons]

/-- A completion that some entry awaits is found, and the books follow the ledger. -/
theorem match?_of_awaits (h : d.Records ledger) {key : Completion}
    (hsome : ∃ e ∈ ledger, e.awaits key = true) :
    (∃ r, (d.match? key).1 = some r) ∧ (d.match? key).2.Records (ledger.settle key d.cycle) := by
  obtain ⟨older, e, newer, rfl, holder, he⟩ := Ledger.exists_split hsome
  rw [Ledger.settle_eq_of_split holder he]
  refine ⟨⟨e.request.markCompleted d.cycle, ?_⟩, h.settle_of_split holder he⟩
  rw [h.match?_of_split holder he]

end Records

/-- A completion changes only the slots, the index and the number of completions. -/
theorem match?_frame (d : Driver) (key : Completion) :
    (d.match? key).2.queues = d.queues ∧ (d.match? key).2.total = d.total ∧
      (d.match? key).2.cycle = d.cycle ∧ (d.match? key).2.mailbox = d.mailbox := by
  unfold match?
  dsimp only
  split
  · exact ⟨rfl, rfl, rfl, rfl⟩
  · split <;> exact ⟨rfl, rfl, rfl, rfl⟩

namespace Conserves

variable {queues : Vector (List Request) channels} {d : Driver} {ledger : Ledger}

/-- Entries and waiting requests are as many as the books were opened with. -/
theorem length_add (h : d.Conserves queues ledger) :
    ledger.length + ∑ k, (d.queues.get k).length = d.total := by
  have hk : ∀ k, ledger.countP (fun e => decide (e.channel = k)) + (d.queues.get k).length
      = (queues.get k).length := by
    intro k
    have hlen := congrArg List.length (h.origin k)
    rw [List.countP_eq_length_filter]
    simpa [Ledger.ofChannel] using hlen
  rw [h.total, ← Tally.sum_countP Entry.channel, ← Finset.sum_add_distrib]
  exact Finset.sum_congr rfl fun k _ => hk k

/-- An entry was a request of its channel's queue. -/
theorem mem_of_entry (h : d.Conserves queues ledger) {e : Entry} (he : e ∈ ledger) :
    ∃ r ∈ queues.get e.channel, r.unstamped = e.request.unstamped := by
  -- the entries of a channel come first in its origin
  have hmem : e ∈ ledger.ofChannel e.channel := List.mem_filter.mpr ⟨he, by simp⟩
  have horigin := List.mem_append_left ((d.queues.get e.channel).map Request.unstamped)
    (List.mem_map_of_mem (f := fun e : Entry => e.request.unstamped) hmem)
  rw [h.origin] at horigin
  exact List.mem_map.mp horigin

/-- A request that waits was a request of the queue in which it waits. -/
theorem mem_of_waiting (h : d.Conserves queues ledger) {k : Fin channels} {r : Request}
    (hr : r ∈ d.queues.get k) : ∃ q ∈ queues.get k, q.unstamped = r.unstamped := by
  have horigin := List.mem_append_right ((ledger.ofChannel k).map (·.request.unstamped))
    (List.mem_map_of_mem (f := Request.unstamped) hr)
  rw [h.origin] at horigin
  exact List.mem_map.mp horigin

/-- When as many requests have completed as there are, none waits in a queue or a slot. -/
theorem all_settled (h : d.Conserves queues ledger) (hrecords : d.Records ledger)
    (hdone : d.isDone = true) :
    (∀ k, d.queues.get k = []) ∧ ∀ e ∈ ledger, e.waits = false := by
  have hle : d.total ≤ d.completed := by simpa [isDone] using hdone
  have hlength := h.length_add
  have hcount := ledger.countP_waits_add
  rw [hrecords.completed] at hle
  -- the completions cannot be more than the entries, nor these more than the total
  have hqueues : ∑ k, (d.queues.get k).length = 0 := by omega
  have hwaits : ledger.countP Entry.waits = 0 := by omega
  constructor
  · intro k
    exact List.eq_nil_of_length_eq_zero (Finset.sum_eq_zero_iff.mp hqueues k (Finset.mem_univ k))
  · intro e he
    simpa using List.countP_eq_zero.mp hwaits e he

/-- When no request waits in a queue or a slot, as many have completed as there are. -/
theorem isDone_of_settled (h : d.Conserves queues ledger) (hrecords : d.Records ledger)
    (hempty : ∀ k, d.queues.get k = []) (hsettled : ∀ e ∈ ledger, e.waits = false) :
    d.isDone = true := by
  have hlength := h.length_add
  have hcount := ledger.countP_waits_add
  have hqueues : ∑ k, (d.queues.get k).length = 0 :=
    Finset.sum_eq_zero fun k _ => by rw [hempty k, List.length_nil]
  have hwaits : ledger.countP Entry.waits = 0 :=
    List.countP_eq_zero.mpr fun e he => by simp [hsettled e he]
  have hle : d.total ≤ d.completed := by
    rw [hrecords.completed]
    omega
  simpa [isDone] using hle

theorem clock (h : d.Conserves queues ledger) (cycle : Nat) (mailbox : List Completion) :
    ({ d with cycle, mailbox } : Driver).Conserves queues ledger :=
  ⟨h.origin, h.total⟩

theorem issue (h : d.Conserves queues ledger) {channel : Fin channels} {head : Request}
    {rest : List Request} (hq : d.queues.get channel = head :: rest) :
    (d.issue channel head rest).Conserves queues
      (ledger ++ [⟨head.markIssued d.cycle, channel, true⟩]) where
  origin k := by
    show _ ++ ((d.queues.set channel rest).get k).map _ = _
    rw [Tally.get_set, ← h.origin k]
    by_cases hc : channel = k
    · subst hc
      simp [Ledger.ofChannel, hq]
    · simp [Ledger.ofChannel, hc]
  total := h.total

theorem settle (h : d.Conserves queues ledger) (key : Completion) (cycle : Nat) :
    (d.match? key).2.Conserves queues (ledger.settle key cycle) where
  origin k := by
    rw [(d.match?_frame key).1, Ledger.ofChannel]
    rw [Ledger.map_filter_settle _ _ key (fun _ => rfl) (fun _ => rfl)]
    exact h.origin k
  total := (d.match?_frame key).2.1.trans h.total

end Conserves

end Driver

end MemoryReplay
