import MemoryReplay.Proofs.Memory.Queued

/-!
# What one channel sees of a memory

The channels share the clock, the schedule and the table of open rows, but no request of one
channel changes what a request of another one meets.

- `Service.AgreeOn k`: two latency models alike in the banks of channel `k`.
- `QueuedMemory.Mirrors k m m'`: the memory `m'` is to channel `k` what `m` is.
- `Mirrors.own`, `Mirrors.other`, `Mirrors.moved`: the operations of `m` and their counterparts.
-/

namespace MemoryReplay

namespace Service

variable {c : MemoryConfig} {s t : Service} {a : UInt64} {direction : Direction} {n : Nat}

/-- Two models alike, with the same open rows in the banks of channel `k`. -/
def AgreeOn (k : Fin channels) : Service → Service → Prop
  | fixed model, fixed model' => model' = model
  | rows model, rows model' => model'.timing = model.timing ∧ model'.fields = model.fields ∧
      ∀ a, half (model.fields.channel a) = k →
        model'.openRows[model.fields.slot a]? = model.openRows[model.fields.slot a]?
  | _, _ => False

namespace AgreeOn

variable {k : Fin channels} {s' : Service}

theorem refl (k : Fin channels) (s : Service) : AgreeOn k s s := by
  cases s with
  | fixed model => exact rfl
  | rows model => exact ⟨rfl, rfl, fun _ _ => rfl⟩

/-- An access of channel `k` has the same latency in both, and they agree afterwards. -/
theorem own (h : AgreeOn k s s') (hc : c.Usable) (hs : c.Serves s)
    (ha : half (c.fields.channel a) = k) (hacc : s.access a direction = some (n, t)) :
    ∃ t', s'.access a direction = some (n, t') ∧ AgreeOn k t t' := by
  match s, s' with
  | fixed model, fixed model' =>
    obtain rfl : model' = model := h
    obtain ⟨-, rfl⟩ := access_fixed hacc
    exact ⟨_, hacc, rfl⟩
  | rows model, rows model' =>
    obtain ⟨htiming, hfields, hrows⟩ := h
    obtain ⟨-, -, hmodel, -⟩ := hs
    have hinside : model.fields.Inside := hmodel ▸ hc.fields
    obtain ⟨opened, hopened, hlatency, rfl⟩ := access_rows hinside hacc
    let state := RowBuffer.classify (model.fields.row a) opened
    refine ⟨rows (model'.after a state), ?_, ?_, ?_, fun b hb => ?_⟩
    · show (model'.access a).map _ = _
      rw [RowBuffer.access_eq (hfields ▸ hinside), hfields, hrows a (hmodel ▸ ha), hopened, htiming]
      show Option.map _ (Option.map _ (model.timing.latency _)) = _
      rw [hlatency]
      rfl
    · rw [RowBuffer.timing_after, RowBuffer.timing_after, htiming]
    · rw [RowBuffer.fields_after, RowBuffer.fields_after, hfields]
    · rw [RowBuffer.fields_after] at hb ⊢
      rw [RowBuffer.openRows_after, RowBuffer.openRows_after, hfields, hrows b hb]

/-- An access of another channel is not noticed in channel `k`. -/
theorem other (h : AgreeOn k s s') (hc : c.Usable) (hs : c.Serves s)
    (ha : half (c.fields.channel a) ≠ k) (hacc : s.access a direction = some (n, t)) :
    AgreeOn k t s' := by
  match s, s' with
  | fixed model, fixed model' =>
    obtain ⟨-, rfl⟩ := access_fixed hacc
    exact h
  | rows model, rows model' =>
    obtain ⟨htiming, hfields, hrows⟩ := h
    obtain ⟨-, -, hmodel, -⟩ := hs
    obtain ⟨opened, -, -, rfl⟩ := access_rows (hmodel ▸ hc.fields) hacc
    refine ⟨?_, ?_, fun b hb => ?_⟩
    · rw [RowBuffer.timing_after, htiming]
    · rw [RowBuffer.fields_after, hfields]
    · rw [RowBuffer.fields_after] at hb ⊢
      -- a slot belongs to one pseudo-channel, so the two addresses have different slots
      have hslot : model.fields.slot a ≠ model.fields.slot b := by
        intro heq
        rw [← hb, ← model.fields.channel_eq_of_slot_eq heq, hmodel] at ha
        exact ha rfl
      rw [RowBuffer.openRows_after, if_neg hslot, hrows b hb]

end AgreeOn

end Service

namespace Pending

/-- Whether the request occupies a queue of channel `k`. -/
def isOf (k : Fin channels) (p : Pending) : Bool := half p.channel = k

/-- The request without its number in the order of admission, in which all channels share. -/
def unnumbered (p : Pending) : Pending := { p with order := 0 }

end Pending

namespace QueuedMemory

variable {c : MemoryConfig} {k : Fin channels} {m m' : QueuedMemory Service} {a : UInt64}
  {direction : Direction} {latency : Nat} {model model' : Service} {r : Pending} {l : List Pending}

/-! ### The schedule of one channel -/

/-- What does not look at the numbers chooses the same requests without them. -/
theorem map_filter_unnumbered (p : Pending → Bool)
    (hp : ∀ q : Pending, p q.unnumbered = p q) (l : List Pending) :
    (l.filter p).map Pending.unnumbered = (l.map Pending.unnumbered).filter p := by
  rw [List.filter_map]
  exact congrArg _ (List.filter_congr fun q _ => (hp q).symm)

/-- Without its number, a request is put between those due no later and those due later. -/
theorem map_schedule (h : l.Pairwise (·.due ≤ ·.due)) :
    (schedule r l).map Pending.unnumbered =
      (l.map Pending.unnumbered).filter (·.due ≤ r.due) ++ r.unnumbered ::
        (l.map Pending.unnumbered).filter (r.due < ·.due) := by
  rw [schedule_eq h, List.map_append, List.map_cons, map_filter_unnumbered _ (fun _ => rfl),
    map_filter_unnumbered _ (fun _ => rfl)]

/-- A request of another channel is not seen. -/
theorem filter_schedule_other (hr : r.isOf k = false) (l : List Pending) :
    (schedule r l).filter (Pending.isOf k) = l.filter (Pending.isOf k) := by
  induction l with
  | nil => simp [schedule, hr]
  | cons p rest ih =>
    unfold schedule
    split
    · simp [hr]
    · simp [List.filter_cons, ih]

/-! ### Two memories alike to one channel -/

/-- The memory `m'` is to channel `k` what `m` is, and has nothing else to do. -/
structure Mirrors (k : Fin channels) (m m' : QueuedMemory Service) : Prop where
  now : m'.now = m.now
  pending : m'.pending.map Pending.unnumbered =
    (m.pending.map Pending.unnumbered).filter (Pending.isOf k)
  model : Service.AgreeOn k m.model m'.model
  latencies : m'.totalLatency ≤ m.totalLatency

namespace Mirrors

/-- A queue of the channel has room in both or in none. -/
theorem hasRoom (h : m.Mirrors k m') (hc : c.Usable) (hm : m.Orderly c) (hm' : m'.Orderly c)
    (ha : half (c.fields.channel a) = k) : m'.hasRoom a = m.hasRoom a := by
  let j := c.fields.channel a
  have hcount : m'.inFlight.get j = m.inFlight.get j := by
    rw [hm.inFlight, hm'.inFlight]
    -- both counts are of the requests of the channel, of which `m'` has the same ones
    calc m'.pending.countP (·.channel = j)
        _ = (m'.pending.map Pending.unnumbered).countP (·.channel = j) := by
          rw [List.countP_map]
          rfl
        _ = (m.pending.filter (Pending.isOf k)).countP (·.channel = j) := by
          rw [h.pending, ← map_filter_unnumbered _ (fun _ => rfl), List.countP_map]
          rfl
        _ = m.pending.countP (·.channel = j) := by
          rw [List.countP_filter]
          refine List.countP_congr fun p _ => ?_
          have hj : p.channel = j → half p.channel = k := fun hp => hp ▸ ha
          simpa [Pending.isOf] using hj
  rw [hasRoom_eq (hm.inside hc), hasRoom_eq (hm'.inside hc), hm.fields, hm'.fields, hm.depth,
    hm'.depth, hcount]

/-- What the channel is granted in one memory it is granted in the other, at the same latency. -/
theorem own (h : m.Mirrors k m') (hc : c.Usable) (hm : m.Orderly c) (hm' : m'.Orderly c)
    (ha : half (c.fields.channel a) = k)
    (hacc : m.model.access a direction = some (latency, model)) :
    ∃ model', m'.model.access a direction = some (latency, model') ∧
      (m.joined a direction latency model).Mirrors k (m'.joined a direction latency model') := by
  obtain ⟨model', hacc', hmodel⟩ := h.model.own hc hm.serves ha hacc
  refine ⟨model', hacc', h.now, ?_, hmodel, Nat.add_le_add_right h.latencies _⟩
  -- the arrivals differ in their number only
  have hsame : (m'.arrival a direction latency).unnumbered =
      (m.arrival a direction latency).unnumbered := by
    unfold arrival Pending.unnumbered
    rw [h.now, hm.fields, hm'.fields]
  have hdue : (m'.arrival a direction latency).due = (m.arrival a direction latency).due :=
    congrArg (· + latency) h.now
  have hof : (m.arrival a direction latency).unnumbered.isOf k = true := by
    unfold Pending.isOf arrival Pending.unnumbered
    rw [hm.fields, decide_eq_true ha]
  show (schedule _ m'.pending).map _ = ((schedule _ m.pending).map _).filter _
  rw [map_schedule hm.sorted, map_schedule hm'.sorted, hsame, hdue, h.pending, List.filter_append,
    List.filter_cons_of_pos hof, List.filter_comm (Pending.isOf k),
    List.filter_comm (Pending.isOf k)]

/-- What another channel is granted changes nothing. -/
theorem other (h : m.Mirrors k m') (hc : c.Usable) (hm : m.Orderly c)
    (ha : half (c.fields.channel a) ≠ k)
    (hacc : m.model.access a direction = some (latency, model)) :
    (m.joined a direction latency model).Mirrors k m' := by
  refine ⟨h.now, ?_, h.model.other hc hm.serves ha hacc, Nat.le_add_right_of_le h.latencies⟩
  have hof : (m.arrival a direction latency).isOf k = false := by
    unfold Pending.isOf arrival
    rw [hm.fields, decide_eq_false ha]
  show _ = ((schedule _ m.pending).map _).filter _
  rw [← map_filter_unnumbered _ (fun _ => rfl), filter_schedule_other hof,
    map_filter_unnumbered _ (fun _ => rfl), h.pending]

/-- A cycle is the same to the channel. -/
theorem moved (h : m.Mirrors k m') (inFlight inFlight' : Vector Nat pseudoChannels) :
    (m.moved inFlight).Mirrors k (m'.moved inFlight') := by
  refine ⟨congrArg (· + 1) h.now, ?_, h.model, h.latencies⟩
  show (m'.pending.filter (m'.now + 1 < ·.due)).map _ =
    ((m.pending.filter (m.now + 1 < ·.due)).map _).filter _
  rw [map_filter_unnumbered _ (fun _ => rfl), map_filter_unnumbered _ (fun _ => rfl), h.pending,
    h.now, List.filter_comm]

/-- The completions of a cycle that one memory reports are those of the other for the channel. -/
theorem fired (h : m.Mirrors k m') (hm : m.Orderly c) : m'.fired.map Pending.key =
    (m.fired.map Pending.key).filter fun key => half (c.fields.channel key.address) = k := by
  -- a completion does not show the number of its request
  have hunnumbered : ∀ l : List Pending,
      l.map Pending.key = (l.map Pending.unnumbered).map Pending.key := by
    intro l
    rw [List.map_map]
    rfl
  have hfired : m'.fired.map Pending.unnumbered =
      (m.fired.filter (Pending.isOf k)).map Pending.unnumbered := by
    rw [map_filter_unnumbered (Pending.isOf k) (fun _ => rfl)]
    show (m'.pending.filter (·.due ≤ m'.now + 1)).map _ =
      ((m.pending.filter (·.due ≤ m.now + 1)).map _).filter _
    rw [map_filter_unnumbered _ (fun _ => rfl), map_filter_unnumbered _ (fun _ => rfl), h.pending,
      h.now, List.filter_comm]
  rw [hunnumbered, hfired, ← hunnumbered, List.filter_map]
  refine congrArg _ (List.filter_congr fun p hp => ?_)
  have hrouted := hm.routed p (List.mem_of_mem_filter hp)
  unfold Pending.isOf
  rw [hrouted]
  rfl

end Mirrors

end QueuedMemory

end MemoryReplay
