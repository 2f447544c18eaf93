import Mathlib.Data.List.Count
import MemoryReplay.Proofs.Memory.Service
import MemoryReplay.Proofs.Tally

/-!
# The invariant of a memory with bounded queues

Between two operations the requests under way stand in the order in which they complete, and the
queues of the pseudo-channels count them.

- `schedule_perm`, `schedule_pairwise`, `takeWhile_due`: the schedule as a sorted list.
- `QueuedMemory.joined`, `QueuedMemory.moved`: a memory after an admission and after a cycle.
  `add_eq_some_iff`, `advance_eq`: that is what the two operations do.
- `QueuedMemory.Orderly c m`: the invariant of a memory built from the configuration `c`.
  `Orderly.joined`, `Orderly.moved`: both operations keep it.
- `QueuedMemory.Tallied m`: no counter exceeds the number of admissions.
-/

namespace MemoryReplay

namespace QueuedMemory

/-! ### The schedule -/

variable {r : Pending} {l : List Pending}

theorem schedule_perm (r : Pending) (l : List Pending) : (schedule r l).Perm (r :: l) := by
  induction l with
  | nil => exact .refl _
  | cons p rest ih =>
    unfold schedule
    split
    · exact .refl _
    · exact (ih.cons p).trans (.swap r p rest)

theorem schedule_pairwise (h : l.Pairwise (·.due ≤ ·.due)) :
    (schedule r l).Pairwise (·.due ≤ ·.due) := by
  induction l with
  | nil => exact List.pairwise_singleton ..
  | cons p rest ih =>
    obtain ⟨hp, hrest⟩ := List.pairwise_cons.mp h
    unfold schedule
    split
    · next hlt =>
      refine List.pairwise_cons.mpr ⟨fun q hq => ?_, h⟩
      rcases List.mem_cons.mp hq with rfl | hq
      · exact Nat.le_of_lt hlt
      · exact Nat.le_trans (Nat.le_of_lt hlt) (hp q hq)
    · next hge =>
      refine List.pairwise_cons.mpr ⟨fun q hq => ?_, ih hrest⟩
      rcases List.mem_cons.mp ((schedule_perm r rest).mem_iff.mp hq) with rfl | hq
      · exact Nat.le_of_not_lt hge
      · exact hp q hq

/-- A request is put between those due no later and those due later. -/
theorem schedule_eq (h : l.Pairwise (·.due ≤ ·.due)) :
    schedule r l = l.filter (·.due ≤ r.due) ++ r :: l.filter (r.due < ·.due) := by
  induction l with
  | nil => rfl
  | cons p rest ih =>
    obtain ⟨hp, hrest⟩ := List.pairwise_cons.mp h
    unfold schedule
    split
    · next hlt =>
      have hlater : ∀ q ∈ rest, r.due < q.due := fun q hq => Nat.lt_of_lt_of_le hlt (hp q hq)
      have hnone : rest.filter (·.due ≤ r.due) = [] :=
        List.filter_eq_nil_iff.mpr fun q hq => by simpa using hlater q hq
      have hall : rest.filter (r.due < ·.due) = rest :=
        List.filter_eq_self.mpr fun q hq => by simpa using hlater q hq
      simp [hlt, hnone, hall]
    · next hge =>
      simp [hge, Nat.le_of_not_lt hge, ih hrest]

/-- What is due stands in front. -/
theorem takeWhile_due (h : l.Pairwise (·.due ≤ ·.due)) (now : Nat) :
    l.takeWhile (·.due ≤ now) = l.filter (·.due ≤ now) := by
  induction l with
  | nil => rfl
  | cons p rest ih =>
    obtain ⟨hp, hrest⟩ := List.pairwise_cons.mp h
    by_cases hdue : p.due ≤ now
    · simp [hdue, ih hrest]
    · have hnone : rest.filter (·.due ≤ now) = [] :=
        List.filter_eq_nil_iff.mpr fun q hq => by have := hp q hq; simp; omega
      simp [hdue, hnone]

theorem dropWhile_due (h : l.Pairwise (·.due ≤ ·.due)) (now : Nat) :
    l.dropWhile (·.due ≤ now) = l.filter (now < ·.due) := by
  induction l with
  | nil => rfl
  | cons p rest ih =>
    obtain ⟨hp, hrest⟩ := List.pairwise_cons.mp h
    by_cases hdue : p.due ≤ now
    · simp [hdue, Nat.not_lt.mpr hdue, ih hrest]
    · have hall : rest.filter (now < ·.due) = rest :=
        List.filter_eq_self.mpr fun q hq => by have := hp q hq; simp; omega
      simp [hdue, Nat.lt_of_not_le hdue, hall]

/-- Requests that leave their queues can be taken from the counts one after the other. -/
theorem foldlM_decrease {fired later : List Pending} {counts : Vector Nat pseudoChannels}
    (h : ∀ k, counts.get k = (fired ++ later).countP (·.channel = k)) :
    ∃ rest, fired.foldlM (fun counts p => decrease counts p.channel) counts = some rest ∧
      ∀ k, rest.get k = later.countP (·.channel = k) := by
  induction fired generalizing counts with
  | nil => exact ⟨counts, rfl, h⟩
  | cons p fired ih =>
    -- `p` itself is counted, so the count can be decreased
    obtain ⟨n, hn⟩ : ∃ n, counts.get p.channel = n + 1 := by
      refine ⟨(fired ++ later).countP (·.channel = p.channel), ?_⟩
      simp [h]
    have hdecrease : decrease counts p.channel = some (counts.set p.channel n) := by
      simp [decrease, hn]
    have hnext : ∀ k, (counts.set p.channel n).get k = (fired ++ later).countP (·.channel = k) := by
      intro k
      have hk := h k
      rw [List.cons_append, List.countP_cons] at hk
      rw [Tally.get_set]
      split
      · next heq =>
        subst heq
        simp only [decide_true, if_true] at hk
        omega
      · next hne => simpa [hne] using hk
    obtain ⟨rest, hrest, hcounts⟩ := ih hnext
    refine ⟨rest, ?_, hcounts⟩
    rw [List.foldlM_cons, hdecrease]
    exact hrest

/-- Requests that leave their queues only make them shorter. -/
theorem foldlM_decrease_le {fired : List Pending} {counts rest : Vector Nat pseudoChannels}
    (h : fired.foldlM (fun counts p => decrease counts p.channel) counts = some rest) :
    ∀ k, rest.get k ≤ counts.get k := by
  induction fired generalizing counts with
  | nil =>
    obtain rfl := Option.some.inj h
    exact fun k => Nat.le_refl _
  | cons p fired ih =>
    rw [List.foldlM_cons] at h
    obtain ⟨next, hnext, h⟩ := Option.bind_eq_some_iff.mp h
    intro k
    refine Nat.le_trans (ih h k) ?_
    unfold decrease at hnext
    split at hnext
    · cases hnext
    · next n hn =>
      obtain rfl := Option.some.inj hnext
      rw [Tally.get_set]
      split
      · next hk =>
        subst hk
        omega
      · exact Nat.le_refl _

/-! ### Admission and cycle -/

section

variable {κ : Type} {m m' : QueuedMemory κ} {a : UInt64} {direction : Direction} {latency : Nat}
  {model : κ}

/-- The request that is under way after an admission. -/
def arrival (m : QueuedMemory κ) (a : UInt64) (direction : Direction) (latency : Nat) : Pending :=
  ⟨m.now + latency, m.admitted, ⟨a, direction⟩, m.fields.channel a⟩

/-- The memory after an admission for which the model gave a latency. -/
def joined (m : QueuedMemory κ) (a : UInt64) (direction : Direction) (latency : Nat) (model : κ) :
    QueuedMemory κ :=
  { m with
    model
    admitted := m.admitted + 1
    pending := schedule (m.arrival a direction latency) m.pending
    inFlight := increase m.inFlight (m.fields.channel a)
    perChannel := increase m.perChannel (m.fields.channel a)
    totalLatency := m.totalLatency + latency
    reads := if direction = .read then m.reads + 1 else m.reads
    writes := if direction = .write then m.writes + 1 else m.writes }

/-- The requests that the next cycle completes. -/
def fired (m : QueuedMemory κ) : List Pending := m.pending.filter (·.due ≤ m.now + 1)

/-- The memory after a cycle that leaves the given counts. -/
def moved (m : QueuedMemory κ) (inFlight : Vector Nat pseudoChannels) : QueuedMemory κ :=
  { m with now := m.now + 1, inFlight, pending := m.pending.filter (m.now + 1 < ·.due) }

theorem hasRoom_eq_some_iff {room : Bool} : m.hasRoom a = some room ↔
    m.fields.channelShift.toNat < 64 ∧
      decide (m.inFlight.get (m.fields.channel a) < m.queueDepth.toNat) = room := by
  unfold hasRoom
  constructor
  · intro h
    obtain ⟨j, hj, hroom⟩ := Option.bind_eq_some_iff.mp h
    obtain ⟨hshift, rfl⟩ := AddressFields.channelOf?_eq_some_iff.mp hj
    exact ⟨hshift, Option.some.inj hroom⟩
  · rintro ⟨hshift, rfl⟩
    rw [AddressFields.channelOf?_eq_some_iff.mpr ⟨hshift, rfl⟩]
    rfl

theorem hasRoom_eq (h : m.fields.Inside) (a : UInt64) : m.hasRoom a =
    some (decide (m.inFlight.get (m.fields.channel a) < m.queueDepth.toNat)) :=
  hasRoom_eq_some_iff.mpr ⟨h.channel, rfl⟩

/-- A request is admitted exactly when it has a pseudo-channel and its latency, its cycle of
completion and the sum of all latencies stay inside 64 bits. -/
theorem add_eq_some_iff [LatencyModel κ] : m.add a direction = some m' ↔
    m.fields.channelShift.toNat < 64 ∧
    ∃ latency model, LatencyModel.access m.model a direction = some (latency, model) ∧
      m.now + latency < UInt64.size ∧ m.totalLatency + latency < UInt64.size ∧
      m' = m.joined a direction latency model := by
  unfold add
  constructor
  · intro hadd
    obtain ⟨j, hj, hadd⟩ := Option.bind_eq_some_iff.mp hadd
    obtain ⟨⟨latency, model⟩, hserved, hadd⟩ := Option.bind_eq_some_iff.mp hadd
    obtain ⟨due, hdue, hadd⟩ := Option.bind_eq_some_iff.mp hadd
    obtain ⟨total, htotal, hadd⟩ := Option.bind_eq_some_iff.mp hadd
    obtain ⟨hshift, rfl⟩ := AddressFields.channelOf?_eq_some_iff.mp hj
    obtain ⟨rfl, hduefits⟩ := Word.fits_eq_some_iff.mp hdue
    obtain ⟨rfl, htotalfits⟩ := Word.fits_eq_some_iff.mp htotal
    exact ⟨hshift, latency, model, hserved, hduefits, htotalfits, (Option.some.inj hadd).symm⟩
  · rintro ⟨hshift, latency, model, hserved, hdue, htotal, rfl⟩
    rw [AddressFields.channelOf?_eq_some_iff.mpr ⟨hshift, rfl⟩]
    show (LatencyModel.access m.model a direction >>= _) = _
    rw [hserved]
    show (Word.fits (m.now + latency) >>= _) = _
    rw [Word.fits_eq_some_iff.mpr ⟨rfl, hdue⟩]
    show (Word.fits (m.totalLatency + latency) >>= _) = _
    rw [Word.fits_eq_some_iff.mpr ⟨rfl, htotal⟩]
    rfl

theorem pending_joined_perm (m : QueuedMemory κ) :
    (m.joined a direction latency model).pending.Perm (m.arrival a direction latency :: m.pending) :=
  schedule_perm _ _

/-- An admission counts the request that is under way from then on. -/
theorem inFlight_joined (h : ∀ k, m.inFlight.get k = m.pending.countP (·.channel = k))
    (k : Fin pseudoChannels) : (m.joined a direction latency model).inFlight.get k =
      (m.joined a direction latency model).pending.countP (·.channel = k) := by
  rw [m.pending_joined_perm.countP_eq, List.countP_cons, ← h]
  show (increase m.inFlight (m.fields.channel a)).get k = _
  unfold increase arrival
  rw [Tally.get_set]
  by_cases hk : m.fields.channel a = k
  · subst hk
    simp
  · simp [hk]

theorem mem_joined {p : Pending} : p ∈ (m.joined a direction latency model).pending ↔
    p = m.arrival a direction latency ∨ p ∈ m.pending := by
  rw [m.pending_joined_perm.mem_iff, List.mem_cons]

/-- The memory after a cycle that leaves the given counts, and what it reports: everything that is
due once there is somebody to report it to, and nothing before. -/
def cycled (m : QueuedMemory κ) (inFlight : Vector Nat pseudoChannels) :
    QueuedMemory κ × List Completion :=
  ({ m.moved inFlight with
      unreported := if m.attached then m.unreported else m.unreported + m.fired.length },
    if m.attached then m.fired.map Pending.key else [])

/-- A cycle of a memory whose counts are right succeeds unless the clock leaves 64 bits, and the
counts are right after it. -/
theorem advance_eq (hsorted : m.pending.Pairwise (·.due ≤ ·.due))
    (hcounts : ∀ k, m.inFlight.get k = m.pending.countP (·.channel = k)) :
    ∃ inFlight, (∀ k, inFlight.get k = (m.moved inFlight).pending.countP (·.channel = k)) ∧
      m.advance = (Word.fits (m.now + 1)).map fun _ => m.cycled inFlight := by
  -- what fires and what stays are the schedule, split at the first request that is not due
  have hsplit : ∀ k, m.inFlight.get k =
      (m.fired ++ m.pending.filter (m.now + 1 < ·.due)).countP (·.channel = k) := by
    intro k
    rw [hcounts, fired, ← takeWhile_due hsorted, ← dropWhile_due hsorted,
      List.takeWhile_append_dropWhile]
  obtain ⟨inFlight, hfold, hrest⟩ := foldlM_decrease hsplit
  refine ⟨inFlight, hrest, ?_⟩
  unfold advance
  by_cases hnow : m.now + 1 < UInt64.size
  · rw [Word.fits_eq_some_iff.mpr ⟨rfl, hnow⟩]
    simp only [Option.bind_eq_bind, Option.bind_some, takeWhile_due hsorted, dropWhile_due hsorted]
    rw [← fired, hfold]
    show (if m.attached = true then _ else _) = some (m.cycled inFlight)
    unfold cycled
    split <;> rfl
  · have hnone : Word.fits (m.now + 1) = none := if_neg hnow
    rw [hnone]
    rfl

/-- What was under way is under way or has completed. -/
theorem countP_moved (m : QueuedMemory κ) (inFlight : Vector Nat pseudoChannels)
    (p : Pending → Bool) :
    (m.moved inFlight).pending.countP p + m.fired.countP p = m.pending.countP p := by
  -- what is not due by now is due later
  have hlater : (m.moved inFlight).pending =
      m.pending.filter fun q => !decide (q.due ≤ m.now + 1) := by
    simp only [← decide_not, Nat.not_le]
    rfl
  rw [hlater, Nat.add_comm]
  exact (List.countP_eq_countP_filter_add ..).symm

end

variable {c : MemoryConfig} {m : QueuedMemory Service} {a : UInt64} {direction : Direction}
  {latency : Nat} {model : Service}

/-- A memory built from the configuration `c` and attached, in whatever state. -/
structure Orderly (c : MemoryConfig) (m : QueuedMemory Service) : Prop where
  fields : m.fields = c.fields
  depth : m.queueDepth = c.queueDepth
  attached : m.attached = true
  serves : c.Serves m.model
  sorted : m.pending.Pairwise (·.due ≤ ·.due)
  routed : ∀ p ∈ m.pending, p.channel = c.fields.channel p.key.address
  inFlight : ∀ k, m.inFlight.get k = m.pending.countP (·.channel = k)

namespace Orderly

theorem inside (h : m.Orderly c) (hc : c.Usable) : m.fields.Inside := h.fields ▸ hc.fields

theorem joined (h : m.Orderly c) (hc : c.Usable)
    (hacc : m.model.access a direction = some (latency, model)) :
    (m.joined a direction latency model).Orderly c where
  fields := h.fields
  depth := h.depth
  attached := h.attached
  serves := (Service.serves_access hc h.serves hacc).2
  sorted := schedule_pairwise h.sorted
  routed p hp := by
    rcases mem_joined.mp hp with rfl | hp
    · rw [← h.fields]
      rfl
    · exact h.routed p hp
  inFlight := inFlight_joined h.inFlight

/-- A cycle succeeds unless the clock leaves 64 bits, and reports what is due. -/
theorem moved (h : m.Orderly c) : ∃ inFlight, (m.moved inFlight).Orderly c ∧
    m.advance = (Word.fits (m.now + 1)).map fun _ =>
      (m.moved inFlight, m.fired.map Pending.key) := by
  obtain ⟨inFlight, hcounts, hadvance⟩ := advance_eq h.sorted h.inFlight
  refine ⟨inFlight, ⟨h.fields, h.depth, h.attached, h.serves, h.sorted.filter _, ?_, hcounts⟩, ?_⟩
  · intro p hp
    exact h.routed p (List.mem_of_mem_filter hp)
  · rw [hadvance]
    unfold cycled
    rw [if_pos h.attached, if_pos h.attached]
    rfl

/-- With nothing under way every queue has room. -/
theorem hasRoom_of_idle (h : m.Orderly c) (hc : c.Usable) (hidle : m.pending = []) (a : UInt64) :
    m.hasRoom a = some true := by
  have hzero : m.inFlight.get (m.fields.channel a) = 0 := by rw [h.inFlight, hidle, List.countP_nil]
  rw [hasRoom_eq (h.inside hc), hzero, h.depth, decide_eq_true hc.depth]

end Orderly

/-- No counter exceeds the number of admissions. -/
structure Tallied (m : QueuedMemory Service) : Prop where
  directions : m.reads + m.writes = m.admitted
  perChannel : ∀ k, m.perChannel.get k ≤ m.admitted
  pending : m.pending.length ≤ m.admitted
  model : ((LatencyModel.counters m.model).map Prod.snd).sum ≤ m.admitted
  unreported : m.unreported = 0

namespace Tallied

theorem joined (h : m.Tallied) (hm : m.Orderly c) (hc : c.Usable)
    (hacc : m.model.access a direction = some (latency, model)) :
    (m.joined a direction latency model).Tallied where
  directions := by
    show (if direction = .read then _ else _) + (if direction = .write then _ else _) = _
    rw [QueuedMemory.joined, ← h.directions]
    cases direction <;> simp <;> omega
  perChannel k := by
    show (increase m.perChannel (m.fields.channel a)).get k ≤ m.admitted + 1
    unfold increase
    rw [Tally.get_set]
    split
    · exact Nat.succ_le_succ (h.perChannel _)
    · exact Nat.le_succ_of_le (h.perChannel k)
  pending := by
    rw [m.pending_joined_perm.length_eq, List.length_cons]
    exact Nat.succ_le_succ h.pending
  model := Nat.le_trans (Service.sum_counters_access hc hm.serves hacc) (Nat.succ_le_succ h.model)
  unreported := h.unreported

theorem moved (h : m.Tallied) (inFlight : Vector Nat pseudoChannels) : (m.moved inFlight).Tallied :=
  { h with pending := Nat.le_trans (List.length_filter_le _ _) h.pending }

end Tallied

end QueuedMemory

namespace MemoryConfig

variable {c : MemoryConfig} {m : QueuedMemory Service}

/-- A usable configuration describes a memory. -/
theorem exists_build (hc : c.Usable) : ∃ m, c.build = some m := by
  obtain ⟨model, hmodel, -⟩ := exists_service hc
  exact ⟨_, by rw [c.build_eq, hmodel]; rfl⟩

/-- What a usable configuration describes is idle, and orderly once it is attached. -/
theorem orderly_of_build (hc : c.Usable) (h : c.build = some m) : m.fields = c.fields ∧
    m.now = 0 ∧ m.admitted = 0 ∧ m.totalLatency = 0 ∧ m.pending = [] ∧
    (MemorySystem.attach m).Orderly c ∧ (MemorySystem.attach m).Tallied := by
  obtain ⟨model, hmodel, hserves, hcounters⟩ := exists_service hc
  rw [c.build_eq, hmodel] at h
  obtain rfl := Option.some.inj h
  refine ⟨rfl, rfl, rfl, rfl, rfl, ?_, ?_⟩
  · exact ⟨rfl, rfl, rfl, hserves, .nil, fun p hp => absurd hp List.not_mem_nil,
      fun k => Tally.get_replicate 0 k⟩
  · exact ⟨rfl, fun k => Nat.le_of_eq (Tally.get_replicate 0 k), Nat.le_refl 0,
      Nat.le_of_eq hcounters, rfl⟩

end MemoryConfig

end MemoryReplay
