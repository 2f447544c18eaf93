import MemoryReplay.Proofs.Memory.Assigned
import MemoryReplay.Proofs.Memory.Queued

/-!
# What a memory has been visited by

A visit is an admission with what the memory made of it: which request, in which cycle, and with
which latency. All that a memory holds is the visits that have not finished.

- `Visit.finish`: the cycle in which the completion of a visit is seen.
- `QueuedMemory.Hosts start m visits`: a memory that began with the model `start` and has admitted
  the visits. `Hosts.joined`, `Hosts.moved`: an admission and a cycle.
- `Hosts.fired`: a cycle completes the visits that finish in it.
- `Hosts.inFlight_eq`: the queue of a pseudo-channel holds its visits that have not finished.
-/

namespace MemoryReplay

/-- An admission, with the latency that the model gave it. -/
structure Visit where
  /-- What was admitted. -/
  key : Completion
  /-- The cycle of its admission. -/
  issue : Nat
  /-- The latency that it was given. -/
  latency : Nat
  deriving Repr, DecidableEq

namespace Visit

/-- The cycle in which it is due. -/
def due (v : Visit) : Nat := v.issue + v.latency

/-- The cycle in which its completion is seen: no cycle completes what it has admitted. -/
def finish (v : Visit) : Nat := v.issue + max 1 v.latency

/-- What was admitted, and when. -/
def arrival (v : Visit) : Completion × Nat := (v.key, v.issue)

/-- What the memory has to report, and when it is due. -/
def promise (v : Visit) : Completion × Nat := (v.key, v.due)

/-- What is reported, and when. -/
def stamp (v : Visit) : Completion × Nat := (v.key, v.finish)

theorem issue_lt_finish (v : Visit) : v.issue < v.finish := by
  unfold finish
  omega

/-- The next cycle completes what is due by then and under way. -/
theorem finishes_iff {v : Visit} {now : Nat} (h : v.issue ≤ now) :
    v.due ≤ now + 1 ∧ now < v.finish ↔ v.finish = now + 1 := by
  unfold due finish
  omega

/-- What is not due in the next cycle is under way after it, if it is now. -/
theorem stays_iff {v : Visit} {now : Nat} (h : v.issue ≤ now) :
    now + 1 < v.due ∧ now < v.finish ↔ now + 1 < v.finish := by
  unfold due finish
  omega

/-- Whether it belongs to a channel. -/
def isOf (c : MemoryConfig) (k : Fin channels) (v : Visit) : Bool :=
  half (c.fields.channel v.key.address) = k

end Visit

/-- What the memory has to report, and when it is due. -/
def Pending.promise (p : Pending) : Completion × Nat := (p.key, p.due)

/-- The visits of a pseudo-channel that are under way in a cycle. -/
def busy (fields : AddressFields) (visits : List Visit) (j : Fin pseudoChannels) (cycle : Nat) :
    Nat :=
  visits.countP fun v => fields.channel v.key.address = j ∧ cycle < v.finish

/-- Those of the other channels do not count. -/
theorem busy_filter (c : MemoryConfig) {k : Fin channels} {j : Fin pseudoChannels} (hj : half j = k)
    (visits : List Visit) (cycle : Nat) :
    busy c.fields (visits.filter (Visit.isOf c k)) j cycle = busy c.fields visits j cycle := by
  unfold busy
  rw [List.countP_filter]
  refine List.countP_congr fun v _ => ?_
  have hof : c.fields.channel v.key.address = j → half (c.fields.channel v.key.address) = k :=
    fun h => h ▸ hj
  simp only [Visit.isOf, Bool.and_eq_true, decide_eq_true_eq]
  exact ⟨fun h => h.1, fun h => ⟨h, hof h.1⟩⟩

namespace QueuedMemory

variable {c : MemoryConfig} {start model : Service} {m : QueuedMemory Service}
  {visits : List Visit} {key : Completion} {latency : Nat}

/-- A memory that began with the model `start` has admitted the visits, in their order. -/
structure Hosts (start : Service) (m : QueuedMemory Service) (visits : List Visit) : Prop where
  served : start.serve (visits.map Visit.key) = some (visits.map Visit.latency, m.model)
  total : m.totalLatency = (visits.map Visit.latency).sum
  fits : m.totalLatency < UInt64.size
  issued : ∀ v ∈ visits, v.issue ≤ m.now
  inOrder : visits.Pairwise fun v w => v.issue ≤ w.issue
  pending : (m.pending.map Pending.promise).Perm
    ((visits.filter fun v => m.now < v.finish).map Visit.promise)

namespace Hosts

theorem opening (hpending : m.pending = []) (htotal : m.totalLatency = 0) :
    m.Hosts m.model [] where
  served := rfl
  total := htotal
  fits := htotal ▸ (by decide)
  issued := by simp
  inOrder := .nil
  pending := by simp [hpending]

theorem joined (h : m.Hosts start visits) (key : Completion)
    (hacc : m.model.access key.address key.direction = some (latency, model))
    (hfits : m.totalLatency + latency < UInt64.size) :
    (m.joined key.address key.direction latency model).Hosts start
      (visits ++ [⟨key, m.now, latency⟩]) where
  served := by
    rw [List.map_append, List.map_append]
    exact Service.serve_concat h.served hacc
  total := by
    show m.totalLatency + latency = _
    rw [h.total, List.map_append, List.sum_append]
    simp
  fits := hfits
  issued v hv := by
    rcases List.mem_append.mp hv with hv | hv
    · exact h.issued v hv
    · obtain rfl := List.mem_singleton.mp hv
      exact Nat.le_refl _
  inOrder := by
    refine List.pairwise_append.mpr ⟨h.inOrder, List.pairwise_singleton .., fun v hv w hw => ?_⟩
    obtain rfl := List.mem_singleton.mp hw
    exact h.issued v hv
  pending := by
    have hnew : m.now < (⟨key, m.now, latency⟩ : Visit).finish :=
      Visit.issue_lt_finish ⟨key, m.now, latency⟩
    have hnow : (m.joined key.address key.direction latency model).now = m.now := rfl
    rw [hnow, List.filter_append, List.filter_cons_of_pos (by simpa using hnew), List.filter_nil,
      List.map_append]
    have hjoined : (m.joined key.address key.direction latency model).pending.Perm
        (m.arrival key.address key.direction latency :: m.pending) := m.pending_joined_perm
    refine ((hjoined.map Pending.promise).trans ?_).trans (List.perm_append_singleton ..).symm
    exact h.pending.cons (key, m.now + latency)

/-- With a cycle gone, the visits that finish in it are not under way any more. -/
theorem moved (h : m.Hosts start visits) (inFlight : Vector Nat pseudoChannels) :
    (m.moved inFlight).Hosts start visits where
  served := h.served
  total := h.total
  fits := h.fits
  issued v hv := Nat.le_succ_of_le (h.issued v hv)
  inOrder := h.inOrder
  pending := by
    have hperm := h.pending.filter fun p => decide (m.now + 1 < p.2)
    rw [List.filter_map, List.filter_map, List.filter_filter] at hperm
    refine hperm.trans (.of_eq (congrArg _ (List.filter_congr fun v hv => ?_)))
    rw [Bool.eq_iff_iff, Bool.and_eq_true, decide_eq_true_eq]
    simp only [Function.comp_apply, decide_eq_true_eq]
    exact Visit.stays_iff (h.issued v hv)

/-- A cycle completes the visits that finish in it. -/
theorem fired (h : m.Hosts start visits) : (m.fired.map fun p => (p.key, m.now + 1)).Perm
    ((visits.filter fun v => v.finish = m.now + 1).map Visit.stamp) := by
  have hperm := (h.pending.filter fun p => decide (p.2 ≤ m.now + 1)).map fun p => (p.1, m.now + 1)
  rw [List.filter_map, List.filter_map, List.map_map, List.map_map, List.filter_filter] at hperm
  refine hperm.trans (.of_eq ?_)
  have hsame : (visits.filter fun v => decide (v.due ≤ m.now + 1) && decide (m.now < v.finish)) =
      visits.filter fun v => v.finish = m.now + 1 := by
    refine List.filter_congr fun v hv => ?_
    rw [Bool.eq_iff_iff]
    simp only [Bool.and_eq_true, decide_eq_true_eq]
    exact Visit.finishes_iff (h.issued v hv)
  show (visits.filter fun v => decide (v.due ≤ m.now + 1) && decide (m.now < v.finish)).map _ = _
  rw [hsame]
  refine List.map_congr_left fun v hv => ?_
  have hfinish : v.finish = m.now + 1 := by simpa using List.of_mem_filter hv
  exact Prod.ext rfl hfinish.symm

/-- The queue of a pseudo-channel holds its visits that have not finished. -/
theorem inFlight_eq (h : m.Hosts start visits) (hm : m.Orderly c) (j : Fin pseudoChannels) :
    m.inFlight.get j = busy c.fields visits j m.now := by
  have hcount : m.pending.countP (fun p => decide (c.fields.channel p.key.address = j)) =
      (visits.filter fun v => m.now < v.finish).countP
        fun v => decide (c.fields.channel v.key.address = j) := by
    have hperm := h.pending.countP_eq fun p => decide (c.fields.channel p.1.address = j)
    rw [List.countP_map, List.countP_map] at hperm
    exact hperm
  rw [List.countP_filter] at hcount
  rw [hm.inFlight]
  calc m.pending.countP (·.channel = j)
      _ = m.pending.countP fun p => decide (c.fields.channel p.key.address = j) :=
        List.countP_congr fun p hp => by simp [hm.routed p hp]
      _ = _ := hcount
      _ = busy c.fields visits j m.now := List.countP_congr fun v _ => by simp

end Hosts

end QueuedMemory

end MemoryReplay
