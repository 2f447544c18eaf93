import MemoryReplay.Proofs.Memory.Visits
import MemoryReplay.Proofs.Replay.Ledger

/-!
# Stamps and visits

The books see a completion without knowing which visit has finished. Of the requests with one
address and direction the oldest is stamped, so the stamps of these requests are the cycles in
which they finish, in ascending order.

- `Ledger.Stamped ledger visits events cycle`: the invariant; the completions `events` have been
  reported in this cycle and are still to be matched.
- `Stamped.granted`, `Stamped.ticked`, `Stamped.settleAll`: an admission, a cycle, and the
  completions of a cycle.
-/

namespace MemoryReplay

/-- What was admitted, and when. -/
def Request.arrival (r : Request) : Completion × Nat := (r.key, r.issueCycle)

/-- What was completed, and when. -/
def Request.stamp (r : Request) : Completion × Nat := (r.key, r.completeCycle)

/-- Of two requests with one key the earlier one is stamped first. -/
def Entry.Precedes (e e' : Entry) : Prop :=
  e.request.key = e'.request.key → e'.waits = false →
    e.waits = false ∧ e.request.completeCycle ≤ e'.request.completeCycle

namespace Ledger

variable {ledger : Ledger} {visits : List Visit} {events : List Completion} {key : Completion}
  {cycle : Nat}

/-- The completed entries bear the cycles in which visits have finished by now, those of one key in
ascending order; the completions `events` of this cycle are still to be matched. -/
structure Stamped (ledger : Ledger) (visits : List Visit) (events : List Completion)
    (cycle : Nat) : Prop where
  arrivals : ledger.map (·.request.arrival) = visits.map Visit.arrival
  stamps : ((ledger.filter fun e => !e.waits).map (·.request.stamp) ++
    events.map fun key => (key, cycle)).Perm
      ((visits.filter fun v => v.finish ≤ cycle).map Visit.stamp)
  inOrder : ledger.Pairwise Entry.Precedes

namespace Stamped

/-- No stamp is later than now. -/
theorem complete_le (h : ledger.Stamped visits events cycle) {e : Entry} (he : e ∈ ledger)
    (hdone : e.waits = false) : e.request.completeCycle ≤ cycle := by
  have hmem : e.request.stamp ∈ (ledger.filter fun e => !e.waits).map (·.request.stamp) :=
    List.mem_map_of_mem (f := fun e : Entry => e.request.stamp)
      (List.mem_filter.mpr ⟨he, by simp [hdone]⟩)
  obtain ⟨v, hv, heq⟩ := List.mem_map.mp (h.stamps.mem_iff.mp (List.mem_append_left _ hmem))
  have hfinish : v.finish ≤ cycle := by simpa using List.of_mem_filter hv
  rw [← show v.finish = e.request.completeCycle from congrArg Prod.snd heq]
  exact hfinish

theorem granted (h : ledger.Stamped visits events cycle) (head : Request) (k : Fin channels)
    (latency : Nat) : Stamped (ledger ++ [⟨head.markIssued cycle, k, true⟩])
      (visits ++ [⟨head.key, cycle, latency⟩]) events cycle where
  arrivals := by
    rw [List.map_append, List.map_append, h.arrivals]
    rfl
  stamps := by
    -- the new visit has not finished
    have hlate : ¬ (⟨head.key, cycle, latency⟩ : Visit).finish ≤ cycle :=
      Nat.not_le.mpr (Visit.issue_lt_finish ⟨head.key, cycle, latency⟩)
    rw [List.filter_append, List.filter_append, List.filter_cons_of_neg (by simp),
      List.filter_cons_of_neg (by simpa using hlate), List.filter_nil, List.filter_nil,
      List.append_nil, List.append_nil]
    exact h.stamps
  inOrder := by
    refine List.pairwise_append.mpr ⟨h.inOrder, List.pairwise_singleton .., fun e _ e' he' => ?_⟩
    obtain rfl := List.mem_singleton.mp he'
    exact fun _ hdone => nomatch hdone

/-- In the next cycle the completions of this cycle are to be matched. -/
theorem ticked (h : ledger.Stamped visits [] cycle)
    (hevents : (events.map fun key => (key, cycle + 1)).Perm
      ((visits.filter fun v => v.finish = cycle + 1).map Visit.stamp)) :
    ledger.Stamped visits events (cycle + 1) where
  arrivals := h.arrivals
  stamps := by
    have hbefore := h.stamps
    rw [List.map_nil, List.append_nil] at hbefore
    refine (hbefore.append hevents).trans ?_
    rw [← List.map_append]
    refine List.Perm.map _ ?_
    -- what has finished by the next cycle has finished by now or finishes then
    have hsplit := List.filter_append_perm (fun v : Visit => decide (v.finish ≤ cycle))
      (visits.filter fun v => v.finish ≤ cycle + 1)
    rw [List.filter_filter, List.filter_filter] at hsplit
    refine .trans (.of_eq ?_) hsplit
    congr 1
    · refine List.filter_congr fun v _ => ?_
      rw [Bool.eq_iff_iff]
      simp only [Bool.and_eq_true, decide_eq_true_eq]
      omega
    · refine List.filter_congr fun v _ => ?_
      rw [Bool.eq_iff_iff]
      simp only [Bool.and_eq_true, Bool.not_eq_true', decide_eq_true_eq, decide_eq_false_iff_not]
      omega
  inOrder := h.inOrder

/-- A completion stamps the oldest entry that awaits it with the current cycle. -/
theorem settle (h : ledger.Stamped visits (key :: events) cycle)
    (hsome : ∃ e ∈ ledger, e.awaits key = true) :
    (ledger.settle key cycle).Stamped visits events cycle := by
  have hle : ∀ e ∈ ledger, e.waits = false → e.request.completeCycle ≤ cycle :=
    fun _ he hdone => h.complete_le he hdone
  refine ⟨?_, ?_, ?_⟩
  · rw [Ledger.map_settle (·.request.arrival) key (fun _ => rfl)]
    exact h.arrivals
  · obtain ⟨older, e, newer, rfl, holder, he⟩ := exists_split hsome
    obtain ⟨hwaits, hkey⟩ := Entry.awaits_iff.mp he
    refine .trans (.trans ?_ List.perm_middle.symm) h.stamps
    have hstamp : (e.settle cycle).request.stamp = (key, cycle) := by rw [← hkey]; rfl
    rw [settle_eq_of_split holder he, List.filter_append, List.filter_append,
      List.filter_cons_of_pos (by rfl), List.filter_cons_of_neg (by simp [hwaits]), List.map_append,
      List.map_append, List.map_cons, hstamp, List.append_assoc, List.append_assoc, List.cons_append]
    exact List.perm_middle
  · obtain ⟨older, e, newer, rfl, holder, he⟩ := exists_split hsome
    obtain ⟨hwaits, hkey⟩ := Entry.awaits_iff.mp he
    rw [settle_eq_of_split holder he]
    obtain ⟨holds, hrest, hcross⟩ := List.pairwise_append.mp h.inOrder
    obtain ⟨hnewer, hlast⟩ := List.pairwise_cons.mp hrest
    refine List.pairwise_append.mpr ⟨holds, List.pairwise_cons.mpr ⟨fun x hx => ?_, hlast⟩, ?_⟩
    · -- a newer entry with the same key still waits
      intro hsame hdone
      have hpast := (hnewer x hx hsame hdone).1
      rw [hwaits] at hpast
      cases hpast
    · intro x hx y hy
      rcases List.mem_cons.mp hy with rfl | hy
      · -- an older entry with the same key has been stamped before
        intro hsame _
        have hxkey : x.request.key = key := hsame.trans hkey
        have hxdone : x.waits = false := by
          have hnot := holder x hx
          rw [Entry.awaits, hxkey] at hnot
          simpa using hnot
        exact ⟨hxdone, hle x (by simp [hx]) hxdone⟩
      · exact hcross x hx y (List.mem_cons_of_mem _ hy)

/-- All completions of a cycle are matched, if they are awaited. -/
theorem settleAll (h : ledger.Stamped visits events cycle)
    (hawaited : ∀ key, events.count key ≤ ledger.countP (Entry.awaits key)) :
    (ledger.settleAll cycle events).Stamped visits [] cycle := by
  induction events generalizing ledger with
  | nil => exact h
  | cons key rest ih =>
    have hsome : ∃ e ∈ ledger, e.awaits key = true := by
      have hcount := hawaited key
      rw [List.count_cons_self] at hcount
      exact List.countP_pos_iff.mp (by omega)
    refine ih (h.settle hsome) fun key' => ?_
    show rest.count key' ≤ (ledger.settle key cycle).countP _
    have hcount := hawaited key'
    rw [Ledger.countP_awaits_settle cycle hsome, List.count_cons] at hcount
    by_cases hk : key = key'
    · simp only [hk, beq_self_eq_true, if_true] at hcount
      subst hk
      omega
    · simp only [beq_iff_eq, if_neg hk] at hcount
      omega

end Stamped

end Ledger

end MemoryReplay
