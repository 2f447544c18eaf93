import MemoryReplay.Proofs.Replay.Timetable

/-!
# The same books twice

Driver and memory each keep books of a replay of their own. They tell each other nothing but
admissions and completions, and still both books say the same after every step.

- `Session.SameBooks s`: what the two books have in common.
- `Coupled.keys_perm`, `Coupled.size_index`: what is under way.
- `Session.Enrolled c queues s ledger`: the counters of the memory, in terms of the ledger.
  `Enrolled.step`: a step keeps it. `Enrolled.sameBooks`: it makes the two books the same.
- `same_books`: every number of steps leaves the books the same, or has left 64 bits.
-/

namespace MemoryReplay

open MemoryReplay.Distribution

namespace Session

variable {c : MemoryConfig} {queues : Vector (List Request) channels} {s t : QuietSession}
  {k : Fin channels} {ledger : Ledger}

/-- Driver and memory say the same of the time, of what was admitted and of what is under way. -/
structure SameBooks (s : QuietSession) : Prop where
  clock : s.driver.cycle = s.memory.now
  outstanding : s.driver.outstanding = s.memory.outstanding
  /-- The same completions are still to come, each as often. -/
  pending : s.driver.index.keys.Perm (s.memory.pending.map Pending.key)
  directions : s.driver.slots.size = s.memory.reads + s.memory.writes
  perChannel : s.driver.slots.size = ∑ j, s.memory.perChannel.get j
  admitted : ∀ k, s.driver.admitted.get k =
    s.memory.perChannel.get (lower k) + s.memory.perChannel.get (upper k)

/-! ### What is under way -/

/-- The completions that the driver waits for are those that the memory is going to report. -/
theorem Coupled.keys_perm (h : s.Coupled c queues ledger []) :
    s.driver.index.keys.Perm (s.memory.pending.map Pending.key) := by
  refine List.perm_iff_count.mpr fun key => ?_
  rw [PendingIndex.count_keys, h.records.waiting, List.length_findIdxs, h.awaited, Pending.count_key]
  rfl

theorem Coupled.size_index (h : s.Coupled c queues ledger []) :
    s.driver.index.size = s.memory.pending.length := by
  -- the entries that wait have the completions that are still to come
  have hkeys : ((ledger.filter Entry.waits).map (·.request.key)).Perm
      (s.memory.pending.map Pending.key) := by
    refine List.perm_iff_count.mpr fun key => ?_
    rw [Pending.count_key, List.count, List.countP_map, List.countP_filter]
    refine Eq.trans (List.countP_congr fun e _ => ?_) (h.awaited key)
    simp [Entry.awaits, and_comm]
  rw [h.records.size, List.countP_eq_length_filter]
  simpa using hkeys.length_eq

/-! ### What was admitted -/

/-- Books and memory are in step, and the memory counts the entries of every pseudo-channel. -/
structure Enrolled (c : MemoryConfig) (queues : Vector (List Request) channels) (s : QuietSession)
    (ledger : Ledger) : Prop where
  coupled : s.Coupled c queues ledger []
  perChannel : ∀ j, s.memory.perChannel.get j =
    ledger.countP fun e => c.fields.channel e.request.address = j

namespace Enrolled

theorem opening (hc : c.Usable) {m : QueuedMemory Service} (hbuild : c.build = some m) :
    (Session.opening queues m Silence.mk).attach.Enrolled c queues [] where
  coupled := .opening hc hbuild
  perChannel j := by
    obtain ⟨-, -, hadmitted, -, -, -, htallied⟩ := c.orderly_of_build hc hbuild
    have hzero := htallied.perChannel j
    show m.perChannel.get j = 0
    exact Nat.le_zero.mp (hadmitted ▸ hzero)

theorem offer (hc : c.Usable) (h : s.Enrolled c queues ledger) (hoffer : s.offer k = .ok t) :
    ∃ ledger, t.Enrolled c queues ledger := by
  rcases quiet_offer_eq_ok (h.coupled.inside hc) hoffer with ⟨-, rfl⟩ | ⟨_, _, -, -, rfl⟩ |
    ⟨head, rest, latency, model, hq, -, hacc, -, -, rfl⟩
  · exact ⟨ledger, h⟩
  · exact ⟨ledger, h⟩
  · refine ⟨_, h.coupled.granted hc hq hacc, fun j => ?_⟩
    show (QueuedMemory.increase s.memory.perChannel (s.memory.fields.channel head.address)).get j = _
    unfold QueuedMemory.increase
    rw [h.coupled.orderly.fields, Tally.get_set, List.countP_append, h.perChannel, h.perChannel]
    by_cases hj : c.fields.channel head.address = j
    · subst hj
      simp [Request.markIssued]
    · simp [Request.markIssued, hj]

/-- A step keeps the counters right: only an admission changes them. -/
theorem step (hc : c.Usable) (h : s.Enrolled c queues ledger) (hstep : s.step = .ok t) :
    ∃ ledger, t.Enrolled c queues ledger := by
  rw [quiet_step] at hstep
  obtain ⟨v, hoffers, hcycle⟩ := Progress.andThen_eq_ok hstep
  obtain ⟨ledger, hv⟩ := offers_invariant
    (P := fun _ (v : QuietSession) => ∃ ledger, v.Enrolled c queues ledger)
    (fun k rest x y ⟨_, hx⟩ hoffer => hx.offer hc hoffer) _ ⟨ledger, h⟩ hoffers
  obtain ⟨inFlight, -, ht, -, -, hmemory⟩ := hv.coupled.cycle_eq_ok hcycle
  refine ⟨_, ht, fun j => ?_⟩
  rw [hmemory, Ledger.countP_settleAll _ (fun _ => rfl)]
  exact hv.perChannel j

/-- Any number of steps keeps it, unless a number leaves 64 bits on the way. -/
theorem steps (hc : c.Usable) (h : s.Enrolled c queues ledger) (n : Nat) :
    (∃ t ledger, Session.steps n s = .ok t ∧ t.Enrolled c queues ledger) ∨
      ∃ t, Session.steps n s = .overflow t := by
  induction n with
  | zero => exact .inl ⟨s, ledger, rfl, h⟩
  | succ n ih =>
    rcases ih with ⟨u, _, hu, hbooks⟩ | ⟨u, hu⟩
    · rw [steps_succ_of_ok hu]
      rcases hbooks.coupled.step_unblamed hc with ⟨t, -, ht, -⟩ | hover
      · obtain ⟨ledger, hnext⟩ := hbooks.step hc ht
        exact .inl ⟨t, ledger, ht, hnext⟩
      · exact .inr hover
    · right
      show ∃ t, (Session.steps n s).andThen Session.step = .overflow t
      rw [hu]
      exact ⟨u, rfl⟩

/-- With the requests of a channel in its own two pseudo-channels, both books are the same. -/
theorem sameBooks (h : s.Enrolled c queues ledger) (hrouted : Routed c queues) : s.SameBooks where
  clock := h.coupled.clock.symm
  outstanding := h.coupled.size_index
  pending := h.coupled.keys_perm
  directions := by
    rw [h.coupled.records.size_slots, h.coupled.tallied.directions, h.coupled.admitted]
  perChannel := by
    rw [h.coupled.records.size_slots,
      ← Tally.sum_countP (fun e : Entry => c.fields.channel e.request.address) ledger]
    exact Finset.sum_congr rfl fun j _ => (h.perChannel j).symm
  admitted k := by
    have hchannel := h.coupled.routed_entry hrouted
    rw [h.coupled.records.admitted, h.perChannel, h.perChannel,
      List.countP_eq_countP_filter_add ledger _ fun e => c.fields.channel e.request.address = lower k,
      List.countP_filter, List.countP_filter]
    have hne := lower_ne_upper k
    congr 1
    · refine List.countP_congr fun e he => ?_
      rw [← hchannel e he]
      simp only [Bool.and_eq_true, decide_eq_true_eq, half_eq_iff]
      exact ⟨fun h => h.2, fun h => ⟨.inl h, h⟩⟩
    · refine List.countP_congr fun e he => ?_
      rw [← hchannel e he]
      simp only [Bool.and_eq_true, Bool.not_eq_true', decide_eq_true_eq, decide_eq_false_iff_not,
        half_eq_iff]
      exact ⟨fun h => h.1.resolve_left h.2, fun h => ⟨.inr h, fun hl => hne (hl ▸ h)⟩⟩

end Enrolled

end Session

/-- **Driver and memory keep the same books.** Let a configuration pass its check, and let a trace
be distributed over the channels of the memory that it describes. Then any number of steps leaves
both books the same, unless a number has left 64 bits on the way. So no completion is ever
unmatched. -/
theorem same_books (c : MemoryConfig) (strategy : Strategy) (trace : List Request)
    (hvalid : c.validate = .ok ()) :
    ∃ memory queues, c.build = some memory ∧
      distribute (MemorySystem.channelOf memory) (MemorySystem.bankOf memory) strategy trace =
        .ok queues ∧
      ∀ n, ((∃ s, Session.steps n (Session.opening queues memory Silence.mk).attach = .ok s ∧
            s.SameBooks) ∨
          ∃ s, Session.steps n (Session.opening queues memory Silence.mk).attach = .overflow s) ∧
        ∀ key cycle s, Session.steps n (Session.opening queues memory Silence.mk).attach ≠
          .stop (.unmatched key cycle) s := by
  have hc := MemoryConfig.usable_of_validate hvalid
  obtain ⟨memory, hbuild⟩ := MemoryConfig.exists_build hc
  obtain ⟨hfields, -⟩ := MemoryConfig.orderly_of_build hc hbuild
  refine ⟨memory, c.queues strategy trace, hbuild, distribute_built hc hfields strategy trace,
    fun n => ?_⟩
  have hopening : (Session.opening (c.queues strategy trace) memory Silence.mk).attach.Enrolled c
      (c.queues strategy trace) [] := .opening hc hbuild
  rcases hopening.steps hc n with ⟨s, ledger, hs, hbooks⟩ | ⟨s, hs⟩
  · rw [hs]
    exact ⟨.inl ⟨s, rfl, hbooks.sameBooks (routed_queues c strategy trace)⟩, nofun⟩
  · rw [hs]
    exact ⟨.inr ⟨s, rfl⟩, nofun⟩

/-- The replay of two rows of a bank comes to its end, with the same books. -/
theorem same_books_twoRows : ∃ memory queues n s, narrowRows.validate = .ok () ∧
    narrowRows.build = some memory ∧
    distribute (MemorySystem.channelOf memory) (MemorySystem.bankOf memory) .bankParallel twoRows =
      .ok queues ∧
    Session.steps n (Session.opening queues memory Silence.mk).attach = .ok s ∧
    s.driver.isDone = true ∧ s.SameBooks := by
  have hc : narrowRows.Usable := MemoryConfig.usable_of_validate rfl
  obtain ⟨memory, queues, hbuild, hdistribute, hbooks⟩ :=
    same_books narrowRows .bankParallel twoRows rfl
  have hfits := replay_ne_overflow hc hbuild .bankParallel twoRows (by decide)
  obtain ⟨report, last, -, hreplay, -⟩ := exists_timetable hc hbuild hfits
  obtain ⟨queues', final, hdistribute', hrun, -⟩ := replay_eq_ok hreplay
  obtain rfl := Except.ok.inj (hdistribute.symm.trans hdistribute')
  obtain ⟨n, s, hsteps, hdone, -⟩ := Session.run_eq_ok hrun
  rcases (hbooks n).1 with ⟨t, ht, hsame⟩ | ⟨t, ht⟩
  · obtain rfl := Progress.ok_inj (hsteps.symm.trans ht)
    exact ⟨memory, queues, n, s, rfl, hbuild, hdistribute, hsteps, hdone, hsame⟩
  · cases hsteps.symm.trans ht

end MemoryReplay
