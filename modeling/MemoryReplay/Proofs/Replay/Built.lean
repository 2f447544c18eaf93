import MemoryReplay.Proofs.Distribution.Queues
import MemoryReplay.Proofs.Replay.Coupling
import MemoryReplay.Proofs.Replay.Soundness

/-!
# Replays of traces on built-in memories

From a trace and a configuration to the steps of a quiet replay, and from its steps to a report.

- `MemoryConfig.queues`: the queues of a trace. `replay_built`: a replay of the trace is a run
  over them.
- `Coupled.opening`: a replay on a memory just built begins with books and memory in step.
- `run_of_steps`: steps that leave nothing to do make a report.
-/

namespace MemoryReplay

/-- The queues into which a trace is distributed. -/
def MemoryConfig.queues (c : MemoryConfig) (strategy : Strategy) (trace : List Request) :
    Vector (List Request) channels :=
  Vector.ofFn (Distribution.queueOf strategy c.fields.channel c.fields.bank trace)

section

variable {c : MemoryConfig} {m : QueuedMemory Service}

theorem distribute_built (hc : c.Usable) (hm : m.fields = c.fields) (strategy : Strategy)
    (trace : List Request) :
    Distribution.distribute (MemorySystem.channelOf m) (MemorySystem.bankOf m) strategy trace =
      .ok (c.queues strategy trace) := by
  have hchannel : MemorySystem.channelOf m = fun a => some (c.fields.channel a).val := by
    funext a
    show (m.fields.channelOf? a).map Fin.val = _
    rw [hm, hc.fields.channelOf?_eq]
    rfl
  have hbank : MemorySystem.bankOf m = fun a => some (c.fields.bank a) := by
    funext a
    show m.fields.bankOf? a = _
    rw [hm, hc.fields.bankOf?_eq]
  rw [hchannel, hbank]
  exact Distribution.distribute_eq strategy c.fields.channel c.fields.bank trace

theorem replay_built (hc : c.Usable) (hm : m.fields = c.fields) (strategy : Strategy)
    (trace : List Request) {result : Outcome SimError RunReport} {last : QuietSession}
    (hrun : (Session.opening (c.queues strategy trace) m Silence.mk).run = (result, last)) :
    replay strategy trace m Silence.mk = (result, last.memory, last.observer) := by
  unfold Session.opening at hrun
  unfold replay
  rw [distribute_built hc hm]
  dsimp only
  rw [hrun]

theorem MemoryConfig.total_queues (c : MemoryConfig) (strategy : Strategy) (trace : List Request) :
    ∑ k, ((c.queues strategy trace).get k).length = trace.length := by
  rw [← Distribution.sum_length_queueOf strategy c.fields.channel c.fields.bank trace]
  exact Finset.sum_congr rfl fun k _ => by rw [MemoryConfig.queues, Tally.get_ofFn]

end

namespace Session

variable {c : MemoryConfig} {queues : Vector (List Request) channels} {m : QueuedMemory Service}

theorem Coupled.opening (hc : c.Usable) (hbuild : c.build = some m) :
    (opening queues m Silence.mk).attach.Coupled c queues [] [] := by
  obtain ⟨-, hnow, hadmitted, -, hpending, horderly, htallied⟩ := c.orderly_of_build hc hbuild
  refine ⟨Driver.ofQueues_records queues, Driver.ofQueues_conserves queues, rfl, hnow, horderly,
    htallied, hadmitted, fun key => ?_⟩
  show 0 = m.pending.countP _ + 0
  rw [hpending, List.countP_nil]

theorem run_of_ok {s t : QuietSession}
    (h : runFor (UInt64.size - s.driver.cycle) s.attach = .ok t) : s.run = (.ok t.report, t) := by
  have hcomplete : s.complete = .ok t := by
    unfold complete
    rw [h]
    rfl
  unfold run
  rw [hcomplete]
  rfl

theorem run_of_overflow {s t : QuietSession}
    (h : runFor (UInt64.size - s.driver.cycle) s.attach = .overflow t) :
    s.run = (.error .overflow, t) := by
  have hcomplete : s.complete = .overflow t := by
    unfold complete
    rw [h]
    rfl
  unfold run
  rw [hcomplete]
  rfl

/-- Steps after which nothing is left to do contain a replay to its end. -/
theorem run_of_steps {n : Nat} {s t : QuietSession} (hn : n ≤ UInt64.size - s.driver.cycle)
    (h : steps n s.attach = .ok t) (hdone : t.driver.isDone = true) :
    ∃ i ≤ n, ∃ u, steps i s.attach = .ok u ∧ u.driver.isDone = true ∧ s.run = (.ok u.report, u) := by
  obtain ⟨i, hi, u, hu, hudone, hrun⟩ := runFor_of_steps hn h hdone
  exact ⟨i, hi, u, hu, hudone, run_of_ok hrun⟩

end Session

end MemoryReplay
