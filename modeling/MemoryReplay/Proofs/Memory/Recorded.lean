import MemoryReplay.Proofs.Replay.Phases
import MemoryReplay.Replay.Report

/-!
# A memory that keeps a record

To say what a replay asks of a memory, the memory is put into one that writes down every call.
Nobody can tell the difference: a session over the recording memory goes through the same steps.

- `Recorded σ`: a memory with the calls it has seen, and `Recorded.ticks`. `Recorded.reports`: the
  completions that it has reported, each with its cycle.
- `MemorySystem.Projects f`: `f` turns one memory into another that answers alike.
- `Session.steps_mapMemory`, `Session.run_mapMemory`: a replay over a memory that answers alike is
  the same replay.
- `Session.recorded`: a session with a record from now on. `Session.steps_ticks`: a step ticks the
  memory once.
-/

namespace MemoryReplay

/-- A call that changes a memory, with its answer. -/
inductive MemoryCall where
  | accepts (address : UInt64) (direction : Direction) (answer : Bool)
  | submit (address : UInt64) (direction : Direction)
  | tick (events : List Completion)
  deriving Repr, DecidableEq

/-- A memory and the calls it has seen, in their order. -/
structure Recorded (σ : Type) where
  memory : σ
  calls : List MemoryCall := []

namespace Recorded

variable {σ : Type}

/-- The record with one more call, over the memory after it. -/
def note (m : Recorded σ) (call : MemoryCall) (memory : σ) : Recorded σ :=
  { memory, calls := m.calls ++ [call] }

instance [MemorySystem σ] : MemorySystem (Recorded σ) where
  channelOf m := MemorySystem.channelOf m.memory
  bankOf m := MemorySystem.bankOf m.memory
  bus m := MemorySystem.bus m.memory
  accepts m a direction := (MemorySystem.accepts m.memory a direction).map fun (answer, memory) =>
    (answer, m.note (.accepts a direction answer) memory)
  submit m a direction := (MemorySystem.submit m.memory a direction).map (m.note (.submit a direction))
  attach m := { m with memory := MemorySystem.attach m.memory }
  tick m := (MemorySystem.tick m.memory).map fun (memory, events) =>
    (m.note (.tick events) memory, events)
  report m := MemorySystem.report m.memory

/-- Whether a call is a tick. -/
def isTick : MemoryCall → Bool
  | .tick _ => true
  | _ => false

/-- The number of times that the memory was ticked. -/
def ticks (m : Recorded σ) : Nat := m.calls.countP isTick

@[simp] theorem ticks_note (m : Recorded σ) (call : MemoryCall) (memory : σ) :
    (m.note call memory).ticks = m.ticks + if isTick call then 1 else 0 := by
  simp [ticks, note, List.countP_append, List.countP_cons]

/-- The completions that a call has reported. -/
def eventsOf : MemoryCall → List Completion
  | .tick events => events
  | _ => []

/-- The completions that calls have reported, after some number of ticks: each with the number of
ticks up to the one that reported it. -/
def reportsFrom (ticks : Nat) : List MemoryCall → List (Completion × Nat)
  | [] => []
  | call :: rest => (eventsOf call).map (fun key => (key, ticks + 1)) ++
      reportsFrom (ticks + if isTick call then 1 else 0) rest

/-- The completions reported so far, in order, each with the cycle that its tick led to. -/
def reports (m : Recorded σ) : List (Completion × Nat) := reportsFrom 0 m.calls

theorem reportsFrom_concat (ticks : Nat) (calls : List MemoryCall) (call : MemoryCall) :
    reportsFrom ticks (calls ++ [call]) = reportsFrom ticks calls ++
      (eventsOf call).map fun key => (key, ticks + calls.countP isTick + 1) := by
  induction calls generalizing ticks with
  | nil => simp [reportsFrom]
  | cons first rest ih =>
    have hticks : ticks + (if isTick first then 1 else 0) + rest.countP isTick =
        ticks + (first :: rest).countP isTick := by
      rw [List.countP_cons]
      omega
    rw [List.cons_append, reportsFrom, ih, hticks, reportsFrom, List.append_assoc]

@[simp] theorem reports_note (m : Recorded σ) (call : MemoryCall) (memory : σ) :
    (m.note call memory).reports =
      m.reports ++ (eventsOf call).map fun key => (key, m.ticks + 1) := by
  unfold reports note ticks
  rw [reportsFrom_concat, Nat.zero_add]

section

variable [MemorySystem σ] {m m' : Recorded σ} {a : UInt64} {direction : Direction}

theorem accepts_eq_some {answer : Bool}
    (h : MemorySystem.accepts m a direction = some (answer, m')) :
    ∃ memory, MemorySystem.accepts m.memory a direction = some (answer, memory) ∧
      m' = m.note (.accepts a direction answer) memory := by
  obtain ⟨⟨_, memory⟩, hasked, hpair⟩ := Option.map_eq_some_iff.mp h
  cases hpair
  exact ⟨memory, hasked, rfl⟩

theorem submit_eq_some (h : MemorySystem.submit m a direction = some m') :
    ∃ memory, MemorySystem.submit m.memory a direction = some memory ∧
      m' = m.note (.submit a direction) memory := by
  obtain ⟨memory, hgiven, rfl⟩ := Option.map_eq_some_iff.mp h
  exact ⟨memory, hgiven, rfl⟩

theorem tick_eq_some {events : List Completion} (h : MemorySystem.tick m = some (m', events)) :
    ∃ memory, MemorySystem.tick m.memory = some (memory, events) ∧
      m' = m.note (.tick events) memory := by
  obtain ⟨⟨memory, _⟩, hticked, hpair⟩ := Option.map_eq_some_iff.mp h
  cases hpair
  exact ⟨memory, hticked, rfl⟩

end

end Recorded

/-- `f` turns a memory into one that gives the same answers. -/
structure MemorySystem.Projects {σ τ : Type} [MemorySystem σ] [MemorySystem τ] (f : σ → τ) :
    Prop where
  accepts : ∀ m a d, accepts (f m) a d = (accepts m a d).map fun (answer, m) => (answer, f m)
  submit : ∀ m a d, submit (f m) a d = (submit m a d).map f
  attach : ∀ m, attach (f m) = f (attach m)
  tick : ∀ m, tick (f m) = (tick m).map fun (m, events) => (f m, events)
  report : ∀ m, report (f m) = report m
  bus : ∀ m, bus (f m) = bus m

/-- The record is never looked at. -/
theorem Recorded.projects (σ : Type) [MemorySystem σ] :
    MemorySystem.Projects (Recorded.memory : Recorded σ → σ) where
  accepts m a d := by
    show MemorySystem.accepts m.memory a d = Option.map _ (Option.map _ _)
    rw [Option.map_map]
    exact Option.map_id'.symm
  submit m a d := by
    show MemorySystem.submit m.memory a d = Option.map _ (Option.map _ _)
    rw [Option.map_map]
    exact Option.map_id'.symm
  attach _ := rfl
  tick m := by
    show MemorySystem.tick m.memory = Option.map _ (Option.map _ _)
    rw [Option.map_map]
    exact Option.map_id'.symm
  report _ := rfl
  bus _ := rfl

/-- The session over another memory. -/
def Session.mapMemory {σ τ ω : Type} (f : σ → τ) (s : Session σ ω) : Session τ ω :=
  { driver := s.driver, memory := f s.memory, observer := s.observer }

/-- The progress of the session over another memory. -/
def Progress.mapMemory {σ τ ω : Type} (f : σ → τ) (p : Progress σ ω) : Progress τ ω :=
  (p.1, p.2.mapMemory f)

section

variable {σ τ ω : Type} {f : σ → τ}

theorem Progress.mapMemory_andThen {p : Progress σ ω} {next : Session σ ω → Progress σ ω}
    (next' : Session τ ω → Progress τ ω)
    (h : ∀ s, (next s).mapMemory f = next' (s.mapMemory f)) :
    (p.andThen next).mapMemory f = (p.mapMemory f).andThen next' := by
  rcases p with ⟨_ | _, s⟩
  · rfl
  · exact h s

namespace Session

theorem tell_mapMemory (event : Attempt ω Unit) (s : Session σ ω) :
    (tell event s).mapMemory f = tell event (s.mapMemory f) := by
  unfold tell mapMemory
  dsimp only
  split <;> rfl

theorem settle_mapMemory [Observer ω] (key : Completion) (s : Session σ ω) :
    (s.settle key).mapMemory f = (s.mapMemory f).settle key := by
  unfold settle
  simp only [mapMemory]
  split
  · rfl
  · exact tell_mapMemory _ _

theorem settles_mapMemory [Observer ω] (keys : List Completion) :
    ∀ s : Session σ ω, (settles keys s).mapMemory f = settles keys (s.mapMemory f) := by
  induction keys with
  | nil => exact fun _ => rfl
  | cons key rest ih =>
    intro s
    show ((s.settle key).andThen (settles rest)).mapMemory f = _
    rw [Progress.mapMemory_andThen _ ih, settle_mapMemory]
    rfl

theorem deliver_mapMemory [Observer ω] (s : Session σ ω) :
    s.deliver.mapMemory f = (s.mapMemory f).deliver := by
  unfold deliver
  simp only [mapMemory]
  split
  · rfl
  · rw [Progress.mapMemory_andThen _ (settles_mapMemory _), tell_mapMemory]
    rfl

variable [MemorySystem σ] [MemorySystem τ] [Observer ω]

theorem offer_mapMemory (hf : MemorySystem.Projects f) (k : Fin channels) (s : Session σ ω) :
    (s.offer k).mapMemory f = (s.mapMemory f).offer k := by
  unfold offer
  simp only [mapMemory]
  split
  · rfl
  · next head rest _ =>
    rw [hf.accepts]
    rcases MemorySystem.accepts s.memory head.address head.direction with _ | ⟨_ | _, m⟩
    · rfl
    · rfl
    · simp only [Option.map_some]
      rw [hf.submit]
      rcases MemorySystem.submit m head.address head.direction with _ | m
      · rfl
      · exact tell_mapMemory _ _

theorem offers_mapMemory (hf : MemorySystem.Projects f) (ks : List (Fin channels)) :
    ∀ s : Session σ ω, (offers ks s).mapMemory f = offers ks (s.mapMemory f) := by
  induction ks with
  | nil => exact fun _ => rfl
  | cons k rest ih =>
    intro s
    show ((s.offer k).andThen (offers rest)).mapMemory f = _
    rw [Progress.mapMemory_andThen _ ih, offer_mapMemory hf]
    rfl

omit [Observer ω] in
theorem advance_mapMemory (hf : MemorySystem.Projects f) (s : Session σ ω) :
    s.advance.mapMemory f = (s.mapMemory f).advance := by
  unfold advance
  simp only [mapMemory]
  rw [hf.tick]
  rcases MemorySystem.tick s.memory with _ | ⟨m, events⟩
  · rfl
  · rcases Word.fits (s.driver.cycle + 1) <;> rfl

theorem step_mapMemory (hf : MemorySystem.Projects f) (s : Session σ ω) :
    s.step.mapMemory f = (s.mapMemory f).step := by
  have hcycle : ∀ s : Session σ ω,
      (s.advance.andThen deliver).mapMemory f = (s.mapMemory f).advance.andThen deliver := by
    intro s
    rw [Progress.mapMemory_andThen _ deliver_mapMemory, advance_mapMemory hf]
  have hrest : ∀ s : Session σ ω,
      ((offers (List.finRange channels) s).andThen fun s => s.advance.andThen deliver).mapMemory f =
        (offers (List.finRange channels) (s.mapMemory f)).andThen
          fun s => s.advance.andThen deliver := by
    intro s
    rw [Progress.mapMemory_andThen (fun s => s.advance.andThen deliver) hcycle, offers_mapMemory hf]
  unfold step
  rw [Progress.mapMemory_andThen (fun s => (offers (List.finRange channels) s).andThen
    fun s => s.advance.andThen deliver) hrest, tell_mapMemory]
  rfl

theorem steps_mapMemory (hf : MemorySystem.Projects f) (n : Nat) (s : Session σ ω) :
    (steps n s).mapMemory f = steps n (s.mapMemory f) := by
  induction n with
  | zero => rfl
  | succ n ih =>
    show ((steps n s).andThen step).mapMemory f = _
    rw [Progress.mapMemory_andThen _ (step_mapMemory hf), ih]
    rfl

theorem runFor_mapMemory (hf : MemorySystem.Projects f) (fuel : Nat) :
    ∀ s : Session σ ω, (runFor fuel s).mapMemory f = runFor fuel (s.mapMemory f) := by
  induction fuel with
  | zero =>
    intro s
    unfold runFor
    show Progress.mapMemory f (if s.driver.isDone then _ else _) = if s.driver.isDone then _ else _
    split <;> rfl
  | succ fuel ih =>
    intro s
    unfold runFor
    show Progress.mapMemory f (if s.driver.isDone then _ else _) = if s.driver.isDone then _ else _
    split
    · rfl
    · rw [Progress.mapMemory_andThen _ ih, step_mapMemory hf]

/-- A replay over a memory that answers alike has the same outcome, and ends in the same state
but for the memory. -/
theorem run_mapMemory (hf : MemorySystem.Projects f) (s : Session σ ω) :
    (s.mapMemory f).run = (s.run.1, s.run.2.mapMemory f) := by
  have hcomplete : (s.mapMemory f).complete = s.complete.mapMemory f := by
    unfold complete
    rw [Progress.mapMemory_andThen _ (tell_mapMemory (f := f) Observer.finish), runFor_mapMemory hf]
    show (runFor _ { driver := _, memory := MemorySystem.attach (f s.memory), observer := _ }).andThen _ = _
    rw [hf.attach]
    rfl
  unfold run
  rw [hcomplete]
  rcases s.complete with ⟨_ | _, t⟩
  · rfl
  · simp only [Progress.mapMemory, report, mapMemory]
    rw [hf.report, hf.bus]

end Session

end

/-! ### Sessions with a record -/

namespace Session

variable {σ ω : Type} [MemorySystem σ] [Observer ω]

omit [MemorySystem σ] [Observer ω] in
/-- The same session, with a record of the calls that its memory sees from now on. -/
def recorded (s : Session σ ω) : Session (Recorded σ) ω :=
  { driver := s.driver, memory := { memory := s.memory }, observer := s.observer }

theorem mapMemory_steps (n : Nat) (s : Session σ ω) :
    (steps n s.recorded).mapMemory Recorded.memory = steps n s :=
  steps_mapMemory (Recorded.projects σ) n s.recorded

/-- Steps over a memory are those over the same memory with a record. -/
theorem exists_recorded {n : Nat} {s t : Session σ ω} (h : steps n s = .ok t) :
    ∃ final, steps n s.recorded = .ok final ∧ final.mapMemory Recorded.memory = t := by
  rw [← mapMemory_steps] at h
  rcases hrecorded : steps n s.recorded with ⟨outcome, final⟩
  rw [hrecorded] at h
  obtain ⟨rfl, hfinal⟩ := Prod.mk.inj h
  exact ⟨final, rfl, hfinal⟩

/-- Offers tick no memory, and nothing is reported in them. -/
theorem offer_recorded {k : Fin channels} {s t : Session (Recorded σ) ω} (h : s.offer k = .ok t) :
    t.memory.ticks = s.memory.ticks ∧ t.memory.reports = s.memory.reports := by
  rcases offer_eq_ok h with ⟨-, rfl⟩ | ⟨_, _, _, -, hasked, rfl⟩ |
    ⟨_, _, _, _, -, hasked, hsubmit, -, hm⟩
  · exact ⟨rfl, rfl⟩
  · obtain ⟨memory, -, rfl⟩ := Recorded.accepts_eq_some hasked
    simp [Recorded.isTick, Recorded.eventsOf]
  · obtain ⟨_, -, rfl⟩ := Recorded.accepts_eq_some hasked
    obtain ⟨_, -, rfl⟩ := Recorded.submit_eq_some hsubmit
    rw [hm]
    simp [Recorded.isTick, Recorded.eventsOf]

theorem offers_ticks {ks : List (Fin channels)} {s t : Session (Recorded σ) ω}
    (h : offers ks s = .ok t) : t.memory.ticks = s.memory.ticks := by
  refine offers_invariant (P := fun _ t => t.memory.ticks = s.memory.ticks) ?_ ks rfl h
  intro k rest u v hu hoffer
  exact (offer_recorded hoffer).1.trans hu

theorem step_ticks {s t : Session (Recorded σ) ω} (h : s.step = .ok t) :
    t.memory.ticks = s.memory.ticks + 1 := by
  obtain ⟨u, v, w, -, hu, hoffers, hadvance, hdeliver⟩ := step_eq_ok h
  obtain ⟨_, _, htick, -, rfl⟩ := advance_eq_ok hadvance
  obtain ⟨x, -, hx, hsettles⟩ := deliver_eq_ok hdeliver
  obtain ⟨memory, -, rfl⟩ := Recorded.tick_eq_some htick
  rw [(settles_frame hsettles).2.2.2.2, hx, ← hu, ← offers_ticks hoffers]
  simp [Recorded.isTick]

theorem steps_ticks {n : Nat} {s t : Session (Recorded σ) ω} (h : steps n s = .ok t) :
    t.memory.ticks = s.memory.ticks + n := by
  induction n generalizing t with
  | zero => exact Progress.ok_inj h ▸ rfl
  | succ n ih =>
    obtain ⟨u, hu, ht⟩ := steps_succ_eq_ok h
    rw [step_ticks ht, ih hu]
    rfl

end Session

end MemoryReplay
