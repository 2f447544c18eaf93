import MemoryReplay.EventLog.Logger
import MemoryReplay.Memory.System
import MemoryReplay.Replay.Driver

/-!
# Replay sessions

A driver, a memory and an observer, moved on together. A step has three phases: each channel in
order offers the head of its queue once; the memory is moved on by one cycle; and the completions
it reported are matched to the oldest requests that they can mean.

- `Session σ ω`: the three of them.
- `Progress`: a session moved on, or stopped by a fault with all that was done before it.
- `Session.step`: one cycle. `Session.offers`, `Session.advance` and `Session.deliver` are its
  phases.
- `Session.runFor`: steps until every request has completed.
-/

namespace MemoryReplay

/-- A replay under way. -/
structure Session (σ ω : Type) where
  driver : Driver
  memory : σ
  observer : ω

/-- The result of moving a session on: whether a fault stopped it, and the session then. -/
abbrev Progress (σ ω : Type) := Outcome SimError Unit × Session σ ω

namespace Progress

variable {σ ω : Type}

/-- Nothing stopped the session. -/
def ok (s : Session σ ω) : Progress σ ω := (.ok (), s)

/-- An error stopped the session. -/
def stop (e : SimError) (s : Session σ ω) : Progress σ ω := (.error (.reported e), s)

/-- A number that left 64 bits stopped the session. -/
def overflow (s : Session σ ω) : Progress σ ω := (.error .overflow, s)

/-- Goes on with the next phase unless a fault stopped the session. -/
def andThen (progress : Progress σ ω) (next : Session σ ω → Progress σ ω) : Progress σ ω :=
  match progress with
  | (.ok (), s) => next s
  | (.error e, s) => (.error e, s)

end Progress

namespace Session

variable {σ ω : Type}

/-- Tells the observer of an event. -/
def tell (event : Attempt ω Unit) (s : Session σ ω) : Progress σ ω :=
  match event s.observer with
  | (.ok (), observer) => .ok { s with observer }
  | (.error e, observer) => .stop (.log e) { s with observer }

variable [MemorySystem σ] [Observer ω]

/-- A channel offers the head of its queue; if the memory takes it, it is admitted. -/
def offer (channel : Fin channels) (s : Session σ ω) : Progress σ ω :=
  match s.driver.queues.get channel with
  | [] => .ok s
  | head :: rest =>
    match MemorySystem.accepts s.memory head.address head.direction with
    | none => .overflow s
    | some (false, memory) => .ok { s with memory }
    | some (true, memory) =>
      match MemorySystem.submit memory head.address head.direction with
      | none => .overflow { s with memory }
      | some memory =>
        tell (Observer.issued (head.markIssued s.driver.cycle))
          { s with driver := s.driver.issue channel head rest, memory }

/-- The channels of a list offer their heads one after the other. -/
def offers : List (Fin channels) → Session σ ω → Progress σ ω
  | [], s => .ok s
  | channel :: rest, s => (s.offer channel).andThen (offers rest)

/-- The memory is moved on by one cycle, and so is the clock. -/
def advance (s : Session σ ω) : Progress σ ω :=
  match MemorySystem.tick s.memory, Word.fits (s.driver.cycle + 1) with
  | some (memory, events), some cycle =>
    .ok { s with
      memory
      driver := { s.driver with cycle, mailbox := s.driver.mailbox ++ events } }
  | _, _ => .overflow s

/-- A completion is matched to the request that it means. -/
def settle (key : Completion) (s : Session σ ω) : Progress σ ω :=
  let (request, driver) := s.driver.match? key
  let s := { s with driver }
  match request with
  | none => .stop (.unmatched key s.driver.cycle) s
  | some request => tell (Observer.returned request) s

/-- Completions are matched one after the other. -/
def settles : List Completion → Session σ ω → Progress σ ω
  | [], s => .ok s
  | key :: rest, s => (s.settle key).andThen (settles rest)

/-- The mailbox is emptied and its completions are matched. -/
def deliver (s : Session σ ω) : Progress σ ω :=
  let events := s.driver.mailbox
  let s := { s with driver := { s.driver with mailbox := [] } }
  match events with
  | [] => .ok s
  | _ => (tell (Observer.startCycle s.driver.cycle) s).andThen (settles events)

/-- One cycle of the replay. -/
def step (s : Session σ ω) : Progress σ ω :=
  (tell (Observer.startCycle s.driver.cycle) s).andThen fun s =>
  (offers (List.finRange channels) s).andThen fun s =>
  s.advance.andThen deliver

/-- Cycles of the replay until every request has completed, at most `left` of them. -/
def runFor : Nat → Session σ ω → Progress σ ω
  | 0, s => if s.driver.isDone then .ok s else .overflow s
  | left + 1, s => if s.driver.isDone then .ok s else s.step.andThen (runFor left)

/-- From now on the memory reports its completions to this session. -/
def attach (s : Session σ ω) : Session σ ω :=
  { s with memory := MemorySystem.attach s.memory }

/-- The memory alone is moved on by one cycle. -/
def tickMemory (s : Session σ ω) : Checked (Session σ ω) := do
  let (memory, events) ← MemorySystem.tick s.memory
  return { s with memory, driver := { s.driver with mailbox := s.driver.mailbox ++ events } }

end Session

end MemoryReplay
