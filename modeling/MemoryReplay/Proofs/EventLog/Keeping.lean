import Mathlib.Logic.Function.Basic
import MemoryReplay.Proofs.EventLog.Streams
import MemoryReplay.Proofs.Replay.Observers

/-!
# What an event log keeps

A log over a device that takes all text keeps every event in its streams, whatever its verbosity
is and whether or not there is a console. A diary is such a log without text.

- `ReliableDevice`: a device that takes all text and keeps it. `Transcript.reliable`: the device in
  memory, while no sink is broken.
- `Diary`: the events of a replay with their cycles, as an observer.
- `EventLog.Adds`: what an action adds to the streams of a log. `startCycle_adds`, `issued_adds`,
  `returned_adds`, `finish_adds`: what it is told of, and nothing else.
- `EventLog.Keeps`: the streams of a log tell of the events of a diary. `keeps_follows`: they go on
  to do so, whatever the two are told of.
-/

namespace MemoryReplay

open Text

/-! ### Actions that succeed -/

section

variable {τ α β : Type}

/-- What follows an action that succeeded. -/
theorem Attempt.bind_of_ok {x : Attempt τ α} {next : α → Attempt τ β} {s t : τ} {a : α}
    (h : x s = (.ok a, t)) : (x >>= next) s = next a t := by
  show ExceptT.bindCont next (x s).1 (x s).2 = _
  rw [h]
  rfl

/-- Nothing follows an action that was refused. -/
theorem Attempt.bind_of_error {x : Attempt τ α} {next : α → Attempt τ β} {s t : τ}
    {e : DeviceError} (h : x s = (.error e, t)) : (x >>= next) s = (.error e, t) := by
  show ExceptT.bindCont next (x s).1 (x s).2 = _
  rw [h]
  rfl

/-- Only the result of an action matters to what follows. -/
theorem Attempt.bind_congr {x y : Attempt τ α} {next : α → Attempt τ β} {s : τ}
    (h : x s = y s) : (x >>= next) s = (y >>= next) s := by
  show ExceptT.bindCont next (x s).1 (x s).2 = ExceptT.bindCont next (y s).1 (y s).2
  rw [h]

end

/-- A device on which every action succeeds as long as it works, and which keeps what is written
to each sink. -/
structure ReliableDevice (τ : Type) [LogDevice τ] where
  works : τ → Prop
  /-- The text of a sink. -/
  text : τ → Sink → String
  write : ∀ {device}, works device → ∀ sink line, ∃ after,
    LogDevice.write sink line device = (.ok (), after) ∧ works after ∧
      text after = Function.update (text device) sink (text device sink ++ line)
  flush : ∀ {device}, works device → ∀ sink, ∃ after,
    LogDevice.flush sink device = (.ok (), after) ∧ works after ∧ text after = text device

namespace Transcript

theorem text_cons (t : Transcript) (sink : Sink) (line : String) :
    ({ t with written := (sink, line) :: t.written } : Transcript).text =
      Function.update t.text sink (t.text sink ++ line) := by
  funext other
  unfold text
  by_cases hsame : other = sink
  · subst hsame
    rw [Function.update_self, List.filter_cons_of_pos (by simp), List.map_cons, List.reverse_cons,
      String.join_append]
    simp
  · rw [Function.update_of_ne hsame, List.filter_cons_of_neg (by simpa using Ne.symm hsame)]

theorem reach_eq (t : Transcript) (sink : Sink) :
    reach sink t = (if sink ∈ t.broken then .error .broken else .ok (), t) := by
  unfold reach
  show (if sink ∈ t.broken then throw .broken else pure () : Attempt Transcript Unit) t = _
  split <;> rfl

theorem reach_of_works {t : Transcript} (h : t.broken = []) (sink : Sink) :
    reach sink t = (.ok (), t) := by
  rw [reach_eq, h, if_neg List.not_mem_nil]

/-- A transcript takes all text while no sink is broken. -/
def reliable : ReliableDevice Transcript where
  works t := t.broken = []
  text := text
  write := by
    intro t h sink line
    refine ⟨{ t with written := (sink, line) :: t.written }, ?_, h, text_cons t sink line⟩
    exact Attempt.bind_of_ok (reach_of_works h sink)
  flush := by
    intro t h sink
    exact ⟨t, reach_of_works h sink, h, rfl⟩

end Transcript

/-! ### Diaries -/

/-- Whether an event belongs in a stream. -/
def Stream.takes : Stream → ReplayEvent → Bool
  | .all, _ => true
  | .issue, e => e.isIssue
  | .completion, e => !e.isIssue

/-- The events of a replay, each with its cycle. -/
structure Diary where
  /-- The cycle of the events to come. -/
  cycle : Nat := 0
  events : List (Nat × ReplayEvent) := []

namespace Diary

/-- An event of the cycle. -/
def note (d : Diary) (e : ReplayEvent) : Diary := { d with events := d.events ++ [(d.cycle, e)] }

/-- The events that belong in a stream. -/
def ofStream (d : Diary) (stream : Stream) : List (Nat × ReplayEvent) :=
  d.events.filter fun p => stream.takes p.2

theorem ofStream_note (d : Diary) (e : ReplayEvent) (stream : Stream) :
    (d.note e).ofStream stream =
      d.ofStream stream ++ if stream.takes e then [(d.cycle, e)] else [] := by
  unfold ofStream note
  rw [List.filter_append]
  by_cases htakes : stream.takes e = true
  · rw [if_pos htakes, List.filter_cons_of_pos (by exact htakes), List.filter_nil]
  · rw [if_neg htakes, List.filter_cons_of_neg (by exact htakes), List.filter_nil]

instance : Observer Diary where
  startCycle cycle := modify ({ · with cycle })
  issued r := modify (·.note (.issued r))
  returned r := modify (·.note (.returned r))
  finish := pure ()

end Diary

/-! ### The log over a reliable device -/

namespace EventLog

variable {τ : Type} {log : EventLog τ}

theorem onDevice_of_eq {α : Type} {action : Attempt τ α} {result : Except DeviceError α} {device : τ}
    (h : action log.device = (result, device)) :
    onDevice action log = (result, { log with device }) := by
  unfold onDevice
  rw [h]

/-- A stream that has stamped the cycle last is not changed by stamping it. -/
theorem stamped_eq_self {stream : Stream} (h : log.lastStamp stream = some log.cycle) :
    log.stamped stream = log := by
  cases stream <;> cases log <;> simp_all [lastStamp, stamped]

theorem lastStamp_stamped (stream other : Stream) : (log.stamped stream).lastStamp other =
    if other = stream then some log.cycle else log.lastStamp other := by
  cases stream <;> cases other <;> rfl

variable [LogDevice τ] {R : ReliableDevice τ}

theorem onDevice_write (log : EventLog τ) (h : R.works log.device) (sink : Sink) (line : String) :
    ∃ device,
    onDevice (LogDevice.write sink line) log = (.ok (), { log with device }) ∧ R.works device ∧
      R.text device =
        Function.update (R.text log.device) sink (R.text log.device sink ++ line) := by
  obtain ⟨device, hwrite, hworks, htext⟩ := R.write h sink line
  exact ⟨device, onDevice_of_eq hwrite, hworks, htext⟩

theorem onDevice_flush (log : EventLog τ) (h : R.works log.device) (sink : Sink) : ∃ device,
    onDevice (LogDevice.flush sink) log = (.ok (), { log with device }) ∧ R.works device ∧
      R.text device = R.text log.device := by
  obtain ⟨device, hflush, hworks, htext⟩ := R.flush h sink
  exact ⟨device, onDevice_of_eq hflush, hworks, htext⟩

/-- A line is written behind its margin, and by then the stream has stamped the cycle. -/
theorem emit_eq (stream : Stream) (line : String) (log : EventLog τ) : emit stream line log =
    match LogDevice.write (.stream stream) (margin (log.lastStamp stream) log.cycle) log.device with
    | (.ok (), device) => onDevice (LogDevice.write (.stream stream) (line ++ "\n"))
        { log.stamped stream with device }
    | (.error e, device) => (.error e, { log with device }) := by
  unfold emit
  refine (Attempt.bind_of_ok rfl).trans ?_
  unfold margin
  by_cases hstamped : log.lastStamp stream = some log.cycle
  · rw [if_pos hstamped, if_pos hstamped, stamped_eq_self hstamped]
    rcases hwrite : LogDevice.write (.stream stream) indentation log.device with ⟨_ | _, device⟩
    · exact Attempt.bind_of_error (onDevice_of_eq hwrite)
    · exact Attempt.bind_of_ok (onDevice_of_eq hwrite)
  · rw [if_neg hstamped, if_neg hstamped]
    rcases hwrite : LogDevice.write (.stream stream) (stamp log.cycle) log.device with ⟨_ | _, device⟩
    · exact Attempt.bind_of_error (onDevice_of_eq hwrite)
    · have hcomm : ({ log with device } : EventLog τ).stamped stream =
          { log.stamped stream with device } := by
        cases stream <;> rfl
      refine (Attempt.bind_of_ok (onDevice_of_eq hwrite)).trans ((Attempt.bind_of_ok rfl).trans ?_)
      show onDevice _ (({ log with device } : EventLog τ).stamped stream) = _
      rw [hcomm]

theorem emit_of_written {stream : Stream} {line : String} {before device : τ}
    (hmargin : LogDevice.write (.stream stream) (margin (log.lastStamp stream) log.cycle)
      log.device = (.ok (), before))
    (hline : LogDevice.write (.stream stream) (line ++ "\n") before = (.ok (), device)) :
    emit stream line log = (.ok (), { log.stamped stream with device }) := by
  rw [emit_eq, hmargin]
  exact onDevice_of_eq hline

/-- A sink that got the margin of a line and then the line got both. -/
theorem update_append_append {texts before after : Sink → String} {sink : Sink}
    {margin line : String}
    (hbefore : before = Function.update texts sink (texts sink ++ margin))
    (hafter : after = Function.update before sink (before sink ++ (line ++ "\n"))) :
    after = Function.update texts sink (texts sink ++ (margin ++ line ++ "\n")) := by
  rw [hafter, hbefore, Function.update_self, Function.update_idem, String.append_assoc,
    String.append_assoc]

theorem emit_of_works (h : R.works log.device) (stream : Stream) (line : String) : ∃ device,
    emit stream line log = (.ok (), { log.stamped stream with device }) ∧ R.works device ∧
      R.text device = Function.update (R.text log.device) (.stream stream)
        (R.text log.device (.stream stream) ++
          (margin (log.lastStamp stream) log.cycle ++ line ++ "\n")) := by
  obtain ⟨before, hmargin, hworks, hbefore⟩ :=
    R.write h (.stream stream) (margin (log.lastStamp stream) log.cycle)
  obtain ⟨device, hline, hworks, hafter⟩ := R.write hworks (.stream stream) (line ++ "\n")
  exact ⟨device, emit_of_written hmargin hline, hworks, update_append_append hbefore hafter⟩

/-! ### What is added to the streams -/

/-- A stream shows events: it has the text that is written of them, and has stamped their last
cycle last. -/
structure Shows (R : ReliableDevice τ) (log : EventLog τ) (stream : Stream)
    (events : List (Nat × ReplayEvent)) : Prop where
  text : R.text log.device (.stream stream) = unlines (written none events)
  last : log.lastStamp stream = lastCycle none events

/-- A log has become another one that shows more events of its cycle in each stream, and still
works. -/
structure Adds (R : ReliableDevice τ) (log after : EventLog τ) (more : Stream → List ReplayEvent) :
    Prop where
  works : R.works after.device
  cycle : after.cycle = log.cycle
  shows : ∀ stream events, Shows R log stream events →
    Shows R after stream (events ++ (more stream).map (log.cycle, ·))

theorem Adds.trans {middle after : EventLog τ} {first second : Stream → List ReplayEvent}
    (h : Adds R log middle first) (h' : Adds R middle after second) :
    Adds R log after fun stream => first stream ++ second stream where
  works := h'.works
  cycle := h'.cycle.trans h.cycle
  shows stream events hshows := by
    have hboth := h'.shows stream _ (h.shows stream events hshows)
    rwa [h.cycle, List.append_assoc, ← List.map_append] at hboth

/-- What changes neither the text nor the last stamp of a stream adds nothing. -/
theorem Adds.nothing {after : EventLog τ} (hworks : R.works after.device)
    (hcycle : after.cycle = log.cycle)
    (htext : ∀ stream, R.text after.device (.stream stream) = R.text log.device (.stream stream))
    (hlast : ∀ stream, after.lastStamp stream = log.lastStamp stream) :
    Adds R log after fun _ => [] where
  works := hworks
  cycle := hcycle
  shows stream events hshows := by
    rw [List.map_nil, List.append_nil]
    exact ⟨(htext stream).trans hshows.text, (hlast stream).trans hshows.last⟩

/-- What the device does for the console adds nothing. -/
theorem Adds.of_device {device : τ} (hworks : R.works device)
    (htext : ∀ stream, R.text device (.stream stream) = R.text log.device (.stream stream)) :
    Adds R log { log with device } fun _ => [] := by
  refine .nothing hworks rfl htext fun stream => ?_
  cases stream <;> rfl

theorem unlines_concat (lines : List String) (line : String) :
    unlines (lines ++ [line]) = unlines lines ++ (line ++ "\n") := by
  unfold unlines
  rw [List.map_append, String.join_append]
  simp

omit [LogDevice τ] in
/-- A stream with one more line shows one more event, and the others what they showed. -/
theorem shows_emitted {texts after : Sink → String} {stream other : Stream} {e : ReplayEvent}
    {events : List (Nat × ReplayEvent)} (device : τ)
    (hafter : after = Function.update texts (.stream stream) (texts (.stream stream) ++
      (margin (log.lastStamp stream) log.cycle ++ e.line ++ "\n")))
    (htext : texts (.stream other) = unlines (written none events))
    (hlast : log.lastStamp other = lastCycle none events) :
    after (.stream other) = unlines (written none
        (events ++ if other = stream then [(log.cycle, e)] else [])) ∧
      ({ log.stamped stream with device } : EventLog τ).lastStamp other =
        lastCycle none (events ++ if other = stream then [(log.cycle, e)] else []) := by
  have hstamped : ({ log.stamped stream with device } : EventLog τ).lastStamp other =
      (log.stamped stream).lastStamp other := by
    cases other <;> rfl
  rw [hstamped, lastStamp_stamped, hafter]
  by_cases hother : other = stream
  · subst hother
    rw [if_pos rfl, if_pos rfl, Function.update_self, written_concat, unlines_concat, htext, hlast,
      lastCycle_concat]
    exact ⟨rfl, rfl⟩
  · rw [if_neg hother, if_neg hother, List.append_nil,
      Function.update_of_ne (by simpa using hother)]
    exact ⟨htext, hlast⟩

theorem emit_adds (h : R.works log.device) (stream : Stream) (e : ReplayEvent) : ∃ after,
    emit stream e.line log = (.ok (), after) ∧
      Adds R log after fun other => if other = stream then [e] else [] := by
  obtain ⟨device, hemit, hworks, htext⟩ := emit_of_works h stream e.line
  refine ⟨_, hemit, hworks, ?_, fun other events hshows => ?_⟩
  · cases stream <;> rfl
  obtain ⟨hafter, hlast⟩ := shows_emitted device htext hshows.text hshows.last
  rw [apply_ite (List.map (log.cycle, ·)), List.map_singleton, List.map_nil]
  exact ⟨hafter, hlast⟩

/-- Text for the console is in no stream. -/
theorem onDevice_write_console (log : EventLog τ) (h : R.works log.device) (line : String) :
    ∃ after, onDevice (LogDevice.write .console line) log = (.ok (), after) ∧
      Adds R log after fun _ => [] := by
  obtain ⟨device, hwrite, hworks, htext⟩ := onDevice_write log h .console line
  refine ⟨_, hwrite, .of_device hworks fun stream => ?_⟩
  have hother : Sink.stream stream ≠ .console := nofun
  rw [htext, Function.update_of_ne hother]

theorem onDevice_flush_adds (log : EventLog τ) (h : R.works log.device) (sink : Sink) :
    ∃ after, onDevice (LogDevice.flush sink) log = (.ok (), after) ∧
      Adds R log after fun _ => [] := by
  obtain ⟨device, hflush, hworks, htext⟩ := onDevice_flush log h sink
  exact ⟨_, hflush, .of_device hworks fun stream => by rw [htext]⟩

/-- What is done only sometimes adds nothing if it never adds anything. -/
theorem adds_of_if (log : EventLog τ) (condition : Bool) (h : R.works log.device)
    {x : Attempt (EventLog τ) Unit}
    (hx : ∃ after, x log = (.ok (), after) ∧ Adds R log after fun _ => []) :
    ∃ after, (if condition then x else pure () : Attempt (EventLog τ) Unit) log = (.ok (), after) ∧
      Adds R log after fun _ => [] := by
  cases condition with
  | true => exact hx
  | false => exact ⟨log, rfl, .of_device h fun _ => rfl⟩

theorem echo_eq (colour line : String) (log : EventLog τ) : echo colour line log =
    (if log.hasConsole then onDevice (LogDevice.write .console (colour ++ line ++ plain ++ "\n"))
      else pure () : Attempt (EventLog τ) Unit) log :=
  Attempt.bind_of_ok rfl

theorem echo_adds (h : R.works log.device) (colour line : String) : ∃ after,
    echo colour line log = (.ok (), after) ∧ Adds R log after fun _ => [] := by
  rw [echo_eq]
  exact adds_of_if log log.hasConsole h
    (onDevice_write_console log h (colour ++ line ++ plain ++ "\n"))

/-- An event is shown if the verbosity says so, and then written to two streams. -/
theorem shown_and_emitted_adds (h : R.works log.device) (shows : Verbosity → Bool) (colour : String)
    (own : Stream) (e : ReplayEvent) : ∃ after,
    (do
      if shows (← get).verbosity then echo colour e.line
      emit .all e.line
      emit own e.line : Attempt (EventLog τ) Unit) log = (.ok (), after) ∧
    Adds R log after fun stream =>
      (if stream = .all then [e] else []) ++ if stream = own then [e] else [] := by
  by_cases hshown : shows log.verbosity = true
  · obtain ⟨log₁, hecho, h₁⟩ := echo_adds h colour e.line
    obtain ⟨log₂, hall, h₂⟩ := emit_adds h₁.works .all e
    obtain ⟨log₃, hown, h₃⟩ := emit_adds h₂.works own e
    refine ⟨log₃, (Attempt.bind_of_ok rfl).trans ?_, (h₁.trans h₂).trans h₃⟩
    rw [if_pos hshown]
    exact (Attempt.bind_of_ok hecho).trans ((Attempt.bind_of_ok hall).trans hown)
  · obtain ⟨log₁, hall, h₁⟩ := emit_adds h .all e
    obtain ⟨log₂, hown, h₂⟩ := emit_adds h₁.works own e
    refine ⟨log₂, (Attempt.bind_of_ok rfl).trans ?_, h₁.trans h₂⟩
    rw [if_neg hshown]
    exact (Attempt.bind_of_ok hall).trans hown

theorem issued_adds (h : R.works log.device) (r : Request) : ∃ after,
    issued r log = (.ok (), after) ∧
      Adds R log after fun stream => if stream.takes (.issued r) then [.issued r] else [] := by
  obtain ⟨after, hissued, hadds⟩ :=
    shown_and_emitted_adds h Verbosity.showsIssue green .issue (.issued r)
  refine ⟨after, hissued, ?_⟩
  convert hadds using 2 with stream
  cases stream <;> rfl

theorem returned_adds (h : R.works log.device) (r : Request) : ∃ after,
    returned r log = (.ok (), after) ∧
      Adds R log after fun stream => if stream.takes (.returned r) then [.returned r] else [] := by
  obtain ⟨after, hreturned, hadds⟩ :=
    shown_and_emitted_adds h Verbosity.showsCompletion blue .completion (.returned r)
  refine ⟨after, hreturned, ?_⟩
  convert hadds using 2 with stream
  cases stream <;> rfl

/-- The console shows a cycle that it does not show yet. -/
theorem startCycle_eq (cycle : Nat) (log : EventLog τ) : startCycle cycle log =
    if log.verbosity.showsCycle && log.shown ≠ some cycle then
      (if log.hasConsole then do
          onDevice (LogDevice.write .console (cyan ++ stamp cycle ++ plain ++ "\r"))
          onDevice (LogDevice.flush .console)
        else pure () : Attempt (EventLog τ) Unit) { log with cycle, shown := some cycle }
    else (.ok (), { log with cycle }) := by
  refine (Attempt.bind_of_ok rfl).trans ((Attempt.bind_of_ok rfl).trans ?_)
  dsimp only
  split
  · exact Attempt.bind_of_ok rfl
  · rfl

/-- A cycle begins without a line in any stream. -/
theorem startCycle_adds (h : R.works log.device) (cycle : Nat) : ∃ after,
    startCycle cycle log = (.ok (), after) ∧ Adds R { log with cycle } after fun _ => [] := by
  let log₁ : EventLog τ := { log with cycle }
  let log₂ : EventLog τ := { log₁ with shown := some cycle }
  have hshown : Adds R log₁ log₂ fun _ => [] := by
    refine .nothing h rfl (fun _ => rfl) fun stream => ?_
    cases stream <;> rfl
  have hconsole : ∃ after, (do
      onDevice (LogDevice.write .console (cyan ++ stamp cycle ++ plain ++ "\r"))
      onDevice (LogDevice.flush .console) : Attempt (EventLog τ) Unit) log₂ = (.ok (), after) ∧
        Adds R log₂ after fun _ => [] := by
    obtain ⟨log₃, hwrite, h₃⟩ := onDevice_write_console log₂ h (cyan ++ stamp cycle ++ plain ++ "\r")
    obtain ⟨log₄, hflush, h₄⟩ := onDevice_flush_adds log₃ h₃.works .console
    exact ⟨log₄, (Attempt.bind_of_ok hwrite).trans hflush, h₃.trans h₄⟩
  obtain ⟨log₃, hconsole, h₃⟩ := adds_of_if log₂ log.hasConsole h hconsole
  rw [startCycle_eq]
  split
  · exact ⟨log₃, hconsole, hshown.trans h₃⟩
  · exact ⟨log₁, rfl, .of_device h fun _ => rfl⟩

theorem finish_adds (h : R.works log.device) : ∃ after,
    finish log = (.ok (), after) ∧ Adds R log after fun _ => [] := by
  obtain ⟨log₁, hall, h₁⟩ := onDevice_flush_adds log h (.stream .all)
  obtain ⟨log₂, hissue, h₂⟩ := onDevice_flush_adds log₁ h₁.works (.stream .issue)
  obtain ⟨log₃, hcompletion, h₃⟩ := onDevice_flush_adds log₂ h₂.works (.stream .completion)
  obtain ⟨log₄, hconsole, h₄⟩ :=
    adds_of_if log₃ log₃.hasConsole h₃.works (onDevice_flush_adds log₃ h₃.works .console)
  refine ⟨log₄, ?_, ((h₁.trans h₂).trans h₃).trans h₄⟩
  refine (Attempt.bind_of_ok hall).trans ((Attempt.bind_of_ok hissue).trans ?_)
  exact (Attempt.bind_of_ok hcompletion).trans ((Attempt.bind_of_ok rfl).trans hconsole)

/-! ### Logs and diaries -/

/-- The streams of a log show the events of a diary, and so they will the next events. -/
structure Keeps (R : ReliableDevice τ) (log : EventLog τ) (diary : Diary) : Prop where
  works : R.works log.device
  cycle : log.cycle = diary.cycle
  shows : ∀ stream, Shows R log stream (diary.ofStream stream)

/-- A log over empty streams keeps a diary without events. -/
theorem Keeps.opening {device : τ} (hworks : R.works device)
    (hempty : ∀ stream, R.text device (.stream stream) = "") (verbosity : Verbosity)
    (hasConsole : Bool) : Keeps R { device, verbosity, hasConsole } {} where
  works := hworks
  cycle := rfl
  shows stream := by
    refine ⟨hempty stream, ?_⟩
    cases stream <;> rfl

/-- A log keeps an event that is added to its streams. -/
theorem Keeps.note {diary : Diary} (h : Keeps R log diary) {after : EventLog τ} {e : ReplayEvent}
    (hadds : Adds R log after fun stream => if stream.takes e then [e] else []) :
    Keeps R after (diary.note e) where
  works := hadds.works
  cycle := hadds.cycle.trans h.cycle
  shows stream := by
    have hshows := hadds.shows stream _ (h.shows stream)
    rw [Diary.ofStream_note, ← h.cycle]
    by_cases htakes : stream.takes e = true
    · rw [if_pos htakes] at hshows ⊢
      exact hshows
    · rw [if_neg htakes] at hshows ⊢
      exact hshows

theorem Keeps.nothing {diary : Diary} (h : Keeps R log diary) {after : EventLog τ}
    (hadds : Adds R log after fun _ => []) : Keeps R after diary where
  works := hadds.works
  cycle := hadds.cycle.trans h.cycle
  shows stream := by
    have hshows := hadds.shows stream _ (h.shows stream)
    rwa [List.map_nil, List.append_nil] at hshows

/-- **A log over a reliable device keeps every event.** -/
theorem keeps_follows (R : ReliableDevice τ) : Observer.Follows (Keeps R) where
  startCycle cycle log diary h := by
    obtain ⟨after, hafter, hadds⟩ := startCycle_adds h.works cycle
    have hbegun : Keeps R { log with cycle } { diary with cycle } := by
      refine ⟨h.works, rfl, fun stream => ⟨(h.shows stream).text, ?_⟩⟩
      refine Eq.trans ?_ (h.shows stream).last
      cases stream <;> rfl
    exact ⟨after, { diary with cycle }, hafter, rfl, hbegun.nothing hadds⟩
  issued r log diary h := by
    obtain ⟨after, hafter, hadds⟩ := issued_adds h.works r
    exact ⟨after, diary.note (.issued r), hafter, rfl, h.note hadds⟩
  returned r log diary h := by
    obtain ⟨after, hafter, hadds⟩ := returned_adds h.works r
    exact ⟨after, diary.note (.returned r), hafter, rfl, h.note hadds⟩
  finish log diary h := by
    obtain ⟨after, hafter, hadds⟩ := finish_adds h.works
    exact ⟨after, diary, hafter, rfl, h.nothing hadds⟩

/-- A log over a reliable device never objects. -/
theorem works_follows (R : ReliableDevice τ) :
    Observer.Follows fun (log : EventLog τ) (_ : Silence) => R.works log.device where
  startCycle cycle log silence h := by
    obtain ⟨after, hafter, hadds⟩ := startCycle_adds h cycle
    exact ⟨after, silence, hafter, rfl, hadds.works⟩
  issued r log silence h := by
    obtain ⟨after, hafter, hadds⟩ := issued_adds h r
    exact ⟨after, silence, hafter, rfl, hadds.works⟩
  returned r log silence h := by
    obtain ⟨after, hafter, hadds⟩ := returned_adds h r
    exact ⟨after, silence, hafter, rfl, hadds.works⟩
  finish log silence h := by
    obtain ⟨after, hafter, hadds⟩ := finish_adds h
    exact ⟨after, silence, hafter, rfl, hadds.works⟩

end EventLog

end MemoryReplay
