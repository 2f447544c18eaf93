import MemoryReplay.Proofs.EventLog.Keeping

/-!
# Logs that meet refusals

The sinks under a log may refuse text in some calls and take it in others. A refusal ends the call,
and what was to be written after it is missing. The cycles of what a stream has taken can be read off
all the same, for it takes note of a stamp only when the stamp was written.

- `FallibleDevice`: a device whose sinks take or refuse text. `Transcript.fallible`: the device in
  memory, with some sinks broken.
- `EventLog.Called`: a log that has been called again and again, and what became of the calls.
- `EventLog.reached`: the sinks that a call tries. `EventLog.taken`: the events that a stream has
  taken, each with the cycle that was begun last.
- `puts_gains`, `startCycle_gains`: what one call adds to the streams.
- `lines_attributed`: what all calls have left in them.
-/

namespace MemoryReplay

open Text

/-- A device whose sinks keep what they take. While it is written to, a sink either takes all text
or refuses all. -/
structure FallibleDevice (τ : Type) [LogDevice τ] where
  /-- The text of a sink. -/
  text : τ → Sink → String
  /-- Whether a sink takes text. -/
  takes : τ → Sink → Bool
  write_taken : ∀ {device sink}, takes device sink = true → ∀ line, ∃ after,
    LogDevice.write sink line device = (.ok (), after) ∧ takes after = takes device ∧
      text after = Function.update (text device) sink (text device sink ++ line)
  write_refused : ∀ {device sink}, takes device sink = false → ∀ line, ∃ e after,
    LogDevice.write sink line device = (.error e, after) ∧ takes after = takes device ∧
      text after = text device
  flush : ∀ device sink, ∃ result after, LogDevice.flush sink device = (result, after) ∧
    takes after = takes device ∧ text after = text device

namespace Transcript

/-- The sinks of a transcript that are not broken take text. -/
def fallible : FallibleDevice Transcript where
  text := text
  takes t sink := decide (sink ∉ t.broken)
  write_taken := by
    intro t sink h line
    have hreach := reach_eq t sink
    rw [if_neg (of_decide_eq_true h)] at hreach
    refine ⟨{ t with written := (sink, line) :: t.written }, ?_, rfl, text_cons t sink line⟩
    exact Attempt.bind_of_ok hreach
  write_refused := by
    intro t sink h line
    have hreach := reach_eq t sink
    rw [if_pos (by simpa using h)] at hreach
    exact ⟨.broken, t, Attempt.bind_of_error hreach, rfl, rfl⟩
  flush t sink := ⟨_, t, reach_eq t sink, rfl, rfl⟩

end Transcript

/-! ### Calls and what becomes of them -/

/-- A call of an event log. -/
inductive LogCall where
  /-- The events to come belong to a cycle. -/
  | startCycle (cycle : Nat)
  /-- Something has happened. -/
  | event (e : ReplayEvent)

/-- A call that was made. -/
structure CallRecord where
  call : LogCall
  /-- Which sinks took text during the call. -/
  takes : Sink → Bool
  result : Except DeviceError Unit

namespace EventLog

section

variable {τ : Type} [LogDevice τ]

/-- What a call does. -/
def perform : LogCall → Attempt (EventLog τ) Unit
  | .startCycle cycle => startCycle cycle
  | .event (.issued r) => issued r
  | .event (.returned r) => returned r

/-- Calls of a log, one after the other, whatever became of those before. Between two calls the
sinks may change their minds about text, and nothing else. -/
inductive Called (F : FallibleDevice τ) (log : EventLog τ) : List CallRecord → EventLog τ → Prop
  | opened : Called F log [] log
  | call {records : List CallRecord} {before : EventLog τ} {device : τ} (c : LogCall)
      (h : Called F log records before) (htext : F.text device = F.text before.device) :
      Called F log (records ++ [⟨c, F.takes device, (perform c { before with device }).1⟩])
        (perform c { before with device }).2

end

/-- The sinks for the line of an event, one after the other: the console if the line is shown and
there is one, the stream of all events, and the stream of its own kind. -/
def sinksFor (shown hasConsole : Bool) (own : Stream) : List Sink :=
  (if shown && hasConsole then [.console] else []) ++ [.stream .all, .stream own]

/-- The sinks for the line of an event. -/
def sinks (verbosity : Verbosity) (hasConsole : Bool) : ReplayEvent → List Sink
  | .issued _ => sinksFor verbosity.showsIssue hasConsole .issue
  | .returned _ => sinksFor verbosity.showsCompletion hasConsole .completion

/-- Of sinks that are tried one after the other until one of them refuses, those that are tried. -/
def reached (takes : Sink → Bool) : List Sink → List Sink
  | [] => []
  | sink :: rest => sink :: if takes sink then reached takes rest else []

/-- The events that a stream was reached with and took, in the order of the calls, each with the cycle
that the last call before it began; with the cycle given if there was no such call. -/
def taken (verbosity : Verbosity) (hasConsole : Bool) (stream : Stream) :
    Nat → List CallRecord → List (Nat × ReplayEvent)
  | _, [] => []
  | _, ⟨.startCycle cycle, _, _⟩ :: rest => taken verbosity hasConsole stream cycle rest
  | cycle, ⟨.event e, takes, _⟩ :: rest =>
    if .stream stream ∈ reached takes (sinks verbosity hasConsole e) ∧ takes (.stream stream) then
      (cycle, e) :: taken verbosity hasConsole stream cycle rest
    else taken verbosity hasConsole stream cycle rest

/-- The cycle that the last call began, or the one given. -/
def begun : Nat → List CallRecord → Nat
  | cycle, [] => cycle
  | _, ⟨.startCycle cycle, _, _⟩ :: rest => begun cycle rest
  | cycle, ⟨.event _, _, _⟩ :: rest => begun cycle rest

theorem taken_append (verbosity : Verbosity) (hasConsole : Bool) (stream : Stream)
    (more : List CallRecord) : ∀ (records : List CallRecord) (cycle : Nat),
    taken verbosity hasConsole stream cycle (records ++ more) =
      taken verbosity hasConsole stream cycle records ++
        taken verbosity hasConsole stream (begun cycle records) more
  | [], _ => rfl
  | ⟨.startCycle cycle, _, _⟩ :: rest, _ =>
    taken_append verbosity hasConsole stream more rest cycle
  | ⟨.event e, takes, _⟩ :: rest, cycle => by
    have ih := taken_append verbosity hasConsole stream more rest cycle
    rw [List.cons_append, taken, taken, begun, ih]
    split <;> rfl

theorem begun_append (more : List CallRecord) : ∀ (records : List CallRecord) (cycle : Nat),
    begun cycle (records ++ more) = begun (begun cycle records) more
  | [], _ => rfl
  | ⟨.startCycle cycle, _, _⟩ :: rest, _ => begun_append more rest cycle
  | ⟨.event _, _, _⟩ :: rest, cycle => begun_append more rest cycle

theorem mem_of_mem_reached {takes : Sink → Bool} {targets : List Sink} {sink : Sink}
    (h : sink ∈ reached takes targets) : sink ∈ targets := by
  induction targets with
  | nil => exact h
  | cons first rest ih =>
    rcases List.mem_cons.mp h with rfl | h
    · exact List.mem_cons_self
    · by_cases hfirst : takes first = true
      · rw [if_pos hfirst] at h
        exact List.mem_cons_of_mem first (ih h)
      · rw [if_neg hfirst] at h
        exact absurd h List.not_mem_nil

theorem nodup_sinks (verbosity : Verbosity) (hasConsole : Bool) (e : ReplayEvent) :
    (sinks verbosity hasConsole e).Nodup := by
  have hnodup : ∀ (shown : Bool) {own : Stream}, .all ≠ own → (sinksFor shown hasConsole own).Nodup := by
    intro shown own hown
    unfold sinksFor
    split <;> simp [hown]
  cases e with
  | issued r => exact hnodup _ nofun
  | returned r => exact hnodup _ nofun

/-! ### What a log gains -/

variable {τ : Type} [LogDevice τ] {F : FallibleDevice τ} {log middle after : EventLog τ}

/-- A stream has the text that is written of events, and has stamped their last cycle last. -/
structure Tells (F : FallibleDevice τ) (log : EventLog τ) (stream : Stream)
    (events : List (Nat × ReplayEvent)) : Prop where
  text : F.text log.device (.stream stream) = unlines (written none events)
  last : log.lastStamp stream = lastCycle none events

/-- A log has become another one with the same settings, of which each stream tells more. -/
structure Gains (F : FallibleDevice τ) (log after : EventLog τ)
    (more : Stream → List (Nat × ReplayEvent)) : Prop where
  takes : F.takes after.device = F.takes log.device
  cycle : after.cycle = log.cycle
  verbosity : after.verbosity = log.verbosity
  hasConsole : after.hasConsole = log.hasConsole
  tells : ∀ stream events, Tells F log stream events → Tells F after stream (events ++ more stream)

theorem Gains.trans {first second : Stream → List (Nat × ReplayEvent)}
    (h : Gains F log middle first) (h' : Gains F middle after second) :
    Gains F log after fun stream => first stream ++ second stream where
  takes := h'.takes.trans h.takes
  cycle := h'.cycle.trans h.cycle
  verbosity := h'.verbosity.trans h.verbosity
  hasConsole := h'.hasConsole.trans h.hasConsole
  tells stream events htells := by
    rw [← List.append_assoc]
    exact h'.tells stream _ (h.tells stream events htells)

/-- What leaves the text of the streams alone gains nothing. -/
theorem Gains.nothing {device : τ} {shown : Option Nat} (htakes : F.takes device = F.takes log.device)
    (htext : ∀ stream, F.text device (.stream stream) = F.text log.device (.stream stream)) :
    Gains F log { log with device, shown } fun _ => [] where
  takes := htakes
  cycle := rfl
  verbosity := rfl
  hasConsole := rfl
  tells stream events htells := by
    rw [List.append_nil]
    refine ⟨(htext stream).trans htells.text, Eq.trans ?_ htells.last⟩
    cases stream <;> rfl

/-- The line of an event is written to a sink. -/
def put (colour : String) (e : ReplayEvent) : Sink → Attempt (EventLog τ) Unit
  | .console => onDevice (LogDevice.write .console (colour ++ e.line ++ plain ++ "\n"))
  | .stream stream => emit stream e.line

/-- The line of an event is written to sinks, until one of them refuses. -/
def puts (colour : String) (e : ReplayEvent) : List Sink → Attempt (EventLog τ) Unit
  | [] => pure ()
  | sink :: rest => do
    put colour e sink
    puts colour e rest

/-- An event is shown if the verbosity says so, and then written to two streams. -/
theorem shown_and_emitted_eq_puts (shows : Verbosity → Bool) (colour : String) (own : Stream)
    (e : ReplayEvent) (log : EventLog τ) :
    (do
      if shows (← get).verbosity then echo colour e.line
      emit .all e.line
      emit own e.line : Attempt (EventLog τ) Unit) log =
    puts colour e (sinksFor (shows log.verbosity) log.hasConsole own) log := by
  have hstreams : (do emit .all e.line; emit own e.line : Attempt (EventLog τ) Unit) =
      puts colour e [.stream .all, .stream own] := by
    simp only [puts, put, bind_pure_unit]
  refine (Attempt.bind_of_ok rfl).trans ?_
  by_cases hshown : shows log.verbosity = true
  · by_cases hconsole : log.hasConsole = true
    · have hecho : echo colour e.line log = put colour e .console log := by
        rw [echo_eq, if_pos hconsole]
        rfl
      rw [if_pos hshown, hstreams, hshown, hconsole]
      exact Attempt.bind_congr hecho
    · have hecho : echo colour e.line log = (.ok (), log) := by
        rw [echo_eq, if_neg hconsole]
        rfl
      rw [if_pos hshown, hstreams, hshown, Bool.eq_false_iff.mpr hconsole]
      exact Attempt.bind_of_ok hecho
  · rw [if_neg hshown, hstreams, Bool.eq_false_iff.mpr hshown]
    rfl

theorem perform_event (e : ReplayEvent) (log : EventLog τ) : ∃ colour,
    perform (.event e) log = puts colour e (sinks log.verbosity log.hasConsole e) log := by
  cases e with
  | issued r =>
    exact ⟨green, shown_and_emitted_eq_puts Verbosity.showsIssue green .issue (.issued r) log⟩
  | returned r =>
    exact ⟨blue,
      shown_and_emitted_eq_puts Verbosity.showsCompletion blue .completion (.returned r) log⟩

variable {sink : Sink}

/-- A sink that takes text gets the line. -/
theorem put_of_taken (colour : String) (e : ReplayEvent) (h : F.takes log.device sink = true) :
    ∃ after, put colour e sink log = (.ok (), after) ∧
      Gains F log after fun stream => if .stream stream = sink then [(log.cycle, e)] else [] := by
  cases sink with
  | console =>
    obtain ⟨device, hwrite, htakes, htext⟩ :=
      F.write_taken h (colour ++ e.line ++ plain ++ "\n")
    refine ⟨{ log with device }, onDevice_of_eq hwrite, .nothing htakes fun stream => ?_⟩
    have hother : Sink.stream stream ≠ .console := nofun
    rw [htext, Function.update_of_ne hother]
  | stream stream =>
    obtain ⟨before, hmargin, hbefore, hmarginText⟩ :=
      F.write_taken h (margin (log.lastStamp stream) log.cycle)
    obtain ⟨device, hline, hdevice, hlineText⟩ :=
      F.write_taken (hbefore ▸ h) (e.line ++ "\n")
    refine ⟨{ log.stamped stream with device }, emit_of_written hmargin hline, ?_⟩
    have htext := update_append_append hmarginText hlineText
    refine ⟨hdevice.trans hbefore, ?_, ?_, ?_, fun other events htells => ?_⟩
    · cases stream <;> rfl
    · cases stream <;> rfl
    · cases stream <;> rfl
    · obtain ⟨hafter, hlast⟩ := shows_emitted device htext htells.text htells.last
      simp only [Sink.stream.injEq]
      exact ⟨hafter, hlast⟩

/-- A sink that refuses text ends the writing. -/
theorem put_of_refused (colour : String) (e : ReplayEvent) (h : F.takes log.device sink = false) :
    ∃ error after, put colour e sink log = (.error error, after) ∧
      Gains F log after fun _ => [] := by
  cases sink with
  | console =>
    obtain ⟨error, device, hwrite, htakes, htext⟩ :=
      F.write_refused h (colour ++ e.line ++ plain ++ "\n")
    exact ⟨error, { log with device }, onDevice_of_eq hwrite,
      .nothing htakes fun stream => congrFun htext _⟩
  | stream stream =>
    obtain ⟨error, device, hwrite, htakes, htext⟩ :=
      F.write_refused h (margin (log.lastStamp stream) log.cycle)
    -- so the cycle is not stamped
    have hemit : emit stream e.line log = (.error error, { log with device }) := by
      rw [emit_eq, hwrite]
    exact ⟨error, { log with device }, hemit, .nothing htakes fun stream => congrFun htext _⟩

/-- **One event.** Each stream that is reached and takes text gets the line; and an error comes back
if and only if some sink that is reached refuses. -/
theorem puts_gains (F : FallibleDevice τ) (colour : String) (e : ReplayEvent) {targets : List Sink}
    (hnodup : targets.Nodup) (log : EventLog τ) :
    ((∃ error, (puts colour e targets log).1 = .error error) ↔
      ∃ sink ∈ reached (F.takes log.device) targets, F.takes log.device sink = false) ∧
    Gains F log (puts colour e targets log).2 fun stream =>
      if .stream stream ∈ reached (F.takes log.device) targets ∧ F.takes log.device (.stream stream)
      then [(log.cycle, e)] else [] := by
  induction targets generalizing log with
  | nil =>
    refine ⟨⟨?_, ?_⟩, ?_⟩
    · rintro ⟨error, herror⟩
      cases herror
    · rintro ⟨sink, hsink, -⟩
      exact absurd hsink List.not_mem_nil
    · simp only [reached, List.not_mem_nil, false_and, if_false]
      exact .nothing rfl fun _ => rfl
  | cons sink rest ih =>
    obtain ⟨hsink, hrest⟩ := List.nodup_cons.mp hnodup
    cases htakes : F.takes log.device sink with
    | true =>
      -- the line is written, and the sinks that are left are tried
      obtain ⟨middle, hput, hgains⟩ := put_of_taken colour e htakes
      have hputs : puts colour e (sink :: rest) log = puts colour e rest middle :=
        Attempt.bind_of_ok hput
      obtain ⟨herror, hmore⟩ := ih hrest middle
      rw [hgains.takes] at herror hmore
      have hreached : reached (F.takes log.device) (sink :: rest) =
          sink :: reached (F.takes log.device) rest := by
        rw [reached, if_pos htakes]
      rw [hputs, herror, hreached]
      refine ⟨?_, ?_⟩
      · simp only [List.exists_mem_cons_iff, htakes, Bool.true_eq_false, false_or]
      · have hboth := hgains.trans hmore
        rw [hgains.cycle] at hboth
        convert hboth using 2 with stream
        by_cases hsame : Sink.stream stream = sink
        · have hnot : sink ∉ reached (F.takes log.device) rest :=
            fun hmem => hsink (mem_of_mem_reached hmem)
          simp [hsame, htakes, hnot]
        · simp [hsame]
    | false =>
      obtain ⟨error, after, hput, hgains⟩ := put_of_refused colour e htakes
      have hputs : puts colour e (sink :: rest) log = (.error error, after) :=
        Attempt.bind_of_error hput
      have hreached : reached (F.takes log.device) (sink :: rest) = [sink] := by
        rw [reached, if_neg (by simp [htakes])]
      rw [hputs, hreached]
      refine ⟨⟨fun _ => ⟨sink, List.mem_singleton_self sink, htakes⟩, fun _ => ⟨error, rfl⟩⟩, ?_⟩
      convert hgains using 2 with stream
      rw [if_neg]
      rintro ⟨hmem, htaken⟩
      rw [List.mem_singleton.mp hmem, htakes] at htaken
      cases htaken

/-- **One cycle.** No stream gains anything, whatever becomes of the console. -/
theorem startCycle_gains (F : FallibleDevice τ) (cycle : Nat) (log : EventLog τ) :
    ∃ result after, startCycle cycle log = (result, after) ∧
      Gains F { log with cycle } after fun _ => [] := by
  let log₁ : EventLog τ := { log with cycle }
  let log₂ : EventLog τ := { log₁ with shown := some cycle }
  have hconsole : ∃ result device, (do
      onDevice (LogDevice.write .console (cyan ++ stamp cycle ++ plain ++ "\r"))
      onDevice (LogDevice.flush .console) : Attempt (EventLog τ) Unit) log₂ =
        (result, { log₂ with device }) ∧ Gains F log₁ { log₂ with device } fun _ => [] := by
    cases htakes : F.takes log.device .console with
    | true =>
      obtain ⟨written, hwrite, hwritten, htext⟩ :=
        F.write_taken htakes (cyan ++ stamp cycle ++ plain ++ "\r")
      obtain ⟨result, device, hflush, hdevice, hsame⟩ := F.flush written .console
      have hshown : onDevice (LogDevice.write .console (cyan ++ stamp cycle ++ plain ++ "\r"))
          log₂ = (.ok (), { log₂ with device := written }) := onDevice_of_eq hwrite
      have hflushed : onDevice (LogDevice.flush .console) { log₂ with device := written } =
          (result, { log₂ with device }) := onDevice_of_eq hflush
      refine ⟨result, device, (Attempt.bind_of_ok hshown).trans hflushed, ?_⟩
      refine .nothing (hdevice.trans hwritten) fun stream => ?_
      have hother : Sink.stream stream ≠ .console := nofun
      show F.text device _ = F.text log.device _
      rw [hsame, htext, Function.update_of_ne hother]
    | false =>
      obtain ⟨error, device, hwrite, hdevice, htext⟩ :=
        F.write_refused htakes (cyan ++ stamp cycle ++ plain ++ "\r")
      refine ⟨.error error, device, ?_, .nothing hdevice fun stream => congrFun htext _⟩
      exact Attempt.bind_of_error (onDevice_of_eq hwrite)
  rw [startCycle_eq]
  split
  · by_cases hpresent : log.hasConsole = true
    · obtain ⟨result, device, hshown, hgains⟩ := hconsole
      rw [if_pos hpresent]
      exact ⟨result, { log₂ with device }, hshown, hgains⟩
    · rw [if_neg hpresent]
      exact ⟨.ok (), log₂, rfl, .nothing rfl fun _ => rfl⟩
  · exact ⟨.ok (), log₁, rfl, .nothing rfl fun _ => rfl⟩

/-! ### All calls -/

/-- What holds of a log that has been called: the cycle is the one that was begun last, each stream
tells the events that it has taken, and a call for an event has failed if and only if some sink that
it reached refused. -/
structure Attributes (F : FallibleDevice τ) (verbosity : Verbosity) (hasConsole : Bool)
    (records : List CallRecord) (log : EventLog τ) : Prop where
  level : log.verbosity = verbosity
  console : log.hasConsole = hasConsole
  cycle : log.cycle = begun 0 records
  tells : ∀ stream, Tells F log stream (taken verbosity hasConsole stream 0 records)
  results : ∀ record ∈ records, ∀ e, record.call = .event e →
    ((∃ error, record.result = .error error) ↔
      ∃ sink ∈ reached record.takes (sinks verbosity hasConsole e), record.takes sink = false)

/-- One more call, from which the streams gain what it says. -/
theorem Attributes.concat {verbosity : Verbosity} {hasConsole : Bool} {records : List CallRecord}
    (h : Attributes F verbosity hasConsole records log) {device : τ}
    (htext : F.text device = F.text log.device) {record : CallRecord}
    (hgains : Gains F { log with device, cycle := begun log.cycle [record] } after
      fun stream => taken verbosity hasConsole stream log.cycle [record])
    (hresult : ∀ e, record.call = .event e → ((∃ error, record.result = .error error) ↔
      ∃ sink ∈ reached record.takes (sinks verbosity hasConsole e), record.takes sink = false)) :
    Attributes F verbosity hasConsole (records ++ [record]) after where
  level := hgains.verbosity.trans h.level
  console := hgains.hasConsole.trans h.console
  cycle := by
    rw [begun_append, ← h.cycle]
    exact hgains.cycle
  tells stream := by
    rw [taken_append, ← h.cycle]
    refine hgains.tells stream _ ⟨(congrFun htext _).trans (h.tells stream).text, ?_⟩
    refine Eq.trans ?_ (h.tells stream).last
    cases stream <;> rfl
  results other hother e hcall := by
    rcases List.mem_append.mp hother with hother | hother
    · exact h.results other hother e hcall
    · obtain rfl := List.mem_singleton.mp hother
      exact hresult e hcall

/-- Whatever is called, and whichever sinks refuse. -/
theorem Attributes.call {verbosity : Verbosity} {hasConsole : Bool} {records : List CallRecord}
    (h : Attributes F verbosity hasConsole records log) {device : τ}
    (htext : F.text device = F.text log.device) (c : LogCall) :
    Attributes F verbosity hasConsole
      (records ++ [⟨c, F.takes device, (perform c { log with device }).1⟩])
      (perform c { log with device }).2 := by
  cases c with
  | startCycle cycle =>
    obtain ⟨result, after, hperform, hgains⟩ := startCycle_gains F cycle { log with device }
    rw [show perform (.startCycle cycle) { log with device } = (result, after) from hperform]
    exact h.concat htext hgains nofun
  | event e =>
    obtain rfl := h.level
    obtain rfl := h.console
    obtain ⟨colour, hperform⟩ := perform_event e { log with device }
    obtain ⟨hresult, hgains⟩ := puts_gains F colour e
      (nodup_sinks log.verbosity log.hasConsole e) { log with device }
    rw [← hperform] at hresult hgains
    refine h.concat htext hgains fun e' hcall => ?_
    cases hcall
    exact hresult

theorem attributes_of_called {verbosity : Verbosity} {hasConsole : Bool} {device : τ}
    (hempty : ∀ stream, F.text device (.stream stream) = "") {records : List CallRecord}
    (h : Called F { device, verbosity, hasConsole } records after) :
    Attributes F verbosity hasConsole records after := by
  induction h with
  | opened =>
    refine ⟨rfl, rfl, rfl, fun stream => ⟨hempty stream, ?_⟩, fun _ h => absurd h List.not_mem_nil⟩
    cases stream <;> rfl
  | call c _ htext ih => exact ih.call htext c

/-- Each line is that of its event, with a stamp or with an indentation before it. -/
theorem forall₂_written (above : Option Nat) (events : List (Nat × ReplayEvent)) :
    List.Forall₂ (fun line entry => line = stamp entry.1 ++ entry.2.line ∨
      line = indentation ++ entry.2.line) (written above events) events := by
  induction events generalizing above with
  | nil => exact .nil
  | cons entry rest ih =>
    obtain ⟨cycle, e⟩ := entry
    refine .cons ?_ (ih (some cycle))
    unfold margin
    split
    · exact .inr rfl
    · exact .inl rfl

/-- **Every line can be attributed to its cycle.** Let a log over empty streams be called again and
again, and let each sink take all text or refuse all during a call.

Then each stream has one line for each event that it was reached with and took, in the order of the
calls, and nothing else; and reading the cycle off each line, or else off the last stamp above it,
gives the cycle that was begun last before the event, whatever became of the call that began it. A
call for an event gives an error if and only if some sink that it reached refused. -/
theorem lines_attributed (F : FallibleDevice τ) {device : τ}
    (hempty : ∀ stream, F.text device (.stream stream) = "") {verbosity : Verbosity}
    {hasConsole : Bool} {records : List CallRecord}
    (h : Called F { device, verbosity, hasConsole } records after) :
    (∀ stream, ∃ lines, F.text after.device (.stream stream) = unlines lines ∧
      List.Forall₂ (fun line entry => line = stamp entry.1 ++ entry.2.line ∨
        line = indentation ++ entry.2.line) lines (taken verbosity hasConsole stream 0 records) ∧
      events? (F.text after.device (.stream stream)) =
        some ((taken verbosity hasConsole stream 0 records).map fun entry =>
          (entry.1, entry.2.logged))) ∧
    ∀ record ∈ records, ∀ e, record.call = .event e →
      ((∃ error, record.result = .error error) ↔
        ∃ sink ∈ reached record.takes (sinks verbosity hasConsole e), record.takes sink = false) := by
  have hattributes := attributes_of_called hempty h
  refine ⟨fun stream => ?_, hattributes.results⟩
  have htext := (hattributes.tells stream).text
  exact ⟨_, htext, forall₂_written none _, htext ▸ events?_unlines_written _⟩

/-- Calls over a transcript, each with the sinks that are broken during it. -/
def rehearse : List (LogCall × List Sink) → List CallRecord → EventLog Transcript →
    List CallRecord × EventLog Transcript
  | [], records, log => (records, log)
  | (c, broken) :: rest, records, log =>
    let device := { log.device with broken }
    rehearse rest
      (records ++ [⟨c, Transcript.fallible.takes device, (perform c { log with device }).1⟩])
      (perform c { log with device }).2

/-- Every sequence of calls is possible, with any refusals. -/
theorem called_rehearse {start : EventLog Transcript} (script : List (LogCall × List Sink))
    {records : List CallRecord} {log : EventLog Transcript}
    (h : Called Transcript.fallible start records log) :
    Called Transcript.fallible start (rehearse script records log).1
      (rehearse script records log).2 := by
  induction script generalizing records log with
  | nil => exact h
  | cons first rest ih => exact ih (h.call first.1 rfl)

/-- The console fails in cycle 5, at its start and at an admission; then the stream of admissions
does; and cycle 3 stands between two stretches of cycle 5. -/
def refusals : List (LogCall × List Sink) :=
  [(.startCycle 5, [.console]),
    (.event (.issued (.fresh 64 .read)), [.console]),
    (.event (.issued (.fresh 64 .read)), [.stream .issue]),
    (.startCycle 3, []),
    (.event (.issued (.fresh 128 .write)), []),
    (.startCycle 5, []),
    (.event (.issued (.fresh 192 .read)), [])]

/-- The events that were taken are told with their cycles: three by one stream, two by another. -/
theorem lines_attributed_refusals :
    let start : EventLog Transcript := { device := {}, verbosity := .issue, hasConsole := true }
    let played := rehearse refusals [] start
    (∀ stream, Transcript.fallible.text start.device (.stream stream) = "") ∧
      Called Transcript.fallible start played.1 played.2 ∧
      events? (Transcript.fallible.text played.2.device (.stream .all)) =
        some [(5, .issue ⟨64, .read⟩), (3, .issue ⟨128, .write⟩), (5, .issue ⟨192, .read⟩)] ∧
      events? (Transcript.fallible.text played.2.device (.stream .issue)) =
        some [(3, .issue ⟨128, .write⟩), (5, .issue ⟨192, .read⟩)] := by
  intro start played
  have hempty : ∀ stream, Transcript.fallible.text start.device (.stream stream) = "" :=
    fun _ => rfl
  have hcalled : Called Transcript.fallible start played.1 played.2 := called_rehearse _ .opened
  obtain ⟨htold, -⟩ := lines_attributed Transcript.fallible hempty hcalled
  obtain ⟨-, -, -, hall⟩ := htold .all
  obtain ⟨-, -, -, hissue⟩ := htold .issue
  exact ⟨hempty, hcalled, hall, hissue⟩

end EventLog

end MemoryReplay
