import MemoryReplay.Proofs.EventLog.Keeping

/-!
# Replays without a log

A log over a device that takes all text has no part in a replay: the replay ends as it does when
nobody is told of anything. And what the log writes to its streams is fixed by the replay alone, not
by what it shows on the console.

- `ReliableDevice.since`: a device of which only the text after some moment is looked at.
- `run_unlogged`: a replay ends the same with a log and without one.
- `text_eq_diary`: what a log adds to its streams is the text of the replay's diary.
- `logging_changes_nothing`: both of them.
-/

namespace MemoryReplay

open Text

/-! ### Text since some moment -/

/-- What has been added to a text. -/
def addedText (origin text : String) : String :=
  .ofList (text.toList.drop origin.toList.length)

theorem addedText_append (origin added : String) : addedText origin (origin ++ added) = added := by
  unfold addedText
  rw [String.toList_append, List.drop_left, String.ofList_toList]

namespace ReliableDevice

variable {τ : Type} [LogDevice τ]

/-- A device seen from the moment `origin` on: only the text that has been added since counts. -/
def since (R : ReliableDevice τ) (origin : τ) : ReliableDevice τ where
  works device := R.works device ∧ ∀ sink, ∃ added, R.text device sink = R.text origin sink ++ added
  text device sink := addedText (R.text origin sink) (R.text device sink)
  write := by
    intro device h sink line
    obtain ⟨hworks, hadded⟩ := h
    obtain ⟨after, hwrite, hworks, htext⟩ := R.write hworks sink line
    have hother : ∀ other, ∃ added, R.text after other = R.text origin other ++ added ∧
        added = Function.update (fun sink => addedText (R.text origin sink) (R.text device sink)) sink
          (addedText (R.text origin sink) (R.text device sink) ++ line) other := by
      intro other
      obtain ⟨added, hadded⟩ := hadded other
      rw [htext]
      by_cases hsame : other = sink
      · subst hsame
        rw [Function.update_self, Function.update_self, hadded, addedText_append, String.append_assoc]
        exact ⟨_, rfl, rfl⟩
      · rw [Function.update_of_ne hsame, Function.update_of_ne hsame, hadded, addedText_append]
        exact ⟨_, rfl, rfl⟩
    refine ⟨after, hwrite, ⟨hworks, fun other => ?_⟩, funext fun other => ?_⟩
    · obtain ⟨added, hadded, -⟩ := hother other
      exact ⟨added, hadded⟩
    · obtain ⟨added, hadded, hupdate⟩ := hother other
      rw [hadded, addedText_append, hupdate]
  flush := by
    intro device h sink
    obtain ⟨hworks, hadded⟩ := h
    obtain ⟨after, hflush, hworks, htext⟩ := R.flush hworks sink
    refine ⟨after, hflush, ⟨hworks, fun other => ?_⟩, ?_⟩
    · rw [htext]
      exact hadded other
    · rw [htext]

theorem since_works {R : ReliableDevice τ} {origin : τ} (h : R.works origin) :
    (R.since origin).works origin :=
  ⟨h, fun _ => ⟨"", (String.append_empty).symm⟩⟩

theorem since_text (R : ReliableDevice τ) (origin : τ) (sink : Sink) :
    (R.since origin).text origin sink = "" := by
  have hnothing := addedText_append (R.text origin sink) ""
  rwa [String.append_empty] at hnothing

theorem text_of_since {R : ReliableDevice τ} {origin device : τ} (h : (R.since origin).works device)
    (sink : Sink) : R.text device sink = R.text origin sink ++ (R.since origin).text device sink := by
  obtain ⟨added, hadded⟩ := h.2 sink
  show _ = _ ++ addedText _ _
  rw [hadded, addedText_append]

end ReliableDevice

/-! ### Whole replays -/

section

variable {σ τ : Type} [MemorySystem σ] [LogDevice τ] {R : ReliableDevice τ}
  {queues : Vector (List Request) channels} {memory : σ}

/-- A replay with a log ends like the one of which nobody is told. -/
theorem run_unlogged {log : EventLog τ} (h : R.works log.device) :
    (Session.opening queues memory log).run.1 = (Session.opening queues memory Silence.mk).run.1 ∧
      (Session.opening queues memory log).run.2.driver =
        (Session.opening queues memory Silence.mk).run.2.driver ∧
      (Session.opening queues memory log).run.2.memory =
        (Session.opening queues memory Silence.mk).run.2.memory := by
  have hopening : Session.Matches (fun (log : EventLog τ) (_ : Silence) => R.works log.device)
      (Session.opening queues memory log) (Session.opening queues memory Silence.mk) :=
    ⟨rfl, rfl, h⟩
  obtain ⟨hresult, hmatches⟩ := Session.run_matches (EventLog.works_follows R) hopening
  exact ⟨hresult, hmatches.driver, hmatches.memory⟩

/-- The text that a log adds to its streams is that of the diary of the replay. -/
theorem text_eq_diary {device : τ} (h : R.works device) (verbosity : Verbosity) (hasConsole : Bool)
    (stream : Stream) :
    R.text (Session.opening queues memory
      ({ device, verbosity, hasConsole } : EventLog τ)).run.2.observer.device (.stream stream) =
    R.text device (.stream stream) ++ unlines (EventLog.written none
      ((Session.opening queues memory ({} : Diary)).run.2.observer.ofStream stream)) := by
  have hopening : Session.Matches (EventLog.Keeps (R.since device))
      (Session.opening queues memory ({ device, verbosity, hasConsole } : EventLog τ))
      (Session.opening queues memory ({} : Diary)) :=
    ⟨rfl, rfl, .opening (R.since_works h) (fun _ => R.since_text device _) verbosity hasConsole⟩
  obtain ⟨-, hmatches⟩ := Session.run_matches (EventLog.keeps_follows _) hopening
  have hkeeps := hmatches.observer
  rw [ReliableDevice.text_of_since hkeeps.works, (hkeeps.shows stream).text]

end

/-- **A log changes nothing, and its verbosity does not change the log.** Over any memory, a replay
with a log over a reliable device has the result of the replay without one, and leaves the same
books and the same memory. What a new log adds to its three streams is the same for every such
device and every verbosity, with a console and without. -/
theorem logging_changes_nothing {σ : Type} [MemorySystem σ]
    (queues : Vector (List Request) channels) (memory : σ) :
    ∃ added : Stream → String, ∀ (τ : Type) [LogDevice τ] (R : ReliableDevice τ),
      (∀ log : EventLog τ, R.works log.device →
        (Session.opening queues memory log).run.1 =
          (Session.opening queues memory Silence.mk).run.1 ∧
        (Session.opening queues memory log).run.2.driver =
          (Session.opening queues memory Silence.mk).run.2.driver ∧
        (Session.opening queues memory log).run.2.memory =
          (Session.opening queues memory Silence.mk).run.2.memory) ∧
      ∀ (device : τ) (verbosity : Verbosity) (hasConsole : Bool), R.works device → ∀ stream,
        R.text (Session.opening queues memory
          ({ device, verbosity, hasConsole } : EventLog τ)).run.2.observer.device (.stream stream) =
        R.text device (.stream stream) ++ added stream := by
  let diary := (Session.opening queues memory ({} : Diary)).run.2.observer
  refine ⟨fun stream => unlines (EventLog.written none (diary.ofStream stream)), fun τ _ R => ?_⟩
  constructor
  · intro log h
    exact run_unlogged h
  · intro device verbosity hasConsole h stream
    exact text_eq_diary h verbosity hasConsole stream

/-- With everything on the console and without a console, the streams have the same text. -/
theorem logging_changes_nothing_oddCycles : Transcript.reliable.works {} ∧
    (Session.opening threeRequests (oddCycles {})
      ({ device := {}, verbosity := .all } : EventLog Transcript)).run.1 =
      (Session.opening threeRequests (oddCycles {}) Silence.mk).run.1 ∧
    ∀ stream,
      (Session.opening threeRequests (oddCycles {})
        ({ device := {}, verbosity := .all } : EventLog Transcript)).run.2.observer.device.text
          (.stream stream) =
      (Session.opening threeRequests (oddCycles {})
        ({ device := {}, hasConsole := false } : EventLog Transcript)).run.2.observer.device.text
          (.stream stream) := by
  have hworks : Transcript.reliable.works {} := rfl
  obtain ⟨added, hlogged⟩ := logging_changes_nothing threeRequests (oddCycles {})
  obtain ⟨hsame, htext⟩ := hlogged Transcript Transcript.reliable
  refine ⟨hworks, (hsame _ hworks).1, fun stream => ?_⟩
  exact (htext {} .all true hworks stream).trans (htext {} .none false hworks stream).symm

end MemoryReplay
