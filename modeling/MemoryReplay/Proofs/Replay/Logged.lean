import MemoryReplay.Proofs.EventLog.Keeping

/-!
# Logs of replays

The event log and the report of a replay are written in different places and at different times,
and say the same.

- `Diary.Agrees`: the events of a diary are the admissions and the completions of a ledger.
- `Driver.Noted`, `Driver.Settled`: books and diary in the phases of a cycle. `Noted.issue`,
  `Noted.tick`, `Settled.begin`, `Settled.settle`: every phase keeps them in step, and so does a
  whole step (`Session.step_settled`).
- `diary_of_run`: what a diary says of a report.
- `log_agrees_with_report`: what the streams of a log say of a report.
-/

namespace MemoryReplay

/-- Whether it is an admission. -/
def LoggedEvent.isIssue : LoggedEvent → Bool
  | issue _ => true
  | completion .. => false

/-- What a log tells of an event, with its cycle. -/
def ReplayEvent.record (p : Nat × ReplayEvent) : Nat × LoggedEvent := (p.1, p.2.logged)

/-- The line of a request in the stream of admissions. -/
def Request.issueRecord (r : Request) : Nat × LoggedEvent := (r.issueCycle, .issue r.key)

/-- The line of a request in the stream of completions. -/
def Request.returnRecord (r : Request) : Nat × LoggedEvent :=
  (r.completeCycle,
    .completion r.key r.issueCycle r.completeCycle (r.completeCycle - r.issueCycle))

/-- Cycles never decrease, and within a cycle completions come first. -/
def InOrder (p q : Nat × LoggedEvent) : Prop :=
  p.1 ≤ q.1 ∧ (p.1 = q.1 → p.2.isIssue = true → q.2.isIssue = true)

/-- The lines of the completed requests. -/
def Ledger.returnRecords (ledger : Ledger) : List (Nat × LoggedEvent) :=
  (ledger.filter fun e => !e.waits).map fun e => e.request.returnRecord

theorem Ledger.returnRecords_append (older newer : Ledger) :
    returnRecords (older ++ newer) = older.returnRecords ++ newer.returnRecords := by
  unfold returnRecords
  rw [List.filter_append, List.map_append]

theorem Ledger.returnRecords_cons_of_waits {e : Entry} (h : e.waits = true) (newer : Ledger) :
    returnRecords (e :: newer) = newer.returnRecords := by
  unfold returnRecords
  rw [List.filter_cons_of_neg (by simp [h])]

namespace Diary

/-- The records of the events. -/
def records (d : Diary) : List (Nat × LoggedEvent) := d.events.map ReplayEvent.record

/-- The diary tells of the admissions of the ledger, in their order, and of its completions. -/
structure Agrees (d : Diary) (ledger : Ledger) : Prop where
  issues : d.records.filter (·.2.isIssue) = ledger.map fun e => e.request.issueRecord
  returns : (d.records.filter (!·.2.isIssue)).Perm ledger.returnRecords
  inOrder : d.records.Pairwise InOrder

variable {d : Diary} {ledger : Ledger}

theorem records_note (d : Diary) (e : ReplayEvent) :
    (d.note e).records = d.records ++ [(d.cycle, e.logged)] :=
  List.map_append

theorem mem_records_note {e : ReplayEvent} {p : Nat × LoggedEvent} :
    p ∈ (d.note e).records ↔ p ∈ d.records ∨ p = (d.cycle, e.logged) := by
  rw [records_note, List.mem_append, List.mem_singleton]

/-- An event stays in order if it comes after all that is noted. -/
theorem inOrder_note {e : ReplayEvent} (h : d.records.Pairwise InOrder)
    (hlast : ∀ p ∈ d.records, InOrder p (d.cycle, e.logged)) :
    (d.note e).records.Pairwise InOrder := by
  rw [records_note, List.pairwise_append]
  refine ⟨h, List.pairwise_singleton .., fun p hp q hq => ?_⟩
  obtain rfl := List.mem_singleton.mp hq
  exact hlast p hp

/-- An admission of the cycle, after everything else. -/
theorem Agrees.issue (h : d.Agrees ledger) (hpast : ∀ p ∈ d.records, p.1 ≤ d.cycle) (head : Request)
    (k : Fin channels) : (d.note (.issued (head.markIssued d.cycle))).Agrees
      (ledger ++ [⟨head.markIssued d.cycle, k, true⟩]) where
  issues := by
    rw [records_note, List.filter_append, h.issues, List.map_append]
    rfl
  returns := by
    rw [records_note, List.filter_append, Ledger.returnRecords_append,
      Ledger.returnRecords_cons_of_waits rfl]
    exact h.returns.append_right []
  inOrder := inOrder_note h.inOrder fun p hp => ⟨hpast p hp, fun _ _ => rfl⟩

/-- A completion of the cycle, before any admission. -/
theorem Agrees.settle {older newer : Ledger} {e : Entry} (h : d.Agrees (older ++ e :: newer))
    (hwaits : e.waits = true)
    (hpast : ∀ p ∈ d.records, p.1 ≤ d.cycle ∧ (p.1 = d.cycle → p.2.isIssue = false)) :
    (d.note (.returned (e.request.markCompleted d.cycle))).Agrees
      (older ++ e.settle d.cycle :: newer) where
  issues := by
    -- a completion is no admission, and changes nothing that is told of one
    rw [records_note, List.filter_append, h.issues, List.map_append, List.map_append]
    exact List.append_nil _
  returns := by
    have hbefore := h.returns
    rw [Ledger.returnRecords_append, Ledger.returnRecords_cons_of_waits hwaits] at hbefore
    have hafter : Ledger.returnRecords (e.settle d.cycle :: newer) =
        (d.cycle, (ReplayEvent.returned (e.request.markCompleted d.cycle)).logged) ::
          newer.returnRecords := rfl
    rw [records_note, List.filter_append, Ledger.returnRecords_append, hafter]
    exact (hbefore.append_right _).trans
      ((List.perm_append_singleton _ _).trans List.perm_middle.symm)
  inOrder := by
    refine inOrder_note h.inOrder fun p hp => ?_
    obtain ⟨hle, hreturn⟩ := hpast p hp
    refine ⟨hle, fun hsame hissue => ?_⟩
    rw [hreturn hsame] at hissue
    cases hissue

end Diary

namespace Driver

variable {queues : Vector (List Request) channels} {left : List (Fin channels)} {d d' : Driver}
  {diary : Diary} {ledger : Ledger}

/-- Books and diary in a cycle in which the channels `left` have not offered yet. -/
structure Noted (queues : Vector (List Request) channels) (left : List (Fin channels)) (d : Driver)
    (diary : Diary) (ledger : Ledger) : Prop where
  sound : d.Sound queues left ledger
  agrees : diary.Agrees ledger
  clock : diary.cycle = d.cycle
  past : ∀ p ∈ diary.records, p.1 ≤ d.cycle

/-- Books and diary in a cycle of which no admission has been noted. -/
structure Settled (queues : Vector (List Request) channels) (d : Driver) (diary : Diary)
    (ledger : Ledger) : Prop where
  sound : d.Sound queues (List.finRange channels) ledger
  agrees : diary.Agrees ledger
  past : ∀ p ∈ diary.records, p.1 ≤ d.cycle ∧ (p.1 = d.cycle → p.2.isIssue = false)

theorem Noted.skip {k : Fin channels} (h : d.Noted queues (k :: left) diary ledger) :
    d.Noted queues left diary ledger :=
  { h with sound := h.sound.skip }

/-- An admission is noted when it is made. -/
theorem Noted.issue {k : Fin channels} {head : Request} {rest : List Request}
    (h : d.Noted queues (k :: left) diary ledger) (hleft : ∀ j ∈ left, k < j)
    (hq : d.queues.get k = head :: rest) :
    (d.issue k head rest).Noted queues left (diary.note (.issued (head.markIssued d.cycle)))
      (ledger ++ [⟨head.markIssued d.cycle, k, true⟩]) where
  sound := h.sound.issue hleft hq
  agrees := by
    rw [← h.clock]
    exact h.agrees.issue (fun p hp => h.clock ▸ h.past p hp) head k
  clock := h.clock
  past := by
    intro p hp
    rcases Diary.mem_records_note.mp hp with hp | rfl
    · exact h.past p hp
    · exact Nat.le_of_eq h.clock

/-- In the next cycle all that has been noted is past. -/
theorem Noted.tick (h : d.Noted queues left diary ledger) :
    ({ d with cycle := d.cycle + 1, mailbox := [] } : Driver).Settled queues diary ledger where
  sound := h.sound.tick _ []
  agrees := h.agrees
  past := by
    intro p hp
    have hle := h.past p hp
    exact ⟨Nat.le_succ_of_le hle, fun hsame => absurd hsame (Nat.ne_of_lt (Nat.lt_succ_of_le hle))⟩

/-- A new cycle begins with what has been completed in it. -/
theorem Settled.begin (h : d.Settled queues diary ledger) :
    d.Noted queues (List.finRange channels) { diary with cycle := d.cycle } ledger where
  sound := h.sound
  agrees := ⟨h.agrees.issues, h.agrees.returns, h.agrees.inOrder⟩
  clock := rfl
  past p hp := (h.past p hp).1

/-- A match takes no time. -/
theorem cycle_of_match? {key : Completion} {found : Option Request}
    (h : d.match? key = (found, d')) : d'.cycle = d.cycle := by
  have hframe := (d.match?_frame key).2.2.1
  rwa [h] at hframe

/-- A completion is noted when it is matched. -/
theorem Settled.settle {key : Completion} {r : Request} (h : d.Settled queues diary ledger)
    (hclock : diary.cycle = d.cycle) (hmatch : d.match? key = (some r, d')) :
    ∃ ledger, d'.Settled queues (diary.note (.returned r)) ledger := by
  have hsome : ∃ e ∈ ledger, e.awaits key = true := by
    rcases ledger.awaited_or key with hsome | hnone
    · exact hsome
    · rw [h.sound.records.match?_of_not_awaits hnone] at hmatch
      cases hmatch
  have hsound := h.sound.settle hsome
  obtain ⟨older, e, newer, rfl, holder, he⟩ := Ledger.exists_split hsome
  rw [Ledger.settle_eq_of_split holder he, hmatch] at hsound
  have hr : r = e.request.markCompleted d.cycle := by
    rw [h.sound.records.match?_of_split holder he] at hmatch
    exact (Option.some.inj (Prod.mk.inj hmatch).1).symm
  have hcycle := cycle_of_match? hmatch
  have hagrees := h.agrees.settle (Entry.awaits_iff.mp he).1 (by rw [hclock]; exact h.past)
  rw [hclock, ← hr] at hagrees
  refine ⟨_, hsound, hagrees, fun p hp => ?_⟩
  rw [hcycle]
  rcases Diary.mem_records_note.mp hp with hp | rfl
  · exact h.past p hp
  · exact ⟨Nat.le_of_eq hclock, fun _ => rfl⟩

end Driver

namespace Session

variable {σ : Type} [MemorySystem σ] {queues : Vector (List Request) channels}
  {s t : Session σ Diary}

/-- Books and diary are in step, and no admission of the cycle has been noted. -/
def IsSettled (queues : Vector (List Request) channels) (s : Session σ Diary) : Prop :=
  ∃ ledger, s.driver.Settled queues s.observer ledger

theorem offers_noted {ledger : Ledger}
    (hs : s.driver.Noted queues (List.finRange channels) s.observer ledger)
    (h : offers (List.finRange channels) s = .ok t) :
    ∃ ledger, t.driver.Noted queues [] t.observer ledger := by
  -- the channels that are left are in ascending order, so a later admission has a later channel
  have hinv := offers_invariant (P := fun left (t : Session σ Diary) =>
    left.Pairwise (· < ·) ∧ ∃ ledger, t.driver.Noted queues left t.observer ledger) ?_ _
    ⟨List.pairwise_lt_finRange _, ledger, hs⟩ h
  · exact hinv.2
  rintro k left u v ⟨hsorted, ledger, hu⟩ hoffer
  obtain ⟨hleft, hsorted⟩ := List.pairwise_cons.mp hsorted
  refine ⟨hsorted, ?_⟩
  rcases offer_told hoffer with ⟨hd, ho⟩ | ⟨head, rest, hq, hd, htold⟩
  · rw [hd, ho]
    exact ⟨ledger, hu.skip⟩
  · have ho : v.observer = u.observer.note (.issued (head.markIssued u.driver.cycle)) :=
      (congrArg Prod.snd htold).symm
    rw [hd, ho]
    exact ⟨_, hu.issue hleft hq⟩

omit [MemorySystem σ] in
theorem settles_settled {keys : List Completion} (hs : s.IsSettled queues)
    (hclock : s.observer.cycle = s.driver.cycle) (h : settles keys s = .ok t) :
    t.IsSettled queues := by
  have hinv := settles_invariant (P := fun _ (t : Session σ Diary) =>
    t.IsSettled queues ∧ t.observer.cycle = t.driver.cycle) ?_ keys ⟨hs, hclock⟩ h
  · exact hinv.1
  rintro key rest u v ⟨⟨ledger, hu⟩, hclock⟩ hsettle
  obtain ⟨r, hmatch, htold⟩ := settle_told hsettle
  have ho : v.observer = u.observer.note (.returned r) := (congrArg Prod.snd htold).symm
  have hcycle := Driver.cycle_of_match? hmatch
  refine ⟨?_, ?_⟩
  · unfold IsSettled
    rw [ho]
    exact hu.settle hclock hmatch
  · rw [ho, hcycle]
    exact hclock

/-- **A step notes what it admits and what it completes.** -/
theorem step_settled (hs : s.IsSettled queues) (h : s.step = .ok t) : t.IsSettled queues := by
  obtain ⟨ledger, hs⟩ := hs
  obtain ⟨u, v, w, hu, hbegun, hoffers, hadvance, hdeliver⟩ := step_told h
  have hobserver : u.observer = { s.observer with cycle := s.driver.cycle } :=
    (congrArg Prod.snd hbegun).symm
  obtain ⟨ledger, hv⟩ := offers_noted (s := u) (by rw [hu, hobserver]; exact hs.begin) hoffers
  obtain ⟨_, _, -, -, rfl⟩ := advance_eq_ok hadvance
  obtain ⟨x, hx, hsettles, htold⟩ := deliver_told hdeliver
  rcases htold with ⟨hnil, hx'⟩ | htold
  · -- nothing has completed
    rw [hnil] at hsettles
    obtain rfl := Progress.ok_inj hsettles
    refine ⟨ledger, ?_⟩
    rw [hx, hx']
    exact hv.tick
  · have hx' : x.observer = { v.observer with cycle := v.driver.cycle + 1 } :=
      (congrArg Prod.snd htold).symm
    refine settles_settled ⟨ledger, ?_⟩ ?_ hsettles
    · rw [hx, hx']
      exact ⟨hv.tick.sound, ⟨hv.agrees.issues, hv.agrees.returns, hv.agrees.inOrder⟩, hv.tick.past⟩
    · rw [hx, hx']

end Session

/-! ### Diaries and reports -/

section

variable {σ : Type} [MemorySystem σ] {queues : Vector (List Request) channels} {memory : σ}
  {report : RunReport}

theorem opening_isSettled (queues : Vector (List Request) channels) (memory : σ) :
    (Session.opening queues memory ({} : Diary)).attach.IsSettled queues :=
  ⟨[], Driver.ofQueues_sound queues _, ⟨rfl, .refl _, .nil⟩, fun _ hp => absurd hp List.not_mem_nil⟩

/-- What a diary says of a report. -/
structure Diary.TellsOf (d : Diary) (report : RunReport) : Prop where
  issues : d.records.filter (·.2.isIssue) = report.requests.map Request.issueRecord
  returns : (d.records.filter (!·.2.isIssue)).Perm (report.requests.map Request.returnRecord)
  inOrder : d.records.Pairwise InOrder

/-- The diary of a replay tells of every request of its report. -/
theorem diary_of_run {last : Session σ Diary}
    (h : (Session.opening queues memory ({} : Diary)).run = (.ok report, last)) :
    last.observer.TellsOf report := by
  obtain ⟨n, u, hsteps, hdone, hd, rfl, hfinish⟩ := Session.run_told h
  have ho : last.observer = u.observer := (congrArg Prod.snd hfinish).symm
  obtain ⟨ledger, hu⟩ := Session.steps_invariant (fun _ _ => Session.step_settled)
    (opening_isSettled queues memory) hsteps
  obtain ⟨-, hsettled⟩ := hu.sound.conserves.all_settled hu.sound.records hdone
  have hrequests : last.report.requests = ledger.map Entry.request := by
    show last.driver.slots.toList = _
    rw [hd, hu.sound.records.slots]
  have hall : (ledger.filter fun e => !e.waits) = ledger :=
    List.filter_eq_self.mpr fun e he => by simp [hsettled e he]
  rw [ho]
  refine ⟨?_, ?_, hu.agrees.inOrder⟩
  · rw [hu.agrees.issues, hrequests, List.map_map]
    rfl
  · have hreturns := hu.agrees.returns
    unfold Ledger.returnRecords at hreturns
    rw [hall] at hreturns
    rw [hrequests, List.map_map]
    exact hreturns

end

/-! ### Logs and reports -/

namespace EventLog

variable {τ : Type} [LogDevice τ] {R : ReliableDevice τ} {log : EventLog τ} {d : Diary}

/-- The events of a stream, as its text tells them. -/
theorem Keeps.events? (h : Keeps R log d) (stream : Stream) :
    events? (R.text log.device (.stream stream)) =
      some ((d.ofStream stream).map ReplayEvent.record) := by
  rw [(h.shows stream).text]
  exact events?_unlines_written _

/-- Whether a line of the log belongs in a stream can be seen from what it tells. -/
theorem map_record_ofStream (d : Diary) : (d.ofStream .all).map ReplayEvent.record = d.records ∧
    (d.ofStream .issue).map ReplayEvent.record = d.records.filter (·.2.isIssue) ∧
    (d.ofStream .completion).map ReplayEvent.record = d.records.filter (!·.2.isIssue) := by
  have hissue : ∀ p : Nat × ReplayEvent, p.2.isIssue = (ReplayEvent.record p).2.isIssue := by
    rintro ⟨_, _ | _⟩ <;> rfl
  unfold Diary.ofStream Diary.records
  refine ⟨?_, ?_, ?_⟩
  · exact congrArg _ (List.filter_eq_self.mpr fun _ _ => rfl)
  · rw [List.filter_map]
    exact congrArg _ (List.filter_congr fun p _ => hissue p)
  · rw [List.filter_map]
    exact congrArg _ (List.filter_congr fun p _ => congrArg Bool.not (hissue p))

/-- No stream stamps a cycle twice if cycles never decrease. -/
theorem Keeps.stamps? (h : Keeps R log d) (hsorted : d.records.Pairwise fun p q => p.1 ≤ q.1)
    (stream : Stream) : ∃ stamps, EventLog.stamps? (R.text log.device (.stream stream)) = some stamps ∧
      stamps.Nodup := by
  rw [(h.shows stream).text]
  have hevents : (d.ofStream stream).Pairwise fun p q => p.1 ≤ q.1 :=
    (List.pairwise_map.mp hsorted).filter _
  obtain ⟨stamps, hstamps, hascending⟩ := stamps?_unlines_written hevents
  exact ⟨stamps, hstamps, hascending.imp Nat.ne_of_lt⟩

end EventLog

/-- **The event log and the report agree**, over any memory and any reliable device, whatever is
shown on the console. The stream of admissions tells of the requests of the report, in their order
and in the cycles of their admission. The stream of completions tells of each of them once, in the
cycle of its completion and with both cycles and their difference, and its cycles never decrease.
The stream of all events consists of the two, its cycles never decrease, and within a cycle
completions come before admissions. No stream stamps a cycle twice. -/
theorem log_agrees_with_report {σ τ : Type} [MemorySystem σ] [LogDevice τ] (R : ReliableDevice τ)
    (queues : Vector (List Request) channels) (memory : σ) (device : τ) (verbosity : Verbosity)
    (hasConsole : Bool) (hworks : R.works device)
    (hempty : ∀ stream, R.text device (.stream stream) = "") {report : RunReport}
    {last : Session σ (EventLog τ)}
    (h : (Session.opening queues memory
      ({ device, verbosity, hasConsole } : EventLog τ)).run = (.ok report, last)) :
    ∃ all returns,
      EventLog.events? (R.text last.observer.device (.stream .issue)) =
        some (report.requests.map fun r => (r.issueCycle, .issue r.key)) ∧
      EventLog.events? (R.text last.observer.device (.stream .completion)) = some returns ∧
      returns.Perm (report.requests.map fun r => (r.completeCycle,
        .completion r.key r.issueCycle r.completeCycle (r.completeCycle - r.issueCycle))) ∧
      (∀ r ∈ report.requests, r.issueCycle < r.completeCycle) ∧
      returns.Pairwise (fun p q => p.1 ≤ q.1) ∧
      EventLog.events? (R.text last.observer.device (.stream .all)) = some all ∧
      all.filter (·.2.isIssue) = report.requests.map (fun r => (r.issueCycle, .issue r.key)) ∧
      all.filter (!·.2.isIssue) = returns ∧
      all.Pairwise (fun p q =>
        p.1 ≤ q.1 ∧ (p.1 = q.1 → p.2.isIssue = true → q.2.isIssue = true)) ∧
      ∀ stream, ∃ stamps,
        EventLog.stamps? (R.text last.observer.device (.stream stream)) = some stamps ∧
          stamps.Nodup := by
  obtain ⟨_, hfaithful⟩ := exists_faithful h
  -- the same replay with a diary in place of the log
  have hopening : Session.Matches (EventLog.Keeps R)
      (Session.opening queues memory ({ device, verbosity, hasConsole } : EventLog τ))
      (Session.opening queues memory ({} : Diary)) :=
    ⟨rfl, rfl, .opening hworks hempty verbosity hasConsole⟩
  obtain ⟨hresult, hmatches⟩ := Session.run_matches (EventLog.keeps_follows R) hopening
  rw [h] at hresult hmatches
  have hkeeps := hmatches.observer
  have htells : (Session.opening queues memory ({} : Diary)).run.2.observer.TellsOf report :=
    diary_of_run (Prod.ext hresult.symm rfl)
  generalize (Session.opening queues memory ({} : Diary)).run.2.observer = d at hkeeps htells
  obtain ⟨hall, hissue, hreturn⟩ := EventLog.map_record_ofStream d
  have hsorted : d.records.Pairwise fun p q => p.1 ≤ q.1 := htells.inOrder.imp And.left
  refine ⟨d.records, d.records.filter (!·.2.isIssue), ?_, ?_, htells.returns,
    fun r hr => (hfaithful.completed r hr).2, hsorted.filter _, ?_, htells.issues, rfl,
    htells.inOrder, hkeeps.stamps? hsorted⟩
  · rw [hkeeps.events?, hissue, htells.issues]
    rfl
  · rw [hkeeps.events?, hreturn]
  · rw [hkeeps.events?, hall]

theorem requests_oddCycles (bus : Bus) :
    (Session.opening threeRequests (oddCycles bus) Silence.mk).run.1.toOption.map
      RunReport.requests = some [⟨0, .read, 1, 4, true⟩, ⟨64, .write, 1, 2, true⟩,
        ⟨0, .read, 3, 6, true⟩] := by
  cbv

/-- A transcript without text. -/
def blankLog (verbosity : Verbosity) : EventLog Transcript := { device := {}, verbosity }

/-- The write completes before the first read, and the second read begins last. -/
theorem log_agrees_with_report_oddCycles : ∃ report last returns,
    Transcript.reliable.works {} ∧
    (∀ stream, Transcript.reliable.text {} (.stream stream) = "") ∧
    (Session.opening threeRequests (oddCycles {}) (blankLog .all)).run = (.ok report, last) ∧
    EventLog.events? (last.observer.device.text (.stream .issue)) =
      some [(1, .issue ⟨0, .read⟩), (1, .issue ⟨64, .write⟩), (3, .issue ⟨0, .read⟩)] ∧
    EventLog.events? (last.observer.device.text (.stream .completion)) = some returns ∧
    returns.Perm [(4, .completion ⟨0, .read⟩ 1 4 3), (2, .completion ⟨64, .write⟩ 1 2 1),
      (6, .completion ⟨0, .read⟩ 3 6 3)] := by
  have hempty : ∀ stream, Transcript.reliable.text {} (.stream stream) = "" := fun _ => rfl
  have hmatches : Session.Matches (fun (log : EventLog Transcript) (_ : Silence) =>
      Transcript.reliable.works log.device)
      (Session.opening threeRequests (oddCycles {}) (blankLog .all))
      (Session.opening threeRequests (oddCycles {}) Silence.mk) := ⟨rfl, rfl, rfl⟩
  have hsame := (Session.run_matches (EventLog.works_follows Transcript.reliable) hmatches).1
  have hrequests := requests_oddCycles {}
  rw [← hsame] at hrequests
  rcases hrun : (Session.opening threeRequests (oddCycles {}) (blankLog .all)).run
    with ⟨_ | report, last⟩
  · rw [hrun] at hrequests
    cases hrequests
  · rw [hrun] at hrequests
    have hrequests : report.requests = _ := Option.some.inj hrequests
    obtain ⟨_, returns, hissues, hreturns, hperm, -⟩ :=
      log_agrees_with_report Transcript.reliable threeRequests (oddCycles {}) {} .all true rfl hempty
        hrun
    rw [hrequests] at hissues hperm
    exact ⟨report, last, returns, rfl, hempty, rfl, hissues, hreturns, hperm⟩

end MemoryReplay
