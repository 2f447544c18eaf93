import MemoryReplay.Proofs.EventLog.Reading

/-!
# Streams of an event log, read

A line without a stamp is of the cycle that was stamped last above it, so a stream tells of its
events with their cycles although it stamps each cycle once.

- `LogLine.dated`: the events of lines with their cycles.
- `EventLog.events?`, `EventLog.stamps?`: what the text of a stream tells, and what it stamps.
- `EventLog.written`: the lines that are written of events.
- `events?_unlines_written`: the events are read back, whatever their cycles are.
- `stamps?_unlines_written`: cycles that never decrease are stamped once each.
-/

namespace MemoryReplay

open Text

/-- The events of lines, each with its cycle: the line's own stamp, or else the last one above it. -/
def LogLine.dated : Option Nat → List LogLine → Option (List (Nat × LoggedEvent))
  | _, [] => some []
  | above, line :: rest => do
    let cycle ← line.stamp.or above
    return (cycle, line.event) :: (← dated (some cycle) rest)

namespace EventLog

/-- The lines of a stream. -/
def lines? (text : String) : Option (List LogLine) :=
  (TraceFile.lines (utf8 text)).mapM fun line => (TraceFile.text? line).bind LogLine.read?

/-- The events that a stream tells of, each with its cycle. -/
def events? (text : String) : Option (List (Nat × LoggedEvent)) :=
  (lines? text).bind (LogLine.dated none)

/-- The cycles that a stream stamps. -/
def stamps? (text : String) : Option (List Nat) :=
  (lines? text).map (List.filterMap LogLine.stamp)

/-- What stands before the line of an event. -/
def margin (above : Option Nat) (cycle : Nat) : String :=
  if above = some cycle then indentation else stamp cycle

/-- The lines of events with their cycles: stamped, unless the cycle stands above. -/
def written (above : Option Nat) : List (Nat × ReplayEvent) → List String
  | [] => []
  | (cycle, e) :: rest => (margin above cycle ++ e.line) :: written (some cycle) rest

/-- The cycle that stands above what follows. -/
def lastCycle (above : Option Nat) : List (Nat × ReplayEvent) → Option Nat
  | [] => above
  | (cycle, _) :: rest => lastCycle (some cycle) rest

/-- What the lines of events say. -/
def marked (above : Option Nat) : List (Nat × ReplayEvent) → List LogLine
  | [] => []
  | (cycle, e) :: rest =>
    ⟨if above = some cycle then none else some cycle, e.logged⟩ :: marked (some cycle) rest

variable {above : Option Nat} {events : List (Nat × ReplayEvent)} {cycle : Nat} {e : ReplayEvent}

/-! ### One more event -/

theorem lastCycle_concat : lastCycle above (events ++ [(cycle, e)]) = some cycle := by
  induction events generalizing above with
  | nil => rfl
  | cons first rest ih => exact ih

theorem written_concat : written above (events ++ [(cycle, e)]) =
    written above events ++ [margin (lastCycle above events) cycle ++ e.line] := by
  induction events generalizing above with
  | nil => rfl
  | cons first rest ih =>
    rw [List.cons_append, written, ih]
    rfl

/-! ### Reading -/

theorem read?_margin (above : Option Nat) (cycle : Nat) (e : ReplayEvent) :
    LogLine.read? (margin above cycle ++ e.line).toList =
      some ⟨if above = some cycle then none else some cycle, e.logged⟩ := by
  unfold margin
  by_cases habove : above = some cycle
  · rw [if_pos habove, if_pos habove]
    exact LogLine.read?_indentation e
  · rw [if_neg habove, if_neg habove]
    exact LogLine.read?_stamp cycle e

theorem newline_notMem_margin (above : Option Nat) (cycle : Nat) (e : ReplayEvent) :
    '\n' ∉ (margin above cycle ++ e.line).toList := by
  have hmargin : '\n' ∉ (margin above cycle).toList := by
    unfold margin
    by_cases habove : above = some cycle
    · rw [if_pos habove]
      decide
    · rw [if_neg habove]
      exact LogLine.newline_notMem_stamp cycle
  intro hmem
  rw [String.toList_append] at hmem
  rcases List.mem_append.mp hmem with hmem | hmem
  · exact hmargin hmem
  · exact LogLine.newline_notMem_line e hmem

theorem newline_notMem_written (above : Option Nat) (events : List (Nat × ReplayEvent)) :
    ∀ line ∈ written above events, '\n' ∉ line.toList := by
  induction events generalizing above with
  | nil => exact fun _ hline => absurd hline List.not_mem_nil
  | cons first rest ih =>
    obtain ⟨cycle, e⟩ := first
    intro line hline
    rcases List.mem_cons.mp hline with rfl | hline
    · exact newline_notMem_margin above cycle e
    · exact ih (some cycle) line hline

/-- What was written is read line by line. -/
theorem mapM_read?_written (above : Option Nat) (events : List (Nat × ReplayEvent)) :
    (written above events).mapM (fun line => LogLine.read? line.toList) =
      some (marked above events) := by
  induction events generalizing above with
  | nil => rfl
  | cons first rest ih =>
    obtain ⟨cycle, e⟩ := first
    rw [written, List.mapM_cons, read?_margin, ih]
    rfl

theorem lines?_unlines_written (events : List (Nat × ReplayEvent)) :
    lines? (unlines (written none events)) = some (marked none events) := by
  unfold lines?
  rw [TraceFile.lines_utf8_unlines (newline_notMem_written none events), List.mapM_map]
  rw [← mapM_read?_written]
  congr 1
  funext line
  show (TraceFile.text? (utf8 line)).bind LogLine.read? = _
  rw [TraceFile.text?_utf8]
  rfl

/-- A line says its cycle, or leaves it to the line above. -/
theorem dated_marked (above : Option Nat) (events : List (Nat × ReplayEvent)) :
    LogLine.dated above (marked above events) =
      some (events.map fun p => (p.1, p.2.logged)) := by
  induction events generalizing above with
  | nil => rfl
  | cons first rest ih =>
    obtain ⟨cycle, e⟩ := first
    have hcycle : (if above = some cycle then none else some cycle).or above = some cycle := by
      by_cases habove : above = some cycle
      · rw [if_pos habove, Option.none_or, habove]
      · rw [if_neg habove, Option.some_or]
    rw [marked, LogLine.dated, hcycle]
    show (LogLine.dated (some cycle) (marked (some cycle) rest)).bind _ = _
    rw [ih]
    rfl

/-- **The events of a stream are read back**, each with its cycle. -/
theorem events?_unlines_written (events : List (Nat × ReplayEvent)) :
    events? (unlines (written none events)) = some (events.map fun p => (p.1, p.2.logged)) := by
  unfold events?
  rw [lines?_unlines_written]
  exact dated_marked none events

/-! ### Stamps -/

/-- Cycles that never decrease are stamped in ascending order, and above the one that stands
above. -/
theorem stamps_marked (habove : ∀ n ∈ above, ∀ p ∈ events, n ≤ p.1)
    (hsorted : events.Pairwise fun p q => p.1 ≤ q.1) :
    ((marked above events).filterMap LogLine.stamp).Pairwise (· < ·) ∧
      ∀ n ∈ above, ∀ m ∈ (marked above events).filterMap LogLine.stamp, n < m := by
  induction events generalizing above with
  | nil => exact ⟨.nil, fun _ _ _ hm => absurd hm List.not_mem_nil⟩
  | cons first rest ih =>
    obtain ⟨cycle, e⟩ := first
    obtain ⟨hfirst, hrest⟩ := List.pairwise_cons.mp hsorted
    have hbelow : ∀ n ∈ some cycle, ∀ p ∈ rest, n ≤ p.1 := by
      rintro n hn p hp
      obtain rfl := Option.mem_some.mp hn
      exact hfirst p hp
    obtain ⟨hpairwise, hlater⟩ := ih hbelow hrest
    have hlater := hlater cycle rfl
    by_cases hsame : above = some cycle
    · -- the cycle stands above and is not stamped again
      have hskip : (marked above ((cycle, e) :: rest)).filterMap LogLine.stamp =
          (marked (some cycle) rest).filterMap LogLine.stamp := by
        rw [marked, if_pos hsame]
        rfl
      rw [hskip]
      refine ⟨hpairwise, fun n hn m hm => ?_⟩
      obtain rfl := Option.mem_some.mp (hsame ▸ hn)
      exact hlater m hm
    · have hstamp : (marked above ((cycle, e) :: rest)).filterMap LogLine.stamp =
          cycle :: (marked (some cycle) rest).filterMap LogLine.stamp := by
        rw [marked, if_neg hsame]
        rfl
      rw [hstamp]
      refine ⟨List.pairwise_cons.mpr ⟨hlater, hpairwise⟩, fun n hn m hm => ?_⟩
      have hle : n ≤ cycle := habove n hn (cycle, e) List.mem_cons_self
      have hne : n ≠ cycle := fun heq => hsame (heq ▸ hn)
      rcases List.mem_cons.mp hm with rfl | hm
      · exact Nat.lt_of_le_of_ne hle hne
      · exact Nat.lt_of_le_of_lt hle (hlater m hm)

/-- **Cycles that never decrease are stamped once each.** -/
theorem stamps?_unlines_written (hsorted : events.Pairwise fun p q => p.1 ≤ q.1) :
    ∃ stamps, stamps? (unlines (written none events)) = some stamps ∧
      stamps.Pairwise (· < ·) := by
  unfold stamps?
  rw [lines?_unlines_written]
  have hnothing : ∀ n ∈ (none : Option Nat), ∀ p ∈ events, n ≤ p.1 :=
    fun _ hn => absurd hn (Option.not_mem_none _)
  exact ⟨_, rfl, (stamps_marked hnothing hsorted).1⟩

end EventLog

end MemoryReplay
