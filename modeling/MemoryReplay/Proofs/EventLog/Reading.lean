import MemoryReplay.EventLog.Logger
import MemoryReplay.Proofs.TraceFile.RoundTrip
import Std.Data.String.ToNat

/-!
# Lines of an event log, read

The words of a line say which event it tells of, and whether the line bears a stamp. Nothing that
a reader needs is in the number of blanks between them.

- `LogLine.read?`: what a line says. It knows the words of the format and not how they are filled
  up to columns.
- `ReplayEvent`: what happens in a replay, with its line. `ReplayEvent.logged`: what is told of it.
- `read?_stamp`, `read?_indentation`: a line says what was written.
-/

namespace MemoryReplay

/-- What a line of a log tells of. -/
inductive LoggedEvent where
  | issue (key : Completion)
  | completion (key : Completion) (added done latency : Nat)
  deriving Repr, DecidableEq

/-- A line of a log. -/
structure LogLine where
  /-- The cycle with which it is stamped, if it is. -/
  stamp : Option Nat
  event : LoggedEvent
  deriving Repr, DecidableEq

namespace LogLine

open Text

/-- A comma separates words as a blank does. -/
def separator (c : Char) : Char := if c = ',' then ' ' else c

/-- The words of a line. -/
def words (line : List Char) : List String := (fields (line.map separator)).map String.ofList

/-- The direction of a word. -/
def direction? : String → Option Direction
  | "READ" => some .read
  | "WRITE" => some .write
  | _ => none

/-- The direction and the address of two words. -/
def key? (direction address : String) : Option Completion := do
  return ⟨← Record.address? address.toList, ← direction? direction⟩

/-- The event of a line, by its words behind the stamp. -/
def event? : List String → Option LoggedEvent
  | ["[*]", "(Issue)", "Type:", direction, "|", "Addr:", address] =>
    (key? direction address).map .issue
  | ["[=]", "(Return)", "Type:", direction, "|", "Addr:", address, "|", "Added:", added, "Done:",
      done, "Latency:", latency] => do
    return .completion (← key? direction address) (← added.toNat?) (← done.toNat?)
      (← latency.toNat?)
  | _ => none

/-- What a line says. -/
def read? (line : List Char) : Option LogLine :=
  match words line with
  | "[+]" :: cycle :: rest => do return ⟨some (← cycle.toNat?), ← event? rest⟩
  | rest => (event? rest).map (⟨none, ·⟩)

end LogLine

/-- What an observer of a replay is told of. -/
inductive ReplayEvent where
  /-- A request was admitted. -/
  | issued (r : Request)
  /-- A request was completed. -/
  | returned (r : Request)
  deriving Repr, DecidableEq

namespace ReplayEvent

/-- Whether it is an admission. -/
def isIssue : ReplayEvent → Bool
  | issued _ => true
  | returned _ => false

/-- The line that is written of it. -/
def line : ReplayEvent → String
  | issued r => EventLog.issueLine r
  | returned r => EventLog.completionLine r

/-- What is told of it. -/
def logged : ReplayEvent → LoggedEvent
  | issued r => .issue r.key
  | returned r => .completion r.key r.issueCycle r.completeCycle (r.completeCycle - r.issueCycle)

end ReplayEvent

namespace LogLine

open Text

variable {cs gap after word : List Char}

/-! ### Words -/

/-- A text that is a word of its own. -/
structure IsWord (word : List Char) : Prop where
  field : IsField word
  plain : ',' ∉ word

/-- A text that keeps words apart. -/
structure IsGap (gap : List Char) : Prop where
  nonempty : gap ≠ []
  blank : allBlank (gap.map separator) = true

/-- Words with a gap before each of them. -/
def spaced (pieces : List (List Char × List Char)) : List Char :=
  pieces.flatMap fun piece => piece.1 ++ piece.2

theorem map_separator (h : ',' ∉ cs) : cs.map separator = cs := by
  refine (List.map_congr_left fun c hc => ?_).trans (List.map_id cs)
  have hne : c ≠ ',' := fun heq => h (heq ▸ hc)
  unfold separator
  rw [if_neg hne]
  rfl

/-- What starts with a gap starts with a blank. -/
theorem IsGap.startsBlank (h : IsGap gap) (after : List Char) :
    StartsBlank ((gap ++ after).map separator) := by
  rw [List.map_append]
  exact startsBlank_append (by simpa using h.nonempty) h.blank _

theorem words_blanks_append (h : allBlank (gap.map separator) = true) (after : List Char) :
    words (gap ++ after) = words after := by
  unfold words
  rw [List.map_append, fields_blanks_append h]

/-- A word up to a gap or to the end. -/
theorem words_word_append (hword : IsWord word) (hafter : StartsBlank (after.map separator)) :
    words (word ++ after) = String.ofList word :: words after := by
  unfold words
  rw [List.map_append, map_separator hword.plain, fields_run hword.field hafter, List.map_cons]

/-- Words are found one by one. -/
theorem words_spaced {pieces : List (List Char × List Char)}
    (h : ∀ piece ∈ pieces, IsGap piece.1 ∧ IsWord piece.2) :
    words (spaced pieces) = pieces.map fun piece => String.ofList piece.2 := by
  induction pieces with
  | nil => rfl
  | cons piece pieces ih =>
    obtain ⟨gap, word⟩ := piece
    obtain ⟨hgap, hword⟩ := h _ List.mem_cons_self
    have hrest := ih fun p hp => h p (List.mem_cons_of_mem _ hp)
    have hstarts : StartsBlank ((spaced pieces).map separator) := by
      cases pieces with
      | nil => exact startsBlank_nil
      | cons next pieces =>
        obtain ⟨hnext, -⟩ := h next (List.mem_cons_of_mem _ List.mem_cons_self)
        show StartsBlank ((next.1 ++ next.2 ++ spaced pieces).map separator)
        rw [List.append_assoc]
        exact hnext.startsBlank _
    show words (gap ++ word ++ spaced pieces) = _
    rw [List.append_assoc, words_blanks_append hgap.blank, words_word_append hword hstarts,
      List.map_cons, hrest]

/-! ### The words of the format -/

theorem isWord_iff : IsWord word ↔ word ≠ [] ∧ ∀ c ∈ word, isBlank c = false ∧ c ≠ ',' := by
  constructor
  · rintro ⟨⟨hne, hsolid⟩, hplain⟩
    exact ⟨hne, fun c hc => ⟨hsolid c hc, fun heq => hplain (heq ▸ hc)⟩⟩
  · rintro ⟨hne, hall⟩
    exact ⟨⟨hne, fun c hc => (hall c hc).1⟩, fun hc => (hall _ hc).2 rfl⟩

instance (word : List Char) : Decidable (IsWord word) :=
  decidable_of_iff (word ≠ [] ∧ word.all (fun c => !isBlank c && c ≠ ',') = true)
    (by simp [isWord_iff])

theorem isGap_iff : IsGap gap ↔ gap ≠ [] ∧ allBlank (gap.map separator) = true :=
  ⟨fun h => ⟨h.nonempty, h.blank⟩, fun h => ⟨h.1, h.2⟩⟩

instance (gap : List Char) : Decidable (IsGap gap) := decidable_of_iff _ isGap_iff.symm

theorem isGap_of_forall (hne : gap ≠ []) (h : ∀ c ∈ gap, c = ' ') : IsGap gap := by
  refine ⟨hne, List.all_eq_true.mpr fun c hc => ?_⟩
  obtain ⟨d, hd, rfl⟩ := List.mem_map.mp hc
  rw [h d hd]
  rfl

/-- Blanks that fill a column up after its text, and the one behind the column. -/
theorem isGap_behind (n : Nat) : IsGap (List.replicate n ' ' ++ [' ']) := by
  refine isGap_of_forall (by simp) fun c hc => ?_
  rcases List.mem_append.mp hc with hc | hc
  · exact List.eq_of_mem_replicate hc
  · exact List.mem_singleton.mp hc

/-- Blanks that fill a column up before its text, and the one before the column. -/
theorem isGap_before (n : Nat) : IsGap (' ' :: List.replicate n ' ') := by
  refine isGap_of_forall (List.cons_ne_nil _ _) fun c hc => ?_
  rcases List.mem_cons.mp hc with rfl | hc
  · rfl
  · exact List.eq_of_mem_replicate hc

theorem isWord_direction (d : Direction) : IsWord d.word.toList := by
  cases d <;> decide

theorem isWord_toDigits (n : Nat) : IsWord (Nat.toDigits 10 n) := by
  rw [isWord_iff]
  refine ⟨Nat.toDigits_ne_nil, fun c hc => ?_⟩
  have hdigit := Nat.isDigit_of_mem_toDigits (by decide) (by decide) hc
  simp only [Char.isDigit, Bool.and_eq_true, decide_eq_true_eq, UInt32.le_iff_toNat_le] at hdigit
  have hlow : 48 ≤ c.toNat := hdigit.1
  have hhigh : c.toNat ≤ 57 := hdigit.2
  constructor
  · simp [isBlank, blankRanges]
    omega
  · rintro rfl
    exact absurd hlow (by decide)

theorem isWord_decimal (n : Nat) : IsWord (toString n).toList := by
  rw [Nat.toString_eq_ofList_toDigits, String.toList_ofList]
  exact isWord_toDigits n

theorem isWord_addressText (a : UInt64) : IsWord (Record.addressText a).toList := by
  refine ⟨Record.isField_addressText a, fun hmem => ?_⟩
  rw [Record.toList_addressText] at hmem
  rcases List.mem_append.mp hmem with hmem | hmem
  · revert hmem
    decide
  · obtain ⟨_, hvalue⟩ := (Hex.writes_wideDigits 8 a.toNat).exists_value hmem
    cases hvalue

theorem toList_issueLine (r : Request) : (EventLog.issueLine r).toList = spaced
    [("\t\t".toList, "[*]".toList), (" ".toList, "(Issue)".toList), ("  ".toList, "Type:".toList),
      (" ".toList, r.direction.word.toList),
      (List.replicate (15 - r.direction.word.length) ' ' ++ [' '], "|".toList),
      (" ".toList, "Addr:".toList), (" ".toList, (Record.addressText r.address).toList)] := by
  unfold EventLog.issueLine EventLog.subject padRight spaced
  simp

theorem toList_completionLine (r : Request) : (EventLog.completionLine r).toList =
    (spaced [("\t\t".toList, "[=]".toList), (" ".toList, "(Return)".toList),
      (" ".toList, "Type:".toList), (" ".toList, r.direction.word.toList),
      (List.replicate (15 - r.direction.word.length) ' ' ++ [' '], "|".toList),
      (" ".toList, "Addr:".toList), (" ".toList, (Record.addressText r.address).toList),
      (" ".toList, "|".toList), (" ".toList, "Added:".toList),
      (' ' :: List.replicate (5 - (toString r.issueCycle).length) ' ',
        (toString r.issueCycle).toList),
      (", ".toList, "Done:".toList),
      (' ' :: List.replicate (5 - (toString r.completeCycle).length) ' ',
        (toString r.completeCycle).toList),
      (", ".toList, "Latency:".toList),
      (' ' :: List.replicate (5 - (toString r.stampedLatency).length) ' ',
        (toString r.stampedLatency).toList)]) := by
  unfold EventLog.completionLine EventLog.subject EventLog.quantity padRight padLeft fillLeft spaced
  simp

theorem words_issueLine (r : Request) : words (EventLog.issueLine r).toList =
    ["[*]", "(Issue)", "Type:", r.direction.word, "|", "Addr:", Record.addressText r.address] := by
  rw [toList_issueLine, words_spaced]
  · simp only [List.map_cons, List.map_nil, String.ofList_toList]
  · simp +decide only [isGap_behind, isWord_direction, isWord_addressText, List.forall_mem_cons]

theorem words_completionLine (r : Request) : words (EventLog.completionLine r).toList =
    ["[=]", "(Return)", "Type:", r.direction.word, "|", "Addr:", Record.addressText r.address, "|",
      "Added:", toString r.issueCycle, "Done:", toString r.completeCycle, "Latency:",
      toString r.stampedLatency] := by
  rw [toList_completionLine, words_spaced]
  · simp only [List.map_cons, List.map_nil, String.ofList_toList]
  · simp +decide only [isGap_behind, isGap_before, isWord_direction, isWord_addressText,
      isWord_decimal, List.forall_mem_cons]

/-! ### Lines -/

theorem key?_subject (r : Request) :
    key? r.direction.word (Record.addressText r.address) = some r.key := by
  unfold key?
  rw [Record.address?_addressText]
  cases hd : r.direction <;> simp [direction?, Direction.word, Request.key, hd]

theorem event?_issueLine (r : Request) :
    event? (words (EventLog.issueLine r).toList) = some (ReplayEvent.issued r).logged := by
  rw [words_issueLine, event?, key?_subject]
  rfl

theorem event?_completionLine (r : Request) :
    event? (words (EventLog.completionLine r).toList) = some (ReplayEvent.returned r).logged := by
  have hnumber : ∀ n : Nat, (toString n).toNat? = some n := Nat.toNat?_repr
  rw [words_completionLine, event?, key?_subject, hnumber, hnumber, hnumber]
  rfl

theorem event?_line (e : ReplayEvent) : event? (words e.line.toList) = some e.logged := by
  cases e with
  | issued r => exact event?_issueLine r
  | returned r => exact event?_completionLine r

/-- What stands before a line keeps apart from it. -/
theorem startsBlank_line (e : ReplayEvent) : StartsBlank (e.line.toList.map separator) := by
  cases e with
  | issued r =>
    show StartsBlank ((EventLog.issueLine r).toList.map separator)
    rw [toList_issueLine]
    exact startsBlank_cons (by decide) _
  | returned r =>
    show StartsBlank ((EventLog.completionLine r).toList.map separator)
    rw [toList_completionLine]
    exact startsBlank_cons (by decide) _

/-- A line without a stamp says what its event is. -/
theorem read?_of_event? {line : List Char} {e : LoggedEvent}
    (h : event? (words line) = some e) : read? line = some ⟨none, e⟩ := by
  unfold read?
  split
  · next hwords =>
    rw [hwords] at h
    simp [event?] at h
  · rw [h]
    rfl

theorem read?_indentation (e : ReplayEvent) :
    read? (EventLog.indentation ++ e.line).toList = some ⟨none, e.logged⟩ := by
  refine read?_of_event? ?_
  rw [String.toList_append, words_blanks_append (by decide), event?_line]

theorem words_stamp (cycle : Nat) {line : List Char} (h : StartsBlank (line.map separator)) :
    words ((EventLog.stamp cycle).toList ++ line) = "[+]" :: toString cycle :: words line := by
  -- the stamp fills its column up with blanks, of which there may be none
  let fill := List.replicate (5 - (toString cycle).length) ' '
  have hfill : allBlank (fill.map separator) = true := by
    refine List.all_eq_true.mpr fun c hc => ?_
    rw [List.map_replicate] at hc
    rw [List.eq_of_mem_replicate hc]
    rfl
  have hstarts : StartsBlank ((fill ++ line).map separator) := by
    rw [List.map_append]
    exact (startsBlank_of_allBlank hfill).append h
  have hsplit : (EventLog.stamp cycle).toList ++ line =
      "[+]".toList ++ (" ".toList ++ ((toString cycle).toList ++ (fill ++ line))) := by
    unfold EventLog.stamp padRight
    simp [fill]
  rw [hsplit, words_word_append (by decide) ((by decide : IsGap " ".toList).startsBlank _),
    words_blanks_append (by decide), words_word_append (isWord_decimal cycle) hstarts,
    words_blanks_append hfill, String.ofList_toList, String.ofList_toList]

theorem read?_stamp (cycle : Nat) (e : ReplayEvent) :
    read? (EventLog.stamp cycle ++ e.line).toList = some ⟨some cycle, e.logged⟩ := by
  have hnumber : (toString cycle).toNat? = some cycle := Nat.toNat?_repr cycle
  unfold read?
  rw [String.toList_append, words_stamp cycle (startsBlank_line e)]
  show ((toString cycle).toNat?.bind fun n =>
    (event? (words e.line.toList)).bind fun event => some (⟨some n, event⟩ : LogLine)) = _
  rw [hnumber, event?_line]
  rfl

/-! ### Line ends -/

theorem notMem_spaced {c : Char} {pieces : List (List Char × List Char)} (hc : isBlank c = true)
    (h : ∀ piece ∈ pieces, c ∉ piece.1 ∧ IsWord piece.2) : c ∉ spaced pieces := by
  intro hmem
  obtain ⟨piece, hpiece, hmem⟩ := List.mem_flatMap.mp hmem
  obtain ⟨hgap, hword⟩ := h piece hpiece
  rcases List.mem_append.mp hmem with hmem | hmem
  · exact hgap hmem
  · rw [hword.field.solid c hmem] at hc
    cases hc

/-- An event is told of in one line. -/
theorem newline_notMem_line (e : ReplayEvent) : '\n' ∉ e.line.toList := by
  cases e with
  | issued r =>
    show '\n' ∉ (EventLog.issueLine r).toList
    rw [toList_issueLine]
    refine notMem_spaced (by decide) ?_
    simp +decide [isWord_direction, isWord_addressText]
  | returned r =>
    show '\n' ∉ (EventLog.completionLine r).toList
    rw [toList_completionLine]
    refine notMem_spaced (by decide) ?_
    simp +decide [isWord_direction, isWord_addressText, isWord_toDigits]

theorem newline_notMem_stamp (cycle : Nat) : '\n' ∉ (EventLog.stamp cycle).toList := by
  have hcycle : '\n' ∉ Nat.toDigits 10 cycle := fun hmem =>
    absurd ((isWord_toDigits cycle).field.solid _ hmem) (by decide)
  unfold EventLog.stamp padRight
  simp [hcycle]

end LogLine

end MemoryReplay
