import Mathlib
import MemoryReplay.Proofs.Checked
import MemoryReplay.Proofs.TraceFile.RoundTrip

/-!
# Trace files read part by part

A file that is cut at the end of a line is read as its parts are, one after the other. A part does
not know how many lines stand before it, so only the numbers in its errors have to be moved on.

- `TraceFile.EndsLine`: byte strings behind which a new line begins.
- `TraceError.behind`: an error of a part, in a file where other lines stand before the part.
- `lines_append_of_endsLine`, `length_lines`: the lines of the parts, and how many they are.
- `readLines_append`, `readLines_add`: lists of lines read one after the other, and lines that are
  counted from a later number.
- `read_append`: the equation for files. `parts_read_in_turn`: what it says of errors, of blank lines
  and of lines that are no text.
-/

namespace MemoryReplay

open Text

/-- An error of a part of a file, when so many lines stand before the part. -/
def TraceError.behind (before : Nat) : TraceError → TraceError
  | .device path e => .device path e
  | .malformed line content fault => .malformed (line + before) content fault

namespace TraceFile

/-- Nothing, or bytes of which the last one ends a line. -/
def EndsLine (bytes : List UInt8) : Prop := bytes = [] ∨ bytes.getLast? = some lineEnd

variable {a b line rest : List UInt8} {path : String} {first : UInt8}

/-! ### Lines of the parts -/

theorem endsLine_concat (bytes : List UInt8) : EndsLine (bytes ++ [lineEnd]) :=
  .inr List.getLast?_concat

/-- What stands behind a byte ends a line if the whole does. -/
theorem EndsLine.tail (h : EndsLine (first :: rest)) : EndsLine rest := by
  cases rest with
  | nil => exact .inl rfl
  | cons second rest =>
    rcases h with h | h
    · cases h
    · exact .inr (by rwa [List.getLast?_cons_cons] at h)

theorem lines_ne_nil (h : a ≠ []) : lines a ≠ [] := by
  cases a with
  | nil => exact absurd rfl h
  | cons first rest =>
    rw [lines]
    split
    · exact List.cons_ne_nil _ _
    · split <;> exact List.cons_ne_nil _ _

/-- A line that has begun goes on until it ends. -/
theorem EndsLine.exists_lines (h : EndsLine (first :: rest)) (hfirst : first ≠ lineEnd) :
    ∃ line more, lines rest = line :: more := by
  refine List.exists_cons_of_ne_nil (lines_ne_nil ?_)
  rintro rfl
  rcases h with h | h
  · cases h
  · exact hfirst (Option.some.inj h)

/-- Where a new line begins, no line goes on. -/
theorem lines_append_of_endsLine (ha : EndsLine a) (b : List UInt8) :
    lines (a ++ b) = lines a ++ lines b := by
  induction a with
  | nil => rfl
  | cons first rest ih =>
    have hrest := ih ha.tail
    by_cases hfirst : first = lineEnd
    · rw [List.cons_append, lines, if_pos hfirst, hrest, lines, if_pos hfirst, List.cons_append]
    · obtain ⟨line, more, hlines⟩ := ha.exists_lines hfirst
      rw [List.cons_append, lines, if_neg hfirst, hrest, lines, if_neg hfirst, hlines]
      rfl

theorem length_lines (ha : EndsLine a) : (lines a).length = a.count lineEnd := by
  induction a with
  | nil => rfl
  | cons first rest ih =>
    have hrest := ih ha.tail
    by_cases hfirst : first = lineEnd
    · rw [lines, if_pos hfirst, List.length_cons, hrest, hfirst, List.count_cons_self]
    · obtain ⟨line, more, hlines⟩ := ha.exists_lines hfirst
      rw [hlines] at hrest
      rw [lines, if_neg hfirst, hlines, List.count_cons_of_ne hfirst, ← hrest]
      rfl

/-- Bytes without a line end are one line. -/
theorem lines_of_notMem (h : lineEnd ∉ line) (hne : line ≠ []) : lines line = [line] := by
  induction line with
  | nil => exact absurd rfl hne
  | cons first rest ih =>
    obtain ⟨hfirst, hrest⟩ := not_or.mp (mt List.mem_cons.mpr h)
    rw [lines, if_neg (Ne.symm hfirst)]
    cases rest with
    | nil => rfl
    | cons second rest => rw [ih hrest (List.cons_ne_nil _ _)]

/-! ### Lines read one list after the other -/

/-- Lines are read from the first one on: those behind an error are not looked at. -/
theorem readLines_append (path : String) (number : Nat) (before after : List (List UInt8)) :
    readLines path number (before ++ after) = do
      let trace ← readLines path number before
      let more ← readLines path (number + before.length) after
      return trace ++ more := by
  induction before generalizing number with
  | nil => exact (bind_pure (readLines path number after)).symm
  | cons line before ih =>
    rw [List.cons_append, readLines, ih, readLines, List.length_cons, Nat.add_right_comm, Nat.add_assoc]
    simp only [bind_assoc, pure_bind, List.append_assoc]

/-- The number of a line is only told. -/
theorem readLine_add (path : String) (number before : Nat) (line : List UInt8) :
    readLine path (number + before) line = (readLine path number line).mapError (.behind before) := by
  unfold readLine
  split
  · rfl
  · split
    · rfl
    · split <;> rfl

theorem readLines_add (path : String) (number before : Nat) (lines : List (List UInt8)) :
    readLines path (number + before) lines =
      (readLines path number lines).mapError (.behind before) := by
  induction lines generalizing number with
  | nil => rfl
  | cons line rest ih =>
    rw [readLines, readLine_add, Nat.add_right_comm, ih, readLines]
    cases readLine path number line with
    | error e => rfl
    | ok here => cases readLines path (number + 1) rest <;> rfl

/-! ### Files -/

/-- **A file is read as its parts are**, one after the other. -/
theorem read_append (path : String) (ha : EndsLine a) (b : List UInt8) : read path (a ++ b) = do
    let trace ← read path a
    let more ← (read path b).mapError (.behind (a.count lineEnd))
    return trace ++ more := by
  unfold read
  rw [lines_append_of_endsLine ha, readLines_append, length_lines ha, readLines_add]

theorem read_append_eq_ok_iff (ha : EndsLine a) {trace : List Request} :
    read path (a ++ b) = .ok trace ↔
      ∃ first more, read path a = .ok first ∧ read path b = .ok more ∧ trace = first ++ more := by
  rw [read_append path ha]
  constructor
  · intro h
    obtain ⟨first, hfirst, h⟩ := Outcome.bind_eq_ok_iff.mp h
    obtain ⟨more, hmore, h⟩ := Outcome.bind_eq_ok_iff.mp h
    refine ⟨first, more, hfirst, ?_, (Except.ok.inj h).symm⟩
    cases hb : read path b with
    | error e =>
      rw [hb] at hmore
      cases hmore
    | ok found => rwa [hb] at hmore
  · rintro ⟨first, more, hfirst, hmore, rfl⟩
    rw [hfirst, hmore]
    rfl

theorem readLine_blank {cs : List Char} (path : String) (number : Nat) (htext : text? line = some cs)
    (hblank : allBlank cs = true) : readLine path number line = .ok none := by
  unfold readLine
  rw [htext]
  exact if_pos hblank

/-- A blank line holds no request, and neither does one at the end of a file that no byte ends. -/
theorem read_blank {cs : List Char} (path : String) (htext : text? line = some cs)
    (hblank : allBlank cs = true) (hline : lineEnd ∉ line) :
    read path (line ++ [lineEnd]) = .ok [] ∧ read path line = .ok [] := by
  have hread : readLines path 1 [line] = .ok [] := by
    rw [readLines, readLine_blank path 1 htext hblank]
    rfl
  constructor
  · unfold read
    rw [lines_append hline, lines, hread]
  · by_cases hne : line = []
    · rw [hne]
      rfl
    · unfold read
      rw [lines_of_notMem hline hne, hread]

/-- A bad line is the error of the file if the lines before it are read. What stands behind it is not
looked at. -/
theorem read_of_bad {trace : List Request} {e : TraceError} (ha : EndsLine a)
    (hfirst : read path a = .ok trace) (hline : lineEnd ∉ line)
    (hrest : rest = [] ∨ rest.head? = some lineEnd)
    (hbad : readLine path (a.count lineEnd + 1) line = .error e) :
    read path (a ++ line ++ rest) = .error e := by
  have hne : line ≠ [] := by
    rintro rfl
    have htext : text? [] = some [] := rfl
    rw [readLine_blank path _ htext rfl] at hbad
    cases hbad
  obtain ⟨more, hlines⟩ : ∃ more, lines (line ++ rest) = line :: more := by
    rcases hrest with rfl | hrest
    · exact ⟨[], by rw [List.append_nil, lines_of_notMem hline hne]⟩
    · obtain ⟨behind, rfl⟩ := List.head?_eq_some_iff.mp hrest
      exact ⟨lines behind, lines_append hline behind⟩
  unfold read at hfirst ⊢
  rw [List.append_assoc, lines_append_of_endsLine ha, readLines_append, hfirst, hlines,
    length_lines ha, Nat.add_comm 1, readLines, hbad]
  rfl

/-- **Parts of a file are read in turn.** Let the first part end a line. If it is refused, the file is
refused with the same error, whatever follows. If it is read, the file is read as both traces one
behind the other, or refused with the error of the second part, where the number of a line counts
the lines of the first part too. So a blank line between the parts adds no request, and adds one to
the numbers of the lines behind it. A line that is no text, as any other bad line, is the error of
the file whatever stands behind it. -/
theorem parts_read_in_turn (path : String) (a b : List UInt8) (ha : EndsLine a) :
    (∀ e, read path a = .error e → read path (a ++ b) = .error e) ∧
    (∀ trace, read path a = .ok trace →
      (∀ more, read path b = .ok more → read path (a ++ b) = .ok (trace ++ more)) ∧
      ∀ e, read path b = .error e → read path (a ++ b) = .error (e.behind (a.count lineEnd))) ∧
    (∀ line cs, text? line = some cs → allBlank cs = true → lineEnd ∉ line →
      (∀ trace, read path (a ++ line) = .ok trace ↔ read path a = .ok trace) ∧
      (∀ trace, read path (a ++ line ++ [lineEnd] ++ b) = .ok trace ↔
        read path (a ++ b) = .ok trace) ∧
      ∀ trace e, read path a = .ok trace → read path b = .error e →
        read path (a ++ line ++ [lineEnd] ++ b) = .error (e.behind (a.count lineEnd + 1))) ∧
    ∀ line rest trace, read path a = .ok trace → lineEnd ∉ line →
      (rest = [] ∨ rest.head? = some lineEnd) →
      (text? line = none → read path (a ++ line ++ rest) = .error (.device path .invalidText)) ∧
      ∀ e, readLine path (a.count lineEnd + 1) line = .error e →
        read path (a ++ line ++ rest) = .error e := by
  refine ⟨fun e hfirst => ?_, fun trace hfirst => ⟨fun more hsecond => ?_, fun e hsecond => ?_⟩,
    fun line cs htext hblank hline => ?_, fun line rest trace hfirst hline hrest => ⟨fun htext => ?_,
    fun e hbad => read_of_bad ha hfirst hline hrest hbad⟩⟩
  · rw [read_append path ha, hfirst]
    rfl
  · exact (read_append_eq_ok_iff ha).mpr ⟨trace, more, hfirst, hsecond, rfl⟩
  · rw [read_append path ha, hfirst, hsecond]
    rfl
  · obtain ⟨hended, hlast⟩ := read_blank path htext hblank hline
    -- the blank line belongs to the part in front of it
    have hends : EndsLine (a ++ line ++ [lineEnd]) := endsLine_concat (a ++ line)
    have hsame : ∀ {blank}, read path blank = .ok [] → ∀ trace,
        read path (a ++ blank) = .ok trace ↔ read path a = .ok trace := by
      intro blank hblank trace
      rw [read_append_eq_ok_iff ha, hblank]
      simp
    refine ⟨hsame hlast, fun trace => ?_, fun trace e hfirst hsecond => ?_⟩
    · rw [read_append_eq_ok_iff hends, read_append_eq_ok_iff ha]
      simp only [List.append_assoc, hsame hended]
    · have hcount : (a ++ line ++ [lineEnd]).count lineEnd = a.count lineEnd + 1 := by
        rw [List.count_append, List.count_append, List.count_eq_zero_of_not_mem hline]
        rfl
      have hbefore : read path (a ++ line ++ [lineEnd]) = .ok trace := by
        rw [List.append_assoc]
        exact (hsame hended trace).mpr hfirst
      rw [read_append path hends, hbefore, hsecond, hcount]
      rfl
  · refine read_of_bad ha hfirst hline hrest ?_
    unfold readLine
    rw [htext]

/-- A record and a blank line. -/
def recordAndBlank : List UInt8 := utf8 "0x10 R\n \r\n"

/-- A record, and a line that has no letter. -/
def recordAndAddress : List UInt8 := utf8 "20 w\n30"

/-- The error is in the second line of the second part, and in the fourth of the file. -/
theorem parts_read_in_turn_recordAndBlank :
    EndsLine recordAndBlank ∧ recordAndBlank.count lineEnd = 2 ∧
    read "" recordAndBlank = .ok [.fresh 0x10 .read] ∧
    read "" recordAndAddress = .error (.malformed 2 "30" .missingToken) ∧
    read "" (recordAndBlank ++ recordAndAddress) = .error (.malformed 4 "30" .missingToken) ∧
    text? (utf8 "\u2003\t") = some "\u2003\t".toList ∧
    allBlank "\u2003\t".toList = true ∧ lineEnd ∉ utf8 "\u2003\t" ∧
    read "" (recordAndBlank ++ utf8 "\u2003\t" ++ [lineEnd] ++ recordAndAddress) =
      .error (.malformed 5 "30" .missingToken) ∧
    text? [0xff] = none ∧
    read "" (recordAndBlank ++ [0xff] ++ lineEnd :: recordAndAddress) =
      .error (.device "" .invalidText) := by
  have hends : EndsLine recordAndBlank := .inr (by cbv)
  have hcount : recordAndBlank.count lineEnd = 2 := by cbv
  have hfirst : read "" recordAndBlank = .ok [.fresh 0x10 .read] := by cbv
  have hsecond : read "" recordAndAddress = .error (.malformed 2 "30" .missingToken) := by cbv
  have htext := text?_utf8 "\u2003\t"
  have hblank : allBlank "\u2003\t".toList = true := by decide
  have hline : lineEnd ∉ utf8 "\u2003\t" := lineEnd_notMem_utf8 (by decide)
  have hinvalid : text? [0xff] = none := by decide
  obtain ⟨-, hparts, hblanks, hbad⟩ :=
    parts_read_in_turn "" recordAndBlank recordAndAddress hends
  refine ⟨hends, hcount, hfirst, hsecond, ?_, htext, hblank, hline, ?_, hinvalid, ?_⟩
  · rw [(hparts _ hfirst).2 _ hsecond, hcount]
    rfl
  · rw [(hblanks _ _ htext hblank hline).2.2 _ _ hfirst hsecond, hcount]
    rfl
  · exact (hbad _ _ _ hfirst (by decide) (.inr rfl)).1 hinvalid

end TraceFile

end MemoryReplay
