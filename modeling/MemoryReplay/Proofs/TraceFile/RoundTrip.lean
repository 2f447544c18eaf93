import MemoryReplay.Proofs.TraceFile.Record

/-!
# Traces that are written and read back

A trace file keeps addresses and directions, and nothing else of a request. So a trace comes back
from its file as fresh requests, and a trace that came from a file comes back as it is.

- `Record.describes_render`: the line that is written for a request describes it.
- `TraceFile.readLines_render`: lines that are written are read, whatever their number is.
- `TraceFile.fresh_of_readLines`: what is read are fresh requests.
- `TraceFile.round_trip`: both ways round.
-/

namespace MemoryReplay

open Text

namespace Record

theorem toList_addressText (a : UInt64) :
    (addressText a).toList = ['0', 'x'] ++ Hex.wideDigits 8 a.toNat := by
  unfold addressText Hex.renderWide
  rw [String.toList_append]
  exact congrArg (['0', 'x'] ++ ·) String.toList_ofList

theorem isAddress_addressText (a : UInt64) : IsAddress plain (addressText a).toList a := by
  refine ⟨['0', 'x'], by decide, [], List.mem_singleton_self _, Hex.wideDigits 8 a.toNat, ?_,
    Hex.writes_wideDigits 8 a.toNat⟩
  rw [toList_addressText, List.append_nil]

/-- An address is read back from its text. -/
theorem address?_addressText (a : UInt64) : address? (addressText a).toList = some a :=
  address?_eq_some_iff.mpr (isAddress_addressText a).signed

theorem isField_addressText (a : UInt64) : IsField (addressText a).toList :=
  isField_of_isAddress (isAddress_addressText a).signed

theorem toList_render (r : Request) :
    (render r).toList = (addressText r.address).toList ++ [' '] ++ [r.direction.token] := by
  unfold render
  rw [String.toList_append, String.toList_append, String.toList_singleton]
  rfl

theorem token_mem_letters (d : Direction) : d.token ∈ letters d := by
  cases d <;> decide

/-- The line that is written for a request describes it. -/
theorem describes_render (r : Request) :
    Describes plain (render r).toList r.address r.direction := by
  refine ⟨[], (addressText r.address).toList, [' '], r.direction.token, [], ?_, rfl,
    isAddress_addressText r.address, by decide, by decide, token_mem_letters r.direction, rfl⟩
  rw [toList_render, List.nil_append, List.append_nil]

theorem read_render (r : Request) : read (render r).toList = .ok (.fresh r.address r.direction) :=
  read_eq_ok_iff.mpr ⟨_, _, (describes_plain_iff.mp (describes_render r)).1, rfl⟩

theorem allBlank_render (r : Request) : allBlank (render r).toList = false := by
  rw [toList_render, toList_addressText]
  rfl

/-- A record is one line. -/
theorem newline_notMem_render (r : Request) : '\n' ∉ (render r).toList := by
  have htoken : ∀ d : Direction, '\n' ≠ d.token := by
    intro d
    cases d <;> decide
  intro hmem
  rw [toList_render] at hmem
  simp only [List.mem_append, List.mem_singleton] at hmem
  rcases hmem with (hmem | hmem) | hmem
  · exact absurd ((isField_addressText r.address).solid _ hmem) (by decide)
  · exact absurd hmem (by decide)
  · exact htoken r.direction hmem

end Record

namespace TraceFile

variable {path : String} {number : Nat}

theorem readLine_render (path : String) (number : Nat) (r : Request) :
    readLine path number (utf8 (Record.render r)) = .ok (some (.fresh r.address r.direction)) := by
  rw [readLine_of_full path number (text?_utf8 _) (Record.allBlank_render r), Record.read_render]

/-- Lines that are written are read, whatever their numbers are. -/
theorem readLines_render (path : String) (number : Nat) (trace : List Request) :
    readLines path number ((trace.map Record.render).map utf8) =
      .ok (trace.map fun r => .fresh r.address r.direction) := by
  induction trace generalizing number with
  | nil => rfl
  | cons r trace ih =>
    rw [List.map_cons, List.map_cons, readLines, readLine_render, ih]
    rfl

/-- Lines that are all read are read one by one. -/
theorem readLines_cons_eq_ok {line : List UInt8} {rest : List (List UInt8)} {trace : List Request}
    (h : readLines path number (line :: rest) = .ok trace) :
    ∃ here later, readLine path number line = .ok here ∧
      readLines path (number + 1) rest = .ok later ∧ trace = here.toList ++ later := by
  rw [readLines] at h
  cases hhere : readLine path number line with
  | error e =>
    rw [hhere] at h
    cases h
  | ok here =>
    cases hlater : readLines path (number + 1) rest with
    | error e =>
      rw [hhere, hlater] at h
      cases h
    | ok later =>
      rw [hhere, hlater] at h
      cases h
      exact ⟨here, later, rfl, rfl, rfl⟩

theorem fresh_of_readLine {bytes : List UInt8} {r : Request}
    (h : readLine path number bytes = .ok (some r)) : r = .fresh r.address r.direction := by
  unfold readLine at h
  split at h
  · cases h
  · split at h
    · cases h
    · split at h
      · next found hread =>
        cases h
        obtain ⟨a, d, -, rfl⟩ := Record.read_eq_ok_iff.mp hread
        rfl
      · cases h

/-- What is read are fresh requests. -/
theorem fresh_of_readLines {lines : List (List UInt8)} {trace : List Request}
    (h : readLines path number lines = .ok trace) :
    trace.map (fun r => Request.fresh r.address r.direction) = trace := by
  induction lines generalizing number trace with
  | nil =>
    cases h
    rfl
  | cons line rest ih =>
    obtain ⟨here, later, hhere, hlater, rfl⟩ := readLines_cons_eq_ok h
    rw [List.map_append, ih hlater]
    cases here with
    | none => rfl
    | some r => rw [Option.toList_some, List.map_singleton, ← fresh_of_readLine hhere]

/-- **A trace is read back from what was written for it**: as fresh requests, with the addresses and
directions in their order. A trace that was read is read back as it is, from whatever bytes it came. -/
theorem round_trip (path : String) :
    (∀ trace, read path (utf8 (render trace)) =
      .ok (trace.map fun r => .fresh r.address r.direction)) ∧
    (∀ bytes trace, read path bytes = .ok trace → read path (utf8 (render trace)) = .ok trace) := by
  have hwritten : ∀ trace, read path (utf8 (render trace)) =
      .ok (trace.map fun r => .fresh r.address r.direction) := by
    intro trace
    have hlines : ∀ s ∈ trace.map Record.render, '\n' ∉ s.toList := by
      intro s hs
      obtain ⟨r, -, rfl⟩ := List.mem_map.mp hs
      exact Record.newline_notMem_render r
    unfold read render
    rw [lines_utf8_unlines hlines]
    exact readLines_render path 1 trace
  refine ⟨hwritten, fun bytes trace h => ?_⟩
  rw [hwritten, fresh_of_readLines h]

end TraceFile

end MemoryReplay
