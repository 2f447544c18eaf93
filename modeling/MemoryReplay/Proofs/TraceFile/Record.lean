import MemoryReplay.Proofs.Text.Fields
import MemoryReplay.Proofs.Text.Hex
import MemoryReplay.Proofs.TraceFile.Lines

/-!
# The lines that are records

Which lines describe a request is said here by the line alone: what stands in it, from its first
character to its last. The reader agrees with that on every line.

- `Record.Describes signs line a d`: the line holds the address `a` and the direction `d`, and nothing
  else but blanks; before the digits there may be one of the `signs`.
- `Record.plain`, `Record.signed`: the signs of a record as it is described to its users, and as it is
  read. They differ by a plus sign.
- `Record.read_eq_ok_iff`: exactly the lines with a signed address are read.
- `TraceFile.readLine_of_text`: what a file's line that is not blank is read as, or refused.
-/

namespace MemoryReplay

open Text

namespace Record

/-- What may stand before an address to mark its base. -/
def baseMarks : List (List Char) := [[], ['0', 'x'], ['0', 'X']]

/-- No sign at all. -/
def plain : List (List Char) := [[]]

/-- No sign, or a plus sign. -/
def signed : List (List Char) := [[], ['+']]

/-- The letters that stand for a direction. -/
def letters : Direction → List Char
  | .read => ['R', 'r']
  | .write => ['W', 'w']

/-- A field is an address: a mark of the base, a sign, and the digits of a 64-bit number. -/
def IsAddress (signs : List (List Char)) (field : List Char) (a : UInt64) : Prop :=
  ∃ mark ∈ baseMarks, ∃ sign ∈ signs, ∃ digits,
    field = mark ++ sign ++ digits ∧ Hex.Writes digits a.toNat

/-- A line holds an address and a direction with blanks between them, and nothing else but blanks. -/
def Describes (signs : List (List Char)) (line : List Char) (a : UInt64) (d : Direction) : Prop :=
  ∃ before field between letter after,
    line = before ++ field ++ between ++ [letter] ++ after ∧
    allBlank before = true ∧ IsAddress signs field a ∧
    between ≠ [] ∧ allBlank between = true ∧ letter ∈ letters d ∧ allBlank after = true

variable {field line : List Char} {a : UInt64} {d : Direction} {r : Request}

/-! ### Addresses -/

theorem exists_mark (field : List Char) : ∃ mark ∈ baseMarks, field = mark ++ dropBaseMark field := by
  unfold dropBaseMark
  split
  · exact ⟨['0', 'x'], by decide, rfl⟩
  · exact ⟨['0', 'X'], by decide, rfl⟩
  · exact ⟨[], by decide, rfl⟩

theorem exists_sign (digits : List Char) : ∃ sign ∈ signed, digits = sign ++ dropPlus digits := by
  unfold dropPlus
  split
  · exact ⟨['+'], by decide, rfl⟩
  · exact ⟨[], by decide, rfl⟩

/-- Digits do not look like a sign. -/
theorem dropPlus_append {sign digits : List Char} {n : Nat} (hsign : sign ∈ signed)
    (hdigits : Hex.Writes digits n) : dropPlus (sign ++ digits) = digits := by
  have hplus : Hex.value? '+' = none := rfl
  simp only [signed, List.mem_cons, List.not_mem_nil, or_false] at hsign
  rcases hsign with rfl | rfl
  · rw [List.nil_append]
    unfold dropPlus
    split
    · next rest =>
      obtain ⟨_, hvalue⟩ := hdigits.exists_value List.mem_cons_self
      rw [hplus] at hvalue
      cases hvalue
    · rfl
  · rfl

/-- Neither a sign nor digits look like a mark of the base. -/
theorem dropBaseMark_append {mark sign digits : List Char} {n : Nat} (hmark : mark ∈ baseMarks)
    (hsign : sign ∈ signed) (hdigits : Hex.Writes digits n) :
    dropBaseMark (mark ++ (sign ++ digits)) = sign ++ digits := by
  have hx : Hex.value? 'x' = none := rfl
  have hX : Hex.value? 'X' = none := rfl
  simp only [baseMarks, List.mem_cons, List.not_mem_nil, or_false] at hmark
  rcases hmark with rfl | rfl | rfl
  · simp only [signed, List.mem_cons, List.not_mem_nil, or_false] at hsign
    rcases hsign with rfl | rfl
    · rw [List.nil_append, List.nil_append]
      unfold dropBaseMark
      split
      · obtain ⟨_, hvalue⟩ := hdigits.exists_value (List.mem_cons_of_mem _ List.mem_cons_self)
        rw [hx] at hvalue
        cases hvalue
      · obtain ⟨_, hvalue⟩ := hdigits.exists_value (List.mem_cons_of_mem _ List.mem_cons_self)
        rw [hX] at hvalue
        cases hvalue
      · rfl
    · rfl
  · rfl
  · rfl

theorem address?_eq_some_iff : address? field = some a ↔ IsAddress signed field a := by
  unfold address?
  rw [Option.bind_eq_some_iff]
  constructor
  · rintro ⟨n, hread, hn⟩
    obtain ⟨mark, hmark, hfield⟩ := exists_mark field
    obtain ⟨sign, hsign, hrest⟩ := exists_sign (dropBaseMark field)
    refine ⟨mark, hmark, sign, hsign, _, ?_,
      Hex.read?_eq_some_iff.mp (Word.ofNat?_eq_some_iff.mp hn ▸ hread)⟩
    rw [List.append_assoc, ← hrest, ← hfield]
  · rintro ⟨mark, hmark, sign, hsign, digits, rfl, hdigits⟩
    refine ⟨a.toNat, ?_, Word.ofNat?_eq_some_iff.mpr rfl⟩
    rw [List.append_assoc, dropBaseMark_append hmark hsign hdigits, dropPlus_append hsign hdigits]
    exact Hex.read?_eq_some_iff.mpr hdigits

/-! ### Directions -/

theorem direction?_eq_some_iff {token : List Char} :
    direction? token = some d ↔ ∃ letter ∈ letters d, token = [letter] := by
  constructor
  · intro h
    unfold direction? at h
    split at h <;> cases h <;> exact ⟨_, by decide, rfl⟩
  · rintro ⟨letter, hletter, rfl⟩
    cases d <;> simp only [letters, List.mem_cons, List.not_mem_nil, or_false] at hletter <;>
      rcases hletter with rfl | rfl <;> rfl

/-! ### Lines -/

theorem isField_of_isAddress (h : IsAddress signed field a) : IsField field := by
  obtain ⟨mark, hmark, sign, hsign, digits, rfl, hdigits⟩ := h
  constructor
  · exact List.append_ne_nil_of_right_ne_nil _ hdigits.1
  · intro c hc
    rcases List.mem_append.mp hc with hc | hc
    · have hmarks : ∀ mark ∈ baseMarks, ∀ sign ∈ signed, (mark ++ sign).all (!isBlank ·) = true := by
        decide
      simpa using List.all_eq_true.mp (hmarks mark hmark sign hsign) c hc
    · exact hdigits.not_blank hc

theorem isField_letter {letter : Char} (h : letter ∈ letters d) : IsField [letter] := by
  have hletters : ∀ d : Direction, (letters d).all (!isBlank ·) = true := by
    intro d
    cases d <;> decide
  refine ⟨List.cons_ne_nil _ _, fun c hc => ?_⟩
  obtain rfl := List.mem_singleton.mp hc
  simpa using List.all_eq_true.mp (hletters d) c h

/-- A line has these two fields, and no others. -/
theorem fields_eq_pair_iff {first second : List Char} : fields line = [first, second] ↔
    ∃ before between after, line = before ++ first ++ between ++ second ++ after ∧
      allBlank before = true ∧ IsField first ∧ between ≠ [] ∧ allBlank between = true ∧
      IsField second ∧ allBlank after = true := by
  constructor
  · intro h
    obtain ⟨before, rest, rfl, hbefore, hfirst, hrest, h⟩ := fields_eq_cons_iff.mp h
    obtain ⟨between, after, rfl, hbetween, hsecond, -, h⟩ := fields_eq_cons_iff.mp h
    refine ⟨before, between, after, by simp only [List.append_assoc], hbefore, hfirst, ?_, hbetween,
      hsecond, fields_eq_nil_iff.mp h⟩
    -- without a blank in front the second field would be a part of the first
    rintro rfl
    obtain ⟨c, second, rfl⟩ := List.exists_cons_of_ne_nil hsecond.nonempty
    have hblank : isBlank c = true := hrest c rfl
    rw [hsecond.solid c List.mem_cons_self] at hblank
    cases hblank
  · rintro ⟨before, between, after, rfl, hbefore, hfirst, hne, hbetween, hsecond, hafter⟩
    refine fields_eq_cons_iff.mpr ⟨before, between ++ second ++ after, by simp only [List.append_assoc],
      hbefore, hfirst, ?_, ?_⟩
    · rw [List.append_assoc]
      exact startsBlank_append hne hbetween _
    · exact fields_eq_cons_iff.mpr ⟨between, after, rfl, hbetween, hsecond,
        startsBlank_of_allBlank hafter, fields_eq_nil_iff.mpr hafter⟩

/-- The lines that describe a request are those with an address and a direction as fields. -/
theorem describes_iff : Describes signed line a d ↔
    ∃ field token, fields line = [field, token] ∧ address? field = some a ∧
      direction? token = some d := by
  constructor
  · rintro ⟨before, field, between, letter, after, rfl, hbefore, hfield, hne, hbetween, hletter, hafter⟩
    refine ⟨field, [letter], fields_eq_pair_iff.mpr ?_, address?_eq_some_iff.mpr hfield,
      direction?_eq_some_iff.mpr ⟨letter, hletter, rfl⟩⟩
    exact ⟨before, between, after, rfl, hbefore, isField_of_isAddress hfield, hne, hbetween,
      isField_letter hletter, hafter⟩
  · rintro ⟨field, token, hfields, hfield, htoken⟩
    obtain ⟨letter, hletter, rfl⟩ := direction?_eq_some_iff.mp htoken
    obtain ⟨before, between, after, rfl, hbefore, -, hne, hbetween, -, hafter⟩ :=
      fields_eq_pair_iff.mp hfields
    exact ⟨before, field, between, letter, after, rfl, hbefore, address?_eq_some_iff.mp hfield, hne,
      hbetween, hletter, hafter⟩

/-- **Exactly the lines that describe a request are read**, and as that request. -/
theorem read_eq_ok_iff :
    read line = .ok r ↔ ∃ a d, Describes signed line a d ∧ r = .fresh a d := by
  simp only [describes_iff]
  constructor
  · intro h
    unfold read at h
    split at h
    · cases h
    · cases h
    · next field token hfields =>
      split at h
      · cases h
      · next a ha =>
        split at h
        · cases h
        · next d hd =>
          cases h
          exact ⟨a, d, ⟨field, token, hfields, ha, hd⟩, rfl⟩
    · cases h
  · rintro ⟨a, d, ⟨field, token, hfields, ha, hd⟩, rfl⟩
    unfold read
    rw [hfields]
    dsimp only
    rw [ha]
    dsimp only
    rw [hd]

theorem IsAddress.plus_notMem (h : IsAddress plain field a) : '+' ∉ field := by
  obtain ⟨mark, hmark, sign, hsign, digits, rfl, hdigits⟩ := h
  obtain rfl := List.mem_singleton.mp hsign
  have hmarks : ∀ mark ∈ baseMarks, '+' ∉ mark := by decide
  intro hmem
  rw [List.append_nil, List.mem_append] at hmem
  rcases hmem with hmem | hmem
  · exact hmarks mark hmark hmem
  · obtain ⟨_, hvalue⟩ := hdigits.exists_value hmem
    cases hvalue

/-- An address without a sign is one whose sign may be missing. -/
theorem IsAddress.signed (h : IsAddress plain field a) : IsAddress signed field a := by
  obtain ⟨mark, hmark, sign, hsign, hdigits⟩ := h
  exact ⟨mark, hmark, sign, List.mem_singleton.mp hsign ▸ List.mem_cons_self, hdigits⟩

/-- The plus sign is all that makes a difference. -/
theorem describes_plain_iff :
    Describes plain line a d ↔ Describes signed line a d ∧ '+' ∉ line := by
  constructor
  · rintro ⟨before, field, between, letter, after, rfl, hbefore, hfield, hne, hbetween, hletter, hafter⟩
    constructor
    · exact ⟨before, field, between, letter, after, rfl, hbefore, hfield.signed, hne, hbetween,
        hletter, hafter⟩
    · have hblank : ∀ {cs : List Char}, allBlank cs = true → '+' ∉ cs := by
        intro cs hcs hmem
        exact absurd (List.all_eq_true.mp hcs '+' hmem) (by decide)
      have hletters : ∀ d : Direction, '+' ∉ letters d := by
        intro d
        cases d <;> decide
      intro hmem
      simp only [List.mem_append, List.mem_singleton] at hmem
      rcases hmem with (((hmem | hmem) | hmem) | hmem) | hmem
      · exact hblank hbefore hmem
      · exact hfield.plus_notMem hmem
      · exact hblank hbetween hmem
      · exact hletters d (hmem ▸ hletter)
      · exact hblank hafter hmem
  · rintro ⟨⟨before, field, between, letter, after, rfl, hbefore, ⟨mark, hmark, sign, hsign, hdigits⟩,
      hrest⟩, hplus⟩
    refine ⟨before, field, between, letter, after, rfl, hbefore, ⟨mark, hmark, sign, ?_, hdigits⟩, hrest⟩
    simp only [signed, List.mem_cons, List.not_mem_nil, or_false] at hsign
    rcases hsign with rfl | rfl
    · exact List.mem_singleton_self _
    · -- the sign would be in the line
      obtain ⟨digits, rfl, -⟩ := hdigits
      exact absurd (by simp) hplus

end Record

namespace TraceFile

variable {bytes : List UInt8} {line : List Char}

/-- A line that is not blank is read as a record. -/
theorem readLine_of_full (path : String) (number : Nat) (htext : text? bytes = some line)
    (hfull : allBlank line = false) : readLine path number bytes =
      match Record.read line with
      | .ok r => .ok (some r)
      | .error fault => .error (.malformed number (String.ofList (trim line)) fault) := by
  unfold readLine
  rw [htext]
  exact if_neg (ne_true_of_eq_false hfull)

/-- **What a line of a file that is not blank is read as.** A line with an address and a direction is
read as a fresh request with both; any other line is refused, and named with its number. Only a plus
sign makes a difference to the lines as they are described to the users. -/
theorem readLine_of_text (path : String) (number : Nat) (htext : text? bytes = some line)
    (hfull : allBlank line = false) :
    (∀ found, readLine path number bytes = .ok found ↔
      ∃ a d, Record.Describes Record.signed line a d ∧ found = some (.fresh a d)) ∧
    ((¬ ∃ a d, Record.Describes Record.signed line a d) → ∃ fault,
      readLine path number bytes = .error (.malformed number (String.ofList (trim line)) fault)) ∧
    (∀ a d, Record.Describes Record.plain line a d ↔
      Record.Describes Record.signed line a d ∧ '+' ∉ line) := by
  rw [readLine_of_full path number htext hfull]
  refine ⟨fun found => ?_, fun hnone => ?_, fun a d => Record.describes_plain_iff⟩
  · constructor
    · intro h
      split at h
      · next r hr =>
        cases h
        obtain ⟨a, d, hdescribes, rfl⟩ := Record.read_eq_ok_iff.mp hr
        exact ⟨a, d, hdescribes, rfl⟩
      · cases h
    · rintro ⟨a, d, hdescribes, rfl⟩
      rw [Record.read_eq_ok_iff.mpr ⟨a, d, hdescribes, rfl⟩]
  · cases hread : Record.read line with
    | error fault => exact ⟨fault, rfl⟩
    | ok r =>
      obtain ⟨a, d, hdescribes, -⟩ := Record.read_eq_ok_iff.mp hread
      exact absurd ⟨a, d, hdescribes⟩ hnone

/-- A line with blanks of two kinds, a mark in capitals, zeros in front and a small letter. -/
theorem readLine_of_text_capitals :
    text? (utf8 "\t0X001F w\r") = some "\t0X001F w\r".toList ∧
    allBlank "\t0X001F w\r".toList = false ∧
    (∀ found, readLine "" 3 (utf8 "\t0X001F w\r") = .ok found ↔
      ∃ a d, Record.Describes Record.signed "\t0X001F w\r".toList a d ∧ found = some (.fresh a d)) ∧
    ((¬ ∃ a d, Record.Describes Record.signed "\t0X001F w\r".toList a d) → ∃ fault,
      readLine "" 3 (utf8 "\t0X001F w\r") = .error (.malformed 3 "0X001F w" fault)) ∧
    (∀ a d, Record.Describes Record.plain "\t0X001F w\r".toList a d ↔
      Record.Describes Record.signed "\t0X001F w\r".toList a d ∧ '+' ∉ "\t0X001F w\r".toList) :=
  ⟨text?_utf8 _, by decide, readLine_of_text "" 3 (text?_utf8 _) (by decide)⟩

/-- A line with a plus sign before its digits is read, though no address is described that way. -/
theorem plus_sign_read : ¬ ∀ (path : String) (number : Nat) (bytes : List UInt8) (line : List Char),
    text? bytes = some line → allBlank line = false → ∀ found,
      (readLine path number bytes = .ok found ↔
        ∃ a d, Record.Describes Record.plain line a d ∧ found = some (.fresh a d)) := by
  intro h
  have htext := text?_utf8 "+1f R"
  have hfull : allBlank "+1f R".toList = false := by decide
  have hread : readLine "" 1 (utf8 "+1f R") = .ok (some (.fresh 0x1f .read)) := by
    rw [readLine_of_full "" 1 htext hfull]
    decide
  obtain ⟨a, d, hdescribes, -⟩ := (h "" 1 _ _ htext hfull _).mp hread
  exact (Record.describes_plain_iff.mp hdescribes).2 (by decide)

end TraceFile

end MemoryReplay
