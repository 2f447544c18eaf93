/-!
# Lines of text

A line is read as fields with blanks between them. Blank are the characters with the Unicode property
`White_Space`. A line of a report is written in columns: text filled up with a character on one side,
never cut.

- `isBlank`: the class, as ranges of code points. `isBlank_of_isWhitespace`: it contains the blanks of
  ASCII text.
- `fields`: the maximal runs without a blank. `trim`: the text without blanks at its ends.
- `padRight`, `padLeft`: fill with blanks after or before the text. `fillLeft`: fill with another
  character before it.
- `unlines`: lines with their ends.
-/

namespace MemoryReplay.Text

/-! ### Fields -/

/-- The code points with the property `White_Space`, as closed ranges. -/
def blankRanges : List (Nat × Nat) :=
  [(0x09, 0x0D), (0x20, 0x20), (0x85, 0x85), (0xA0, 0xA0), (0x1680, 0x1680),
   (0x2000, 0x200A), (0x2028, 0x2029), (0x202F, 0x202F), (0x205F, 0x205F), (0x3000, 0x3000)]

/-- Whether a character is blank. -/
def isBlank (c : Char) : Bool :=
  blankRanges.any fun (first, last) => first ≤ c.toNat && c.toNat ≤ last

/-- Whether there is nothing but blanks. -/
def allBlank (cs : List Char) : Bool := cs.all isBlank

/-- The text without blanks at its ends. -/
def trim (cs : List Char) : List Char :=
  ((cs.dropWhile isBlank).reverse.dropWhile isBlank).reverse

/-- The maximal runs of characters that are not blank, in order. A run that reaches the start of
the text comes first, so a character extends the first run found so far exactly when the
character after it is not blank. -/
def fields : List Char → List (List Char)
  | [] => []
  | c :: rest =>
    if isBlank c then fields rest
    else
      match rest, fields rest with
      | d :: _, run :: runs => if isBlank d then [c] :: run :: runs else (c :: run) :: runs
      | _, runs => [c] :: runs

theorem isBlank_of_isWhitespace {c : Char} (h : c.isWhitespace = true) : isBlank c = true := by
  simp only [Char.isWhitespace, Bool.or_eq_true, decide_eq_true_eq] at h
  rcases h with ((h | h) | h) | h <;> subst h <;> decide

/-! ### Columns -/

/-- `s` followed by as many blanks as bring it to `width` characters. -/
def padRight (width : Nat) (s : String) : String :=
  s ++ String.ofList (List.replicate (width - s.length) ' ')

/-- `s` after as many `c` as bring it to `width` characters. -/
def fillLeft (c : Char) (width : Nat) (s : String) : String :=
  String.ofList (List.replicate (width - s.length) c) ++ s

/-- `s` after as many blanks as bring it to `width` characters. -/
def padLeft (width : Nat) (s : String) : String :=
  fillLeft ' ' width s

/-- Each line followed by a line end. -/
def unlines (lines : List String) : String :=
  String.join (lines.map (· ++ "\n"))

end MemoryReplay.Text
