import MemoryReplay.JsonText.Skip
import MemoryReplay.Word

/-!
# Reading JSON text

Readers take what they need from the front of the tokens, so the first thing that is wrong in the
order of the text is what is reported.

- `Problem`: the text is no JSON, or it is JSON of another shape.
- `Reader α`: takes an `α` from the front of the tokens.
- `Reader.text`, `Reader.bool`, `Reader.word`, `Reader.real`, `Reader.optional`,
  `Reader.choice`, `Reader.list`: values of known types.
- `Reader.record`: a record, written as an object or as the list of its members.
-/

namespace MemoryReplay.JsonText

/-- What is wrong with a text. -/
inductive Problem where
  /-- The text is no JSON. -/
  | malformed
  /-- A value has another type or range than is needed, a member is missing or stands twice. -/
  | mismatch
  deriving Repr, DecidableEq

/-- Takes an `α` from the front of the tokens. -/
abbrev Reader (α : Type) := StateT (List Token) (Except Problem) α

namespace Reader

/-- The text is no JSON here. -/
def malformed {α : Type} : Reader α := throw .malformed

/-- The text is JSON of another shape. -/
def mismatch {α : Type} : Reader α := throw .mismatch

/-- The next token, which stays where it is. -/
def peek : Reader (Option Token) := return (← get).head?

/-- Drops the next token. -/
def drop : Reader Unit := modify List.tail

/-- The characters of a string. -/
def characters : Option String → Reader String
  | some s => return s
  | none => malformed

/-- What a number stands for. -/
def number (numeral : Numeral) : Reader Number :=
  match numeral.value? with
  | some n => return n
  | none => malformed

/-- Refuses a value of another type. A scalar is read first, and may itself be no JSON. -/
def otherType {α : Type} : Reader α := do
  match ← peek with
  | some (.number numeral) =>
    let _ ← number numeral
    mismatch
  | some (.text s) =>
    let _ ← characters s
    mismatch
  | some .null | some (.bool _) | some .openBracket | some .openBrace => mismatch
  | _ => malformed

/-! ## Scalars -/

/-- A string. -/
def text : Reader String := do
  match ← peek with
  | some (.text s) =>
    drop
    characters s
  | _ => otherType

/-- A truth value. -/
def bool : Reader Bool := do
  match ← peek with
  | some (.bool b) =>
    drop
    return b
  | _ => otherType

/-- A number of any kind. -/
def anyNumber : Reader Number := do
  match ← peek with
  | some (.number numeral) =>
    drop
    number numeral
  | _ => otherType

/-- A whole number of 64 bits. -/
def word : Reader UInt64 := do
  match ← anyNumber with
  | .natural n => return n
  | _ => mismatch

/-- A whole number of 32 bits. -/
def halfWord : Reader UInt32 := do
  match Word.half? (← word) with
  | some n => return n
  | none => mismatch

/-- A floating-point number. -/
def real : Reader Float := return (← anyNumber).toFloat

/-- A value that may be missing: written as `null`. -/
def optional {α : Type} (value : Reader α) : Reader (Option α) := do
  match ← peek with
  | some .null =>
    drop
    return none
  | _ => return some (← value)

/-- The one thing that a name stands for. -/
def named {α : Type} (ofName? : String → Option α) : Reader α := do
  match ofName? (← text) with
  | some a => return a
  | none => mismatch

/-- The colon after a key. -/
def colon : Reader Unit := do
  match ← peek with
  | some .colon => drop
  | _ => malformed

/-- One of several named things: its name, or an object that has the name as its only key and
`null` as its value. -/
def choice {α : Type} (ofName? : String → Option α) : Reader α := do
  match ← peek with
  | some (.text _) => named ofName?
  | some .openBrace =>
    drop
    let a ← key
    colon
    match ← peek with
    | some .null => drop
    | _ => otherType
    match ← peek with
    | some .closeBrace => drop
    | _ => malformed
    return a
  | _ => malformed
where
  /-- The key of the object, which is a string as any key is. -/
  key : Reader α := do
    match ← peek with
    | some (.text _) => named ofName?
    | _ => malformed

/-! ## Lists and objects -/

/-- Whether another item of a list comes, whose comma is taken. `first` tells whether none came
before. -/
def hasItem (first : Bool) : Reader Bool := do
  match ← peek with
  | some .closeBracket => return false
  | some .comma =>
    if first then return true
    drop
    match ← peek with
    | some .closeBracket | none => malformed
    | _ => return true
  | none => malformed
  | _ => if first then return true else malformed

/-- The end of a list. -/
def endList : Reader Unit := do
  match ← peek with
  | some .closeBracket => drop
  | _ => malformed

/-- The key of another member of an object, or none at its end, which is taken. `first` tells
whether no member came before. -/
def nextKey (first : Bool) : Reader (Option String) := do
  match ← peek with
  | some .closeBrace =>
    drop
    return none
  | some .comma =>
    if first then malformed
    drop
    key
  | _ => if first then key else malformed
where
  /-- A key, which is a string. -/
  key : Reader (Option String) := do
    match ← peek with
    | some (.text s) =>
      drop
      return some (← characters s)
    | _ => malformed

/-- The items of a list put onto those read before, at most `fuel` of them. -/
def itemsOnto {α : Type} (item : Reader α) (first : Bool) (seen : List α) : Nat → Reader (List α)
  | 0 => malformed
  | fuel + 1 => do
    if ← hasItem first then
      let a ← item
      itemsOnto item false (a :: seen) fuel
    else
      return seen.reverse

/-- The items of a list whose bracket has been taken, and its end. `first` tells whether none has
been taken yet. Every item takes a token. -/
def items {α : Type} (item : Reader α) (first : Bool) : Reader (List α) := do
  let all ← itemsOnto item first [] ((← get).length + 1)
  endList
  return all

/-- A list. -/
def list {α : Type} (item : Reader α) : Reader (List α) := do
  match ← peek with
  | some .openBracket =>
    drop
    items item true
  | _ => otherType

/-- A value nobody asked for. -/
def ignored : Reader Unit := do
  match Skip.skip .value [] (← get) with
  | some rest => set rest
  | none => malformed

/-! ## Records -/

/-- A member of a record. -/
structure Member (S : Type) where
  name : String
  /-- Reads the member's value into a record. -/
  read : S → Reader S

/-- The members of a record in the order of their declaration, from a list. Those that the list
does not reach keep their values. -/
def membersInOrder {S : Type} (first : Bool) : List (Member S) → S → Reader S
  | [], s => return s
  | m :: rest, s => do
    if ← hasItem first then
      membersInOrder false rest (← m.read s)
    else
      return s

/-- The members of a record from an object, at most `fuel` of them. Unknown members are skipped; a
known one must not stand twice. -/
def membersByName {S : Type} (members : List (Member S)) (seen : List String) (first : Bool)
    (s : S) :
    Nat → Reader S
  | 0 => malformed
  | fuel + 1 => do
    match ← nextKey first with
    | none => return s
    | some key =>
      match members.find? (·.name == key) with
      | none =>
        colon
        ignored
        membersByName members seen false s fuel
      | some m =>
        if seen.contains key then mismatch
        colon
        membersByName members (key :: seen) false (← m.read s) fuel

/-- A record whose members all have values to start with. -/
def record {S : Type} (members : List (Member S)) (start : S) : Reader S := do
  match ← peek with
  | some .openBracket =>
    drop
    let s ← membersInOrder true members start
    endList
    return s
  | some .openBrace =>
    drop
    membersByName members [] true start ((← get).length + 1)
  | _ => otherType

/-- What a reader makes of a whole text; nothing may be left over. -/
def run {α : Type} (reader : Reader α) (input : String) : Except Problem α := do
  let (a, rest) ← StateT.run reader (Token.scan input)
  if rest.isEmpty then return a else throw .malformed

end Reader

end MemoryReplay.JsonText
