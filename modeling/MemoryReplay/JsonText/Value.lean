import MemoryReplay.JsonText.Reader

/-!
# Values of any shape

Some values can only be understood once a member that may come later has been read. They are kept
whole, and are complete JSON: numbers have a value, surrogates come in pairs, and only so many
brackets are open at once.

- `Value`: a value of any shape, with `Reader.value`.
- `Reader.tagged`: an object or list that says in one place what the rest of it is.
- `Value.word?`, `Value.bool?`, `Value.choice?`, `Value.record?`: values of known types.
-/

namespace MemoryReplay.JsonText

/-- A value of any shape. -/
inductive Value where
  | null
  | bool (b : Bool)
  | number (n : Number)
  | text (s : String)
  | list (items : List Value)
  | object (members : List (String × Value))

namespace Reader

/-- Brackets that may be open at once. -/
def nesting : Nat := 127

/-- The members of an object put onto those read before, at most `fuel` of them. -/
def membersOnto {α : Type} (value : Reader α) (seen : List (String × α)) :
    Nat → Reader (List (String × α))
  | 0 => malformed
  | fuel + 1 => do
    match ← nextKey seen.isEmpty with
    | none => return seen.reverse
    | some key =>
      colon
      let a ← value
      membersOnto value ((key, a) :: seen) fuel

/-- A value with at most `levels` brackets open at once. -/
def value (levels : Nat) : Reader Value := do
  match ← peek with
  | some .null =>
    drop
    return .null
  | some (.bool b) =>
    drop
    return .bool b
  | some (.number numeral) =>
    drop
    return .number (← number numeral)
  | some (.text s) =>
    drop
    return .text (← characters s)
  | some .openBracket =>
    match levels with
    | 0 => malformed
    | inner + 1 =>
      drop
      return .list (← items (value inner) true)
  | some .openBrace =>
    match levels with
    | 0 => malformed
    | inner + 1 =>
      drop
      return .object (← membersOnto (value inner) [] ((← get).length + 1))
  | _ => malformed

/-- The members of a tagged object put onto those read before, at most `fuel` of them. The tag is
understood where it stands. -/
def taggedOnto {κ : Type} (tag : String) (ofName? : String → Option κ) (levels : Nat) (first : Bool)
    (kind : Option κ) (seen : List (String × Value)) : Nat → Reader (κ × Value)
  | 0 => malformed
  | fuel + 1 => do
    match ← nextKey first, kind with
    | none, some kind => return (kind, .object seen.reverse)
    | none, none => mismatch
    | some key, kind =>
      if key == tag then
        if kind.isSome then mismatch
        colon
        taggedOnto tag ofName? levels false (some (← named ofName?)) seen fuel
      else
        colon
        let v ← value levels
        taggedOnto tag ofName? levels false kind ((key, v) :: seen) fuel

/-- An object that has its kind under the key `tag`, or a list that has it as its first item; with
all the rest of it, in which at most `levels` brackets are open at once. -/
def tagged {κ : Type} (tag : String) (ofName? : String → Option κ) (levels : Nat) :
    Reader (κ × Value) := do
  match ← peek with
  | some .openBracket =>
    drop
    if ← hasItem true then
      let kind ← named ofName?
      return (kind, .list (← items (value levels) false))
    else
      mismatch
  | some .openBrace =>
    drop
    taggedOnto tag ofName? levels true none [] ((← get).length + 1)
  | _ => otherType

end Reader

namespace Value

/-- A whole number of 64 bits. -/
def word? : Value → Option UInt64
  | number (.natural n) => some n
  | _ => none

/-- A whole number of 32 bits. -/
def halfWord? (v : Value) : Option UInt32 :=
  v.word?.bind Word.half?

/-- A truth value. -/
def bool? : Value → Option Bool
  | bool b => some b
  | _ => none

/-- Whether a value can stand for nothing. -/
def isVoid : Value → Bool
  | null => true
  | object [] => true
  | _ => false

/-- One of several named things: its name, or an object with the name as its only key and nothing
as its value. -/
def choice? {α : Type} (ofName? : String → Option α) : Value → Option α
  | text s => ofName? s
  | object [(s, v)] => if v.isVoid then ofName? s else none
  | _ => none

/-- A member of a record. -/
structure Member (S : Type) where
  name : String
  /-- The record with the member's value in it, if that has the right type. -/
  read : S → Value → Option S

/-- The record with the values of a list as its members, in the order of their declaration. -/
def inOrder? {S : Type} : List (Member S) → List Value → S → Option S
  | _, [], s => some s
  | [], _ :: _, _ => none
  | m :: ms, v :: vs, s => do inOrder? ms vs (← m.read s v)

/-- The record with the members of an object. Unknown ones are left out; a known one must not
stand twice. -/
def byName? {S : Type} (members : List (Member S)) (seen : List String) :
    List (String × Value) → S → Option S
  | [], s => some s
  | (key, v) :: rest, s =>
    match members.find? (·.name == key) with
    | none => byName? members seen rest s
    | some m =>
      if seen.contains key then none
      else do byName? members (key :: seen) rest (← m.read s v)

/-- A record whose members all have values to start with. -/
def record? {S : Type} (members : List (Member S)) (start : S) : Value → Option S
  | list vs => inOrder? members vs start
  | object entries => byName? members [] entries start
  | _ => none

end Value

end MemoryReplay.JsonText
