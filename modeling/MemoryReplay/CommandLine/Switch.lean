/-!
# Words of a command line

A command takes switches, which start with a hyphen, and words in fixed places. Words are looked
at from left to right and the first one that does not fit refuses the whole line.

- `Switch S`: a switch, and what its value does to the settings `S` of a command.
- `Grammar S`: a command's switches and places.
- `Grammar.parse`: the settings of a list of words.
-/

namespace MemoryReplay.CommandLine

/-- What a switch does. -/
inductive Action (S : Type) where
  /-- It stands alone. -/
  | flag (put : S → S)
  /-- It has a value, which it may refuse. -/
  | value (put : String → S → Option S)

/-- A switch of a command. -/
structure Switch (S : Type) where
  /-- The name after two hyphens. -/
  long : String
  /-- The letter after one hyphen. -/
  short : Option Char
  action : Action S
  /-- Whether it may stand more than once. -/
  repeatable : Bool := false

/-- The words that a command takes. -/
structure Grammar (S : Type) where
  switches : List (Switch S)
  /-- The words in fixed places, all of which are needed. -/
  places : List (String → S → Option S) := []
  /-- The switches that only ask for a text about the program: letter and name. -/
  questions : List (Char × String) := [('h', "help")]

/-- What becomes of a command line. -/
inductive Verdict (S : Type) where
  /-- The settings it stands for. -/
  | accepted (settings : S)
  /-- It asks for a text about the program. -/
  | question
  /-- It does not fit. -/
  | refused

/-- The state of reading a command line. -/
structure Reading (S : Type) where
  settings : S
  /-- The switches that have stood. -/
  used : List String := []
  /-- The places that are left. -/
  places : List (String → S → Option S)

/-- A word by its shape. -/
inductive Word where
  /-- Two hyphens: only places follow. -/
  | separator
  /-- A name after two hyphens, and what stands behind an equals sign. -/
  | long (name : String) (value : Option String)
  /-- A letter after one hyphen, and what follows it. -/
  | short (letter : Char) (value : Option String)
  /-- Anything else; also a single hyphen. -/
  | plain

/-- The value that follows a switch's letter in the same word. An equals sign in front of it does
not belong to it. -/
def attached : List Char → Option String
  | [] => none
  | '=' :: value => some (String.ofList value)
  | value => some (String.ofList value)

/-- The shape of a word. -/
def Word.ofText (text : String) : Word :=
  match text.toList with
  | ['-', '-'] => separator
  | '-' :: '-' :: name =>
    match name.span (· ≠ '=') with
    | (name, '=' :: value) => long (String.ofList name) (some (String.ofList value))
    | (name, _) => long (String.ofList name) none
  | '-' :: letter :: rest => short letter (attached rest)
  | _ => plain

/-- What a word does to the reading of a command line. -/
inductive Effect (S : Type) where
  /-- The line is read further. -/
  | read (r : Reading S)
  /-- The next word is the switch's value. -/
  | awaits (s : Switch S)
  /-- All words that follow stand in places. -/
  | onlyPlaces
  /-- The line asks for a text about the program. -/
  | question
  /-- The line does not fit. -/
  | refused

namespace Grammar

variable {S : Type}

/-- A word in the next place. -/
def place (word : String) (r : Reading S) : Option (Reading S) :=
  match r.places with
  | [] => none
  | put :: places => (put word r.settings).map fun settings => { r with settings, places }

/-- Words in the next places. -/
def placeAll : List String → Reading S → Option (Reading S)
  | [], r => some r
  | word :: rest, r => (place word r).bind (placeAll rest)

/-- A switch with new settings; only some may stand twice. -/
def use (s : Switch S) (r : Reading S) (settings : Option S) : Option (Reading S) :=
  if !s.repeatable && r.used.contains s.long then none
  else settings.map fun settings => { r with settings, used := s.long :: r.used }

/-- A switch with the value that stands in the same word, if there is one. -/
def switchEffect (r : Reading S) (value : Option String) (s : Switch S) : Effect S :=
  let ofReading : Option (Reading S) → Effect S
    | some r => .read r
    | none => .refused
  match s.action, value with
  | .flag put, none => ofReading (use s r (some (put r.settings)))
  | .flag _, some _ => .refused
  | .value put, some v => ofReading (use s r (put v r.settings))
  | .value _, none => .awaits s

/-- The value of a switch that waited for it. -/
def supply (s : Switch S) (value : String) (r : Reading S) : Option (Reading S) :=
  match s.action, Word.ofText value with
  | .value put, .plain => use s r (put value r.settings)
  | _, _ => none

/-- What a word does. -/
def effect (g : Grammar S) (r : Reading S) (word : String) : Effect S :=
  match Word.ofText word with
  | .separator => .onlyPlaces
  | .plain =>
    match place word r with
    | some r => .read r
    | none => .refused
  | .long name value =>
    match g.switches.find? (·.long == name) with
    | some s => switchEffect r value s
    | none => if g.questions.any (·.2 == name) && value.isNone then .question else .refused
  | .short letter value =>
    match g.switches.find? (·.short == some letter) with
    | some s => switchEffect r value s
    | none => if g.questions.any (·.1 == letter) then .question else .refused

/-- The settings at the end of a line. -/
def finish (r : Reading S) : Verdict S :=
  if r.places.isEmpty then .accepted r.settings else .refused

/-- Reads words after those that have been read. -/
def parseFrom (g : Grammar S) (r : Reading S) : List String → Verdict S
  | [] => finish r
  | word :: rest =>
    match g.effect r word, rest with
    | .read r, rest => g.parseFrom r rest
    | .awaits s, value :: rest =>
      match supply s value r with
      | some r => g.parseFrom r rest
      | none => .refused
    | .awaits _, [] => .refused
    | .onlyPlaces, rest =>
      match placeAll rest r with
      | some r => finish r
      | none => .refused
    | .question, _ => .question
    | .refused, _ => .refused

/-- Reads a command line onto the settings that hold without one. -/
def parse (g : Grammar S) (start : S) (words : List String) : Verdict S :=
  g.parseFrom { settings := start, places := g.places } words

end Grammar

end MemoryReplay.CommandLine
