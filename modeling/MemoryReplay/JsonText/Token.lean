import MemoryReplay.JsonText.Numeral
import MemoryReplay.Text.Hex

/-!
# Tokens of JSON text

- `Token`: the tokens. A text that no longer is JSON ends in the token `bad`.
- `Token.scan`: the tokens of a text, up to the first character that fits none.
-/

namespace MemoryReplay.JsonText

/-- A token of JSON text. -/
inductive Token where
  | openBrace
  | closeBrace
  | openBracket
  | closeBracket
  | colon
  | comma
  | null
  | bool (value : Bool)
  | number (numeral : Numeral)
  /-- A string; without its characters if its escapes name half a surrogate pair. -/
  | text (value : Option String)
  /-- Nothing that could be a token stands here. -/
  | bad
  deriving Repr, DecidableEq

namespace Token

/-! ## Strings -/

/-- A piece of a string: a character, or a UTF-16 unit that an escape names. -/
inductive Piece where
  | char (c : Char)
  | unit (n : Nat)

/-- The character that an escape with one letter stands for. -/
def escaped? : Char → Option Char
  | '"' => some '"'
  | '\\' => some '\\'
  | '/' => some '/'
  | 'b' => some '\x08'
  | 'f' => some '\x0c'
  | 'n' => some '\n'
  | 'r' => some '\r'
  | 't' => some '\t'
  | _ => none

/-- The pieces of a string whose opening quote has been read, put onto those read before, and the
text after its closing quote. None for a string without an end, with an unknown escape, or with a
control character in it. -/
def pieces (seen : List Piece) : List Char → Option (List Piece × List Char)
  | [] => none
  | '"' :: rest => some (seen.reverse, rest)
  | '\\' :: 'u' :: a :: b :: c :: d :: rest =>
    match Text.Hex.readOnto 0 [a, b, c, d] with
    | some n => pieces (.unit n :: seen) rest
    | none => none
  | '\\' :: e :: rest =>
    match escaped? e with
    | some c => pieces (.char c :: seen) rest
    | none => none
  | c :: rest => if c.toNat < 0x20 then none else pieces (.char c :: seen) rest

/-- The characters of pieces, put onto those read before; none if a surrogate stands alone. -/
def characters? (seen : List Char) : List Piece → Option (List Char)
  | [] => some seen.reverse
  | .char c :: rest => characters? (c :: seen) rest
  | .unit high :: .unit low :: rest =>
    if high < 0xD800 || 0xDFFF < high then
      characters? (Char.ofNat high :: seen) (.unit low :: rest)
    else if high < 0xDC00 && 0xDC00 ≤ low && low ≤ 0xDFFF then
      characters? (Char.ofNat (0x10000 + (high - 0xD800) * 0x400 + (low - 0xDC00)) :: seen) rest
    else none
  | .unit n :: rest =>
    if n < 0xD800 || 0xDFFF < n then characters? (Char.ofNat n :: seen) rest else none

/-- A string whose opening quote has been read, and the text after it. -/
def string? (cs : List Char) : Option (Token × List Char) :=
  (pieces [] cs).map fun (body, rest) => (.text ((characters? [] body).map String.ofList), rest)

/-! ## Numbers -/

/-- The value of a decimal digit. -/
def digit? (c : Char) : Option Nat :=
  if c.isDigit then some (c.toNat - '0'.toNat) else none

/-- The digits at the front of a text, and the text after them. -/
def digits (cs : List Char) : List Nat × List Char :=
  let (front, rest) := cs.span Char.isDigit
  (front.filterMap digit?, rest)

/-- The fraction at the front of a text, if there is a point; none for a point without digits. -/
def fraction? : List Char → Option (Option (List Nat) × List Char)
  | '.' :: cs =>
    match digits cs with
    | ([], _) => none
    | (ds, rest) => some (some ds, rest)
  | cs => some (none, cs)

/-- The sign at the front of an exponent: whether it is negative. -/
def exponentSign : List Char → Bool × List Char
  | '-' :: cs => (true, cs)
  | '+' :: cs => (false, cs)
  | cs => (false, cs)

/-- The exponent at the front of a text, if there is one; none for one without digits. -/
def exponent? : List Char → Option (Option (Bool × List Nat) × List Char)
  | 'e' :: cs | 'E' :: cs =>
    let (down, cs) := exponentSign cs
    match digits cs with
    | ([], _) => none
    | (ds, rest) => some (some (down, ds), rest)
  | cs => some (none, cs)

/-- A number whose sign has been read, and the text after it. Its first digit is zero only if it
is the only one before the point. -/
def number? (negative : Bool) (cs : List Char) : Option (Token × List Char) := do
  let (whole, rest) := digits cs
  match whole with
  | [] => none
  | 0 :: _ :: _ => none
  | whole =>
    let (fraction, rest) ← fraction? rest
    let (exponent, rest) ← exponent? rest
    return (.number { negative, whole, fraction, exponent }, rest)

/-! ## The scanner -/

/-- The token that starts with a character, and the text after it. -/
def next? : Char → List Char → Option (Token × List Char)
  | '{', rest => some (openBrace, rest)
  | '}', rest => some (closeBrace, rest)
  | '[', rest => some (openBracket, rest)
  | ']', rest => some (closeBracket, rest)
  | ':', rest => some (colon, rest)
  | ',', rest => some (comma, rest)
  | 'n', 'u' :: 'l' :: 'l' :: rest => some (null, rest)
  | 't', 'r' :: 'u' :: 'e' :: rest => some (bool true, rest)
  | 'f', 'a' :: 'l' :: 's' :: 'e' :: rest => some (bool false, rest)
  | '"', rest => string? rest
  | '-', rest => number? true rest
  | c, rest => if c.isDigit then number? false (c :: rest) else none

/-- Whether a character may stand between tokens. -/
def isSpace (c : Char) : Bool := c == ' ' || c == '\n' || c == '\t' || c == '\r'

/-- The tokens of a text put onto those read before, in at most `fuel` characters. -/
def scanOnto (seen : List Token) : Nat → List Char → List Token
  | _, [] => seen.reverse
  | 0, _ => seen.reverse
  | fuel + 1, c :: rest =>
    if isSpace c then scanOnto seen fuel rest
    else
      match next? c rest with
      | some (token, rest) => scanOnto (token :: seen) fuel rest
      | none => (bad :: seen).reverse

/-- The tokens of a text. A token takes at least one character. -/
def scan (text : String) : List Token :=
  let cs := text.toList
  scanOnto [] cs.length cs

end Token

end MemoryReplay.JsonText
