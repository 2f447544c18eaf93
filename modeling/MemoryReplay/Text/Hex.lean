/-!
# Hexadecimal numbers

- `Hex.digit`, `Hex.value?`: a digit's character and a character's value; both cases of the
  letters are read, the small ones are written.
- `Hex.render`: a number without leading zeros.
- `Hex.renderWide`: at least `width` digits, zeros in front.
- `Hex.read?`: the value of a non-empty run of digits.
- `Hex.value?_digit`: what is written is read back.
-/

namespace MemoryReplay.Text.Hex

/-- The character of a digit below sixteen. -/
def digit (n : Nat) : Char :=
  if n < 10 then Char.ofNat (48 + n) else Char.ofNat (87 + n)

/-- The value of a digit. -/
def value? (c : Char) : Option Nat :=
  let n := c.toNat
  if 48 ≤ n ∧ n ≤ 57 then some (n - 48)
  else if 97 ≤ n ∧ n ≤ 102 then some (n - 87)
  else if 65 ≤ n ∧ n ≤ 70 then some (n - 55)
  else none

/-- The digits of `n`, most significant first, in front of `rest`. -/
def digitsOnto (n : Nat) (rest : List Char) : List Char :=
  if n < 16 then digit n :: rest else digitsOnto (n / 16) (digit (n % 16) :: rest)

/-- The digits of `n`, most significant first; a single zero for zero. -/
def digits (n : Nat) : List Char := digitsOnto n []

/-- The number in digits, without leading zeros. -/
def render (n : Nat) : String := String.ofList (digits n)

/-- The digits of `n` with zeros in front up to `width` digits. -/
def wideDigits (width n : Nat) : List Char :=
  List.replicate (width - (digits n).length) '0' ++ digits n

/-- The number in at least `width` digits. -/
def renderWide (width n : Nat) : String := String.ofList (wideDigits width n)

/-- The value of a run of digits read onto `total`. -/
def readOnto (total : Nat) : List Char → Option Nat
  | [] => some total
  | c :: rest =>
    match value? c with
    | some d => readOnto (16 * total + d) rest
    | none => none

/-- The value of a non-empty run of digits. -/
def read? (cs : List Char) : Option Nat :=
  if cs.isEmpty then none else readOnto 0 cs

theorem value?_digit : ∀ n < 16, value? (digit n) = some n := by decide

end MemoryReplay.Text.Hex
