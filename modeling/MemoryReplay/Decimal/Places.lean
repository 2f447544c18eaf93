/-!
# Numbers with a fixed number of decimal places

A binary floating-point number is a whole number times a power of two, so its decimal expansion
ends, and rounding it to some places is exact integer arithmetic.

- `Decimal.Parts`: the significand and exponent of a finite number.
- `Decimal.roundDiv`: a quotient rounded to the nearest whole number, a tie to the even one.
- `Decimal.render`: the text of a number with a given number of places.
- `Decimal.roundDiv_near`: rounding moves a quotient by at most one half.
-/

namespace MemoryReplay.Decimal

/-- The magnitude `significand * 2 ^ (exponent - 1074)` of a finite number. -/
structure Parts where
  significand : Nat
  exponent : Nat
  deriving Repr, DecidableEq

/-- The magnitude of the finite number with the given bits. -/
def Parts.ofBits (bits : UInt64) : Parts :=
  let fraction := bits.toNat % (1 <<< 52)
  let biased := (bits.toNat >>> 52) % (1 <<< 11)
  if biased = 0 then ⟨fraction, 0⟩ else ⟨(1 <<< 52) + fraction, biased - 1⟩

/-- The quotient rounded to the nearest whole number; a tie goes to the even one. -/
def roundDiv (num den : Nat) : Nat :=
  let low := num / den
  let rest := 2 * (num % den)
  if rest < den then low
  else if den < rest then low + 1
  else if low % 2 = 0 then low else low + 1

/-- The magnitude in units of the last place, rounded. -/
def Parts.scaled (p : Parts) (places : Nat) : Nat :=
  roundDiv ((p.significand <<< p.exponent) * Nat.pow 10 places) (1 <<< 1074)

/-- A number of units of the last place, with the point put in. -/
def pointed (units places : Nat) : String :=
  let one := Nat.pow 10 places
  let fraction := toString (units % one)
  let zeros := String.ofList (List.replicate (places - fraction.length) '0')
  toString (units / one) ++ "." ++ zeros ++ fraction

/-- A number with `places` decimals. A sign is written also for a zero that has one; what is no
number is written without. -/
def render (places : Nat) (x : Float) : String :=
  let bits := x.toBits
  let sign := if bits.toNat >>> 63 = 1 then "-" else ""
  if x.isNaN then "NaN"
  else if x.isInf then sign ++ "inf"
  else sign ++ pointed ((Parts.ofBits bits).scaled places) places

/-- Rounding moves a quotient by at most one half. -/
theorem roundDiv_near (num den : Nat) (h : 0 < den) :
    2 * num ≤ (2 * roundDiv num den + 1) * den ∧ 2 * roundDiv num den * den ≤ 2 * num + den := by
  have split_num := Nat.div_add_mod num den
  have small := Nat.mod_lt num h
  have key : num / den * den = den * (num / den) := Nat.mul_comm _ _
  simp only [roundDiv]
  split
  · constructor <;> simp only [Nat.add_mul, Nat.mul_assoc, key] <;> omega
  · split
    · constructor <;> simp only [Nat.add_mul, Nat.mul_add, Nat.mul_assoc, key] <;> omega
    · split <;> constructor <;> simp only [Nat.add_mul, Nat.mul_add, Nat.mul_assoc, key] <;> omega

end MemoryReplay.Decimal
