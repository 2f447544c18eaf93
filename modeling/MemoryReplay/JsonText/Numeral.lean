/-!
# Numbers in JSON text

A number is read as a whole number if it is written as one and fits into 64 bits. Otherwise it is
a floating-point number made from a 64-bit significand and a power of ten, with at most one
rounding for each: digits that the significand has no room for count for the power only.

- `Numeral`: a number as it is written.
- `Numeral.value?`: what it stands for; none if that is too large.
- `Numeral.fromParts?`: the floating-point number of a significand and a power of ten.
-/

namespace MemoryReplay.JsonText

/-- A number as it is written. -/
structure Numeral where
  /-- Whether a minus sign stands in front. -/
  negative : Bool
  /-- The digits before the point. -/
  whole : List Nat
  /-- The digits after the point, if there is one. -/
  fraction : Option (List Nat)
  /-- The sign and the digits of the exponent, if there is one. -/
  exponent : Option (Bool × List Nat)
  deriving Repr, DecidableEq

/-- What a number stands for. -/
inductive Number where
  /-- A whole number from zero on. -/
  | natural (n : UInt64)
  /-- A whole number below zero, by its magnitude. -/
  | below (n : UInt64)
  /-- A number written with a point or an exponent, or one that is no 64-bit whole number. -/
  | real (x : Float)

/-- The floating-point number nearest to what a number stands for. -/
def Number.toFloat : Number → Float
  | natural n => n.toFloat
  | below n => -n.toFloat
  | real x => x

namespace Numeral

/-- Appends digits to a number as long as it fits into 64 bits; the digits left over. -/
def appendDigits (n : Nat) : List Nat → Nat × List Nat
  | [] => (n, [])
  | d :: rest =>
    if 10 * n + d < UInt64.size then appendDigits (10 * n + d) rest
    else (n, d :: rest)

/-- The number that digits write. -/
def digitsValue (digits : List Nat) : Nat := digits.foldl (fun n d => 10 * n + d) 0

/-- A power of ten, rounded to the nearest. -/
def powerOfTen (e : Nat) : Float := Float.ofScientific 1 false e

/-- Largest power of ten that is a floating-point number. -/
def maxPower : Nat := 308

/-- `f` divided by a power of ten, in steps that are themselves floating-point numbers. -/
def divideByPower (f : Float) (e : Nat) : Float :=
  if e ≤ maxPower then f / powerOfTen e
  else if f == 0.0 then f
  else divideByPower (f / powerOfTen maxPower) (e - maxPower)
termination_by e
decreasing_by unfold maxPower at *; omega

/-- `significand * 10 ^ exponent`; none if it is too large. -/
def fromParts? (significand : Nat) (exponent : Int) : Option Float :=
  let f := (UInt64.ofNat significand).toFloat
  if exponent < 0 then some (divideByPower f exponent.natAbs)
  else if exponent.natAbs ≤ maxPower then
    let product := f * powerOfTen exponent.natAbs
    if product.isInf then none else some product
  else if f == 0.0 then some f
  else none

/-- An exponent beyond this decides the number alone. -/
def maxExponent : Nat := 2147483647

/-- The magnitude as a floating-point number. -/
def magnitude? (numeral : Numeral) : Option Float :=
  let (significand, skipped) := appendDigits 0 numeral.whole
  let digits := numeral.fraction.getD []
  let (significand, ignored) := appendDigits significand digits
  let scale : Int := skipped.length - (digits.length - ignored.length : Nat)
  match numeral.exponent with
  | none => fromParts? significand scale
  | some (down, digits) =>
    let exponent := digitsValue digits
    if maxExponent < exponent then
      if significand = 0 || down then some 0.0 else none
    else
      fromParts? significand (if down then scale - exponent else scale + exponent)

/-- A magnitude with its sign. -/
def signed (numeral : Numeral) (x : Float) : Float := if numeral.negative then -x else x

/-- What a number stands for; none if it is too large for a floating-point number. -/
def value? (numeral : Numeral) : Option Number :=
  let real := numeral.magnitude?.map fun x => Number.real (numeral.signed x)
  match numeral.fraction, numeral.exponent, appendDigits 0 numeral.whole with
  | none, none, (n, []) =>
    if !numeral.negative then some (.natural (UInt64.ofNat n))
    else if n = 0 || 1 <<< 63 < n then real
    else some (.below (UInt64.ofNat n))
  | _, _, _ => real

end Numeral

end MemoryReplay.JsonText
