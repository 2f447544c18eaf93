import MemoryReplay.Word

/-!
# Classification of addresses

How a memory reads an address: four bits select the pseudo-channel, some bits the bank inside it, and
everything from a position up is the row. Where the classification is given as data, it is a finite
description of a function from addresses to numbers.

- `pseudoChannels`, `channels`: sixteen pseudo-channels, paired into eight channels.
- `AddressFields`: the positions of the fields, with `channelOf?`, `bankOf?`, `rowOf?` and the
  number of `banks?` they distinguish. A position outside the address is an error.
- `Classifier`: a constant, a bit field, or a table with a default. `Classifier.eval?`: the number of
  an address; a field past the top of the address is an error.
-/

namespace MemoryReplay

/-- Number of pseudo-channels. -/
def pseudoChannels : Nat := 16

/-- Number of channels: each serves two neighbouring pseudo-channels. -/
def channels : Nat := 8

/-- Banks of one bank group: bank numbers are grouped in runs of this size. -/
def banksPerGroup : Nat := 4

/-- The layout of an address. The fields may overlap. -/
structure AddressFields where
  /-- Lowest bit of the four that select the pseudo-channel. -/
  channelShift : UInt32
  /-- Lowest bit of the bank field. -/
  bankShift : UInt32
  /-- Width of the bank field. -/
  bankBits : UInt32
  /-- Lowest bit of the row. -/
  rowShift : UInt32
  deriving Repr, DecidableEq

namespace AddressFields

/-- The pseudo-channel of an address. -/
def channelOf? (fields : AddressFields) (a : UInt64) : Checked (Fin pseudoChannels) := do
  let above ← Word.above? a fields.channelShift.toNat
  return ⟨above % pseudoChannels, Nat.mod_lt _ (by decide)⟩

/-- Banks that the bank field distinguishes. -/
def banks? (fields : AddressFields) : Checked Nat :=
  if fields.bankBits.toNat < 64 then some (1 <<< fields.bankBits.toNat) else none

/-- The bank of an address inside its pseudo-channel. -/
def bankOf? (fields : AddressFields) (a : UInt64) : Checked Nat := do
  let above ← Word.above? a fields.bankShift.toNat
  let banks ← fields.banks?
  return above % banks

/-- The row of an address. -/
def rowOf? (fields : AddressFields) (a : UInt64) : Checked Nat :=
  Word.above? a fields.rowShift.toNat

end AddressFields

/-- A description of a function from addresses to numbers. -/
inductive Classifier where
  /-- The same number for every address. -/
  | const (value : Nat)
  /-- The address moved down by `shift` bits, under a mask. -/
  | field (shift : Nat) (mask : UInt64)
  /-- The number listed first for the address, or else the default. -/
  | table (entries : List (UInt64 × Nat)) (default : Nat)
  deriving Repr

/-- The number that a classifier gives to an address. -/
def Classifier.eval? : Classifier → UInt64 → Checked Nat
  | const value, _ => some value
  | field shift mask, a => (Word.above? a shift).map (· &&& mask.toNat)
  | table entries default, a => some ((entries.lookup a).getD default)

end MemoryReplay
