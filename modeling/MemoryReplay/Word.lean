/-!
# Checked 64-bit arithmetic

Addresses are 64-bit words, and a sum or product that leaves 64 bits is an error, never a
smaller number. Everything that computes an address or advances a clock does so through the
operations of this module.

- `Checked α`: a computation that stops (`none`) when a value leaves 64 bits.
- `Word.ofNat?`, `Word.add?`, `Word.mul?`, `Word.shiftLeft?`: exact arithmetic on words.
- `Word.half?`: a word as a number of 32 bits.
- `Word.fits`: the same test for a counter kept as a natural number.
- `Word.ofNat?_eq_some_iff`: a word is obtained exactly when it stands for the exact number.
-/

namespace MemoryReplay

/-- A computation in 64-bit arithmetic; `none` when some value does not fit. -/
abbrev Checked (α : Type) := Option α

namespace Word

/-- The word that stands for `n`, if there is one. -/
def ofNat? (n : Nat) : Checked UInt64 :=
  if n < UInt64.size then some (UInt64.ofNat n) else none

/-- The exact sum. -/
def add? (a b : UInt64) : Checked UInt64 :=
  ofNat? (a.toNat + b.toNat)

/-- The exact product. -/
def mul? (a b : UInt64) : Checked UInt64 :=
  ofNat? (a.toNat * b.toNat)

/-- `a` moved `shift` bits up inside the word; bits that leave it at the top are lost. A shift
by the whole width or more is an error. -/
def shiftLeft? (a : UInt64) (shift : Nat) : Checked UInt64 :=
  if shift < 64 then some (a <<< UInt64.ofNat shift) else none

/-- The product with `2 ^ shift`, with no bit lost. -/
def scale? (a : UInt64) (shift : Nat) : Checked UInt64 :=
  if shift < 64 then ofNat? (a.toNat <<< shift) else none

/-- The bits of `a` from position `shift` on, read as a number. A shift by the whole width or
more is an error. -/
def above? (a : UInt64) (shift : Nat) : Checked Nat :=
  if shift < 64 then some (a.toNat >>> shift) else none

/-- The quotient by a positive divisor, rounded up. -/
def ceilDiv (a b : UInt64) : UInt64 :=
  if a % b = 0 then a / b else a / b + 1

/-- The same number in 32 bits, if there is one. -/
def half? (a : UInt64) : Checked UInt32 :=
  if a.toNat < UInt32.size then some (UInt32.ofNat a.toNat) else none

/-- A counter's new value, if it is still a 64-bit number. -/
def fits (n : Nat) : Checked Nat :=
  if n < UInt64.size then some n else none

/-- The sum of 64-bit numbers, added from the left. -/
def sum? (ns : List Nat) : Checked Nat :=
  ns.foldlM (fun total n => fits (total + n)) 0

theorem ofNat?_eq_some_iff {n : Nat} {w : UInt64} : ofNat? n = some w ↔ w.toNat = n := by
  unfold ofNat?
  constructor
  · intro h
    split at h
    · next hn =>
      cases h
      simpa [UInt64.toNat_ofNat'] using Nat.mod_eq_of_lt hn
    · cases h
  · rintro rfl
    have := w.toNat_lt
    simp [this]

theorem add?_eq_some_iff {a b w : UInt64} : add? a b = some w ↔ w.toNat = a.toNat + b.toNat :=
  ofNat?_eq_some_iff

theorem mul?_eq_some_iff {a b w : UInt64} : mul? a b = some w ↔ w.toNat = a.toNat * b.toNat :=
  ofNat?_eq_some_iff

theorem fits_eq_some_iff {n m : Nat} : fits n = some m ↔ m = n ∧ n < UInt64.size := by
  unfold fits
  by_cases h : n < UInt64.size
  · rw [if_pos h]
    exact ⟨fun e => ⟨(Option.some.inj e).symm, h⟩, fun e => congrArg some e.1.symm⟩
  · rw [if_neg h]
    exact ⟨fun e => absurd e (Option.some_ne_none m).symm, fun e => absurd e.2 h⟩

end Word

end MemoryReplay
