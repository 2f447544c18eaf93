import MemoryReplay.Word

/-!
# Faults

A computation can end early for two reasons that are kept apart: it found something wrong with
its input and says so, or a number left 64 bits where the computation does not expect it.

- `Fault ε`: a reported error of type `ε`, or an arithmetic overflow.
- `Outcome ε α`: the result of such a computation. Checked arithmetic and plain `Except` lift
  into it, so one `do` block can use all three.
-/

namespace MemoryReplay

/-- Why a computation ended early. -/
inductive Fault (ε : Type) where
  /-- The input is wrong in the way `e` tells. -/
  | reported (e : ε)
  /-- A number left 64 bits. -/
  | overflow
  deriving Repr, DecidableEq

/-- The result of a computation that may report an error or overflow. -/
abbrev Outcome (ε α : Type) := Except (Fault ε) α

namespace Outcome

variable {ε δ α : Type}

/-- Checked arithmetic as an outcome. -/
def ofChecked : Checked α → Outcome ε α
  | some a => .ok a
  | none => .error .overflow

/-- A computation without arithmetic as an outcome. -/
def ofExcept : Except ε α → Outcome ε α
  | .ok a => .ok a
  | .error e => .error (.reported e)

/-- Stops with the error `e`. -/
def report (e : ε) : Outcome ε α := .error (.reported e)

/-- The same outcome with its reported error seen as an error of a larger kind. -/
def mapReported (f : ε → δ) : Outcome ε α → Outcome δ α
  | .ok a => .ok a
  | .error (.reported e) => .error (.reported (f e))
  | .error .overflow => .error .overflow

instance : MonadLift Option (Except (Fault ε)) := ⟨ofChecked⟩

instance : MonadLift (Except ε) (Except (Fault ε)) := ⟨ofExcept⟩

end Outcome

end MemoryReplay
