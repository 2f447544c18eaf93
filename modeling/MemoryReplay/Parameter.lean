import MemoryReplay.Fault

/-!
# Parameters out of their domain

Patterns and memory models check their parameters before they do anything. A refusal names the
parameter and the constraint.

- `ParameterError`: the parameter and the `Reason`; `ParameterError.message` is its wording.
- `Parameter.positive`, `Parameter.exact`, `Parameter.requestCount`: the checks that several
  patterns share.
-/

namespace MemoryReplay

/-- The constraint that a parameter violates. -/
inductive Reason where
  /-- The parameter is zero and must not be. -/
  | zero
  /-- An address computed from the parameter needs more than 64 bits. -/
  | addressOverflow
  /-- The parameters ask for more requests than are ever generated. -/
  | tooManyRequests (count : UInt64)
  /-- A shift by the whole address or more. -/
  | shiftTooWide (shift : UInt32)
  /-- The parameter must lie between one and `last`. -/
  | outsideRange (last : UInt64)
  /-- A queue that holds no request. -/
  | zeroDepth
  /-- A burst that moves no byte. -/
  | emptyBurst
  /-- An address field that starts past the top of the address. -/
  | fieldOutsideAddress
  /-- A bank field that is empty or too wide. -/
  | bankWidth
  /-- A clock period that is no positive finite number. -/
  | clockPeriod
  deriving Repr, DecidableEq

/-- Most requests a pattern ever holds. -/
def maxRequests : Nat := UInt32.size

/-- The wording of a constraint. -/
def Reason.message : Reason → String
  | zero => "must be greater than zero"
  | addressOverflow => "address arithmetic overflows 64 bits"
  | tooManyRequests count => s!"{count} requests exceed the limit of {maxRequests}"
  | shiftTooWide shift => s!"{shift} exceeds the 64-bit address width"
  | outsideRange last => s!"must be in 1..={last}"
  | zeroDepth => "a zero-depth queue never admits a request"
  | emptyBurst => "burst must move at least one byte"
  | fieldOutsideAddress => "address fields must lie inside 64 bits"
  | bankWidth => "must be between 1 and 8"
  | clockPeriod => "must be a positive number of nanoseconds"

/-- A parameter that violates a constraint. -/
structure ParameterError where
  /-- The parameter's name in a configuration. -/
  parameter : String
  /-- What it violates. -/
  reason : Reason
  deriving Repr, DecidableEq

/-- The wording of a refusal. -/
def ParameterError.message (e : ParameterError) : String :=
  s!"invalid parameter '{e.parameter}': {e.reason.message}"

namespace Parameter

/-- Refuses zero. -/
def positive (name : String) (value : UInt64) : Except ParameterError Unit :=
  if value = 0 then .error ⟨name, .zero⟩ else .ok ()

/-- The value of an address computation, or the parameter to blame if it left 64 bits. -/
def exact (name : String) {α : Type} : Checked α → Except ParameterError α
  | some value => .ok value
  | none => .error ⟨name, .addressOverflow⟩

/-- The number of requests a pattern will hold, if it is a number it may hold. -/
def requestCount (name : String) (count : Checked UInt64) : Except ParameterError Nat := do
  let count ← exact name count
  if count.toNat ≤ maxRequests then .ok count.toNat
  else .error ⟨name, .tooManyRequests count⟩

end Parameter

end MemoryReplay
