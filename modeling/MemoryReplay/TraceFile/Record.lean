import MemoryReplay.DeviceError
import MemoryReplay.Request
import MemoryReplay.Text.Hex
import MemoryReplay.Text.Line
import MemoryReplay.Word

/-!
# Records of a trace file

A record is one line: an address in hexadecimal and a letter for the direction, with blanks
between them.

- `Record.render`: the line that is written for a request.
- `Record.read`: the request that a line describes, or the first thing that is wrong with it.
- `Record.address?`: the value of an address field.
-/

namespace MemoryReplay

/-- What is wrong with a line of a trace file. -/
inductive RecordFault where
  | missingAddress
  | missingToken
  | trailingFields
  | invalidAddress
  | unknownToken
  deriving Repr, DecidableEq

/-- The wording of a fault in a line. -/
def RecordFault.message : RecordFault → String
  | missingAddress => "missing address"
  | missingToken => "missing R/W token"
  | trailingFields => "trailing fields"
  | invalidAddress => "invalid hex address"
  | unknownToken => "expected R or W"

namespace Record

open Text

/-- The address as a record and the reports show it: at least eight digits. -/
def addressText (a : UInt64) : String :=
  "0x" ++ Hex.renderWide 8 a.toNat

/-- The line of a request, without the line end. -/
def render (r : Request) : String :=
  addressText r.address ++ " " ++ String.singleton r.direction.token

/-- An address field without the mark of its base. -/
def dropBaseMark : List Char → List Char
  | '0' :: 'x' :: rest => rest
  | '0' :: 'X' :: rest => rest
  | field => field

/-- A run of digits without the one plus sign that may stand before it. -/
def dropPlus : List Char → List Char
  | '+' :: rest => rest
  | digits => digits

/-- The address that a field stands for: an optional mark of the base, an optional plus sign, and
hexadecimal digits of a 64-bit value. -/
def address? (field : List Char) : Option UInt64 :=
  (Hex.read? (dropPlus (dropBaseMark field))).bind Word.ofNat?

/-- The direction that a field stands for. -/
def direction? : List Char → Option Direction
  | ['R'] | ['r'] => some .read
  | ['W'] | ['w'] => some .write
  | _ => none

/-- The fresh request that a line describes. The number of fields is looked at first, then the
address, then the direction. -/
def read (line : List Char) : Except RecordFault Request :=
  match fields line with
  | [] => .error .missingAddress
  | [_] => .error .missingToken
  | [address, token] =>
    match address? address with
    | none => .error .invalidAddress
    | some a =>
      match direction? token with
      | none => .error .unknownToken
      | some d => .ok (.fresh a d)
  | _ => .error .trailingFields

end Record

end MemoryReplay
