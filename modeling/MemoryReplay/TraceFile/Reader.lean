import MemoryReplay.TraceFile.Record

/-!
# Trace files

A trace file holds one record a line; blank lines are skipped but counted. Reading stops at the
first line that is no text or no record.

- `TraceFile.lines`: the lines of a byte string.
- `TraceFile.read`: the requests of a file.
- `TraceFile.render`: the text of a file with the given requests.
-/

namespace MemoryReplay

/-- Why a trace file was not read or written. -/
inductive TraceError where
  /-- The file refused, or its bytes are no text. -/
  | device (path : String) (e : DeviceError)
  /-- A line, counted from one, is no record. -/
  | malformed (line : Nat) (content : String) (fault : RecordFault)
  deriving Repr, DecidableEq

/-- The wording of a trace error. -/
def TraceError.message : TraceError → String
  | device path e => s!"trace file '{path}': {e.message}"
  | malformed line content fault =>
    s!"malformed trace line {line}: '{content}' ({fault.message})"

namespace TraceFile

open Text

/-- The byte that ends a line. -/
def lineEnd : UInt8 := 10

/-- The lines of a byte string, without their ends. What follows the last end is a line of its
own if there is anything. -/
def lines : List UInt8 → List (List UInt8)
  | [] => []
  | b :: rest =>
    if b = lineEnd then [] :: lines rest
    else
      match lines rest with
      | [] => [[b]]
      | line :: more => (b :: line) :: more

/-- The characters of a line, if its bytes are UTF-8. -/
def text? (line : List UInt8) : Option (List Char) :=
  (String.fromUTF8? ⟨line.toArray⟩).map String.toList

/-- The request on a line of a file, none if the line is blank. -/
def readLine (path : String) (number : Nat) (line : List UInt8) :
    Except TraceError (Option Request) :=
  match text? line with
  | none => .error (.device path .invalidText)
  | some cs =>
    if allBlank cs then .ok none
    else
      match Record.read cs with
      | .ok r => .ok (some r)
      | .error fault => .error (.malformed number (String.ofList (trim cs)) fault)

/-- The requests on lines that are counted from `number` on. -/
def readLines (path : String) (number : Nat) : List (List UInt8) → Except TraceError (List Request)
  | [] => .ok []
  | line :: rest => do
    let here ← readLine path number line
    let later ← readLines path (number + 1) rest
    return here.toList ++ later

/-- The requests of a file with the given bytes. -/
def read (path : String) (bytes : List UInt8) : Except TraceError (List Request) :=
  readLines path 1 (lines bytes)

/-- The text of a file that holds the given requests. -/
def render (trace : List Request) : String :=
  unlines (trace.map Record.render)

end TraceFile

end MemoryReplay
