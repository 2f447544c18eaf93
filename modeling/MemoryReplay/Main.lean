import MemoryReplay.CommandLine.Program

/-!
# The program on real files

- The files of the operating system as a `FileStore`.
- `main`: the program with the words of its command line.
-/

namespace MemoryReplay.CommandLine

/-- A refusal of the operating system. -/
def refusal : IO.Error → DeviceError
  | .noFileOrDirectory .. => .notFound
  | .alreadyExists .. => .alreadyExists
  | e => .other (toString e)

/-- An action on files with its refusal as a value. -/
def guarded {α : Type} (action : IO α) : IO (Except DeviceError α) := do
  try
    return .ok (← action)
  catch e =>
    return .error (refusal e)

instance : FileStore IO where
  pathExists path := do return (← (IO.FS.Handle.mk path .read).toBaseIO) matches .ok _
  read path := guarded (IO.FS.readBinFile path)
  write path content := guarded (IO.FS.writeBinFile path content)
  makeDirectories path := if path = "" then return .ok () else guarded (IO.FS.createDirAll path)

end MemoryReplay.CommandLine

open MemoryReplay.CommandLine in
/-- The program: prints what there is to print, and ends with the exit status. -/
def main (words : List String) : IO UInt32 := do
  let result ← (Program.execute words : IO Result)
  IO.print result.output
  match result.ending with
  | .failure e => IO.eprintln ("\n[!] FATAL: " ++ e.message)
  | .misuse => IO.eprint Program.usage
  | .success | .overflow => pure ()
  return UInt32.ofNat result.ending.status
