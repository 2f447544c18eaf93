/-!
# Refusals of files and streams

What can go wrong when text is read from or written to a device, as causes with the wording that
the operating system gives them.
-/

namespace MemoryReplay

/-- Why a file or a stream refused. -/
inductive DeviceError where
  /-- A file or directory on the path does not exist. -/
  | notFound
  /-- Something else stands where a directory is to be made. -/
  | alreadyExists
  /-- The path goes through something that is no directory. -/
  | notADirectory
  /-- The path names a directory where a file is needed. -/
  | isADirectory
  /-- The path, or a name in it, is longer than the system allows. -/
  | nameTooLong
  /-- The path holds a character that no name may hold. -/
  | nulInName
  /-- The bytes are no text in UTF-8. -/
  | invalidText
  /-- The stream takes nothing any more. -/
  | broken
  /-- Any other refusal, in the system's own words. -/
  | other (words : String)
  deriving Repr, DecidableEq

/-- The wording of a refusal. -/
def DeviceError.message : DeviceError → String
  | notFound => "No such file or directory (os error 2)"
  | alreadyExists => "File exists (os error 17)"
  | notADirectory => "Not a directory (os error 20)"
  | isADirectory => "Is a directory (os error 21)"
  | nameTooLong => "File name too long (os error 36)"
  | nulInName => "file name contained an unexpected NUL byte"
  | invalidText => "stream did not contain valid UTF-8"
  | broken => "sink is broken"
  | other words => words

end MemoryReplay
