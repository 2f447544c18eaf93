import MemoryReplay.DeviceError

/-!
# Files and their paths

What a run needs of the files around it. A path names a file by the names on the way to it, with
slashes between them.

- `FileStore m`: reading, writing and making directories, as actions of `m`.
- `Path.names`: the names on the way.
- `Path.parent?`: the path of the directory that holds what a path names.
- `Path.join`: the path of a name inside a directory.
-/

namespace MemoryReplay

/-- The files that the actions of `m` reach. -/
class FileStore (m : Type → Type) where
  /-- Whether a path names anything. -/
  pathExists : String → m Bool
  /-- The content of a file. -/
  read : String → m (Except DeviceError ByteArray)
  /-- Gives a file a new content; the file is made if there is none. -/
  write : String → ByteArray → m (Except DeviceError Unit)
  /-- Makes a directory, and those above it, unless they are there. -/
  makeDirectories : String → m (Except DeviceError Unit)

namespace Path

/-- The names on the way, without the empty ones that repeated slashes make. -/
def names (path : String) : List String :=
  (path.splitOn "/").filter (· ≠ "")

/-- Whether a path starts at the root of all files. -/
def isAbsolute (path : String) : Bool := path.startsWith "/"

/-- Whether a path can only name a directory. -/
def namesDirectory (path : String) : Bool := path.endsWith "/"

/-- The names on the way without those that stay in place, of which only the first one counts. -/
def steps (path : String) : List String :=
  match names path with
  | [] => []
  | first :: rest =>
    let rest := rest.filter (· ≠ ".")
    if first = "." && isAbsolute path then rest else first :: rest

/-- The path of the directory that holds what a path names; empty for the current one, and none
where there is nothing above. -/
def parent? (path : String) : Option String :=
  match steps path with
  | [] => none
  | way =>
    let above := "/".intercalate way.dropLast
    some (if isAbsolute path then "/" ++ above else above)

/-- The path of a name inside a directory. The current directory may be left out. -/
def join (directory name : String) : String :=
  if directory = "" || directory.endsWith "/" then directory ++ name
  else directory ++ "/" ++ name

end Path

end MemoryReplay
