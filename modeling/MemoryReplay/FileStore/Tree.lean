import MemoryReplay.FileStore.Basic

/-!
# Files in memory

A tree of directories and files as a value. Paths are followed name by name from the top of the
tree, and what goes wrong first on the way is what is reported.

- `FileTree`: the tree.
- `FileTree.walk`: where a path leads.
- `FileTree.read`, `FileTree.write`, `FileTree.makeDirectories`: the operations, with the
  `FileStore` instance for programs that carry a tree as their state.
-/

namespace MemoryReplay

/-- Directories and files. -/
inductive FileTree where
  | file (content : ByteArray)
  | directory (entries : List (String × FileTree))

namespace FileTree

/-- No file at all. -/
def empty : FileTree := directory []

/-- What stands at the end of a way without detours. -/
def at? : FileTree → List String → Option FileTree
  | tree, [] => some tree
  | file _, _ :: _ => none
  | directory entries, name :: rest =>
    match entries.lookup name with
    | some tree => tree.at? rest
    | none => none

/-- Puts a tree in place of the entry of a name, or after the last entry. -/
def putEntry (name : String) (tree : FileTree) : List (String × FileTree) → List (String × FileTree)
  | [] => [(name, tree)]
  | (n, t) :: rest => if n = name then (name, tree) :: rest else (n, t) :: putEntry name tree rest

/-- The tree with `new` at the end of a way, whose directories are all there. -/
def put (tree new : FileTree) : List String → FileTree
  | [] => new
  | name :: rest =>
    match tree with
    | file content => file content
    | directory entries =>
      directory (putEntry name (put ((entries.lookup name).getD empty) new rest) entries)

/-- Longest name, in bytes. -/
def maxName : Nat := 255

/-- Longest path, in bytes. -/
def maxPath : Nat := 4095

/-- Refuses paths that no system follows. -/
def checkPath (path : String) : Except DeviceError Unit :=
  if path.contains '\x00' then .error .nulInName
  else if path = "" then .error .notFound
  else if maxPath < path.utf8ByteSize then .error .nameTooLong
  else .ok ()

/-- Where names lead from the way `here`: the way there without detours. Every name but the last
must lead to a directory, the last one may lead to nothing. -/
def walk (tree : FileTree) (here : List String) : List String → Except DeviceError (List String)
  | [] => .ok here
  | name :: rest =>
    match tree.at? here with
    | none => .error .notFound
    | some (file _) => .error .notADirectory
    | some (directory _) =>
      if name = "." then tree.walk here rest
      else if name = ".." then tree.walk here.dropLast rest
      else if maxName < name.utf8ByteSize then .error .nameTooLong
      else tree.walk (here ++ [name]) rest

/-- The way to what a path names. -/
def locate (tree : FileTree) (path : String) : Except DeviceError (List String) := do
  checkPath path
  tree.walk [] (Path.names path)

/-- What a path names. -/
def find (tree : FileTree) (path : String) : Except DeviceError FileTree := do
  match tree.at? (← tree.locate path) with
  | none => .error .notFound
  | some (file content) =>
    if Path.namesDirectory path then .error .notADirectory else .ok (file content)
  | some other => .ok other

/-- The content of a file. -/
def read (tree : FileTree) (path : String) : Except DeviceError ByteArray := do
  match ← tree.find path with
  | file content => .ok content
  | directory _ => .error .isADirectory

/-- The tree with a new content of a file. A path that can only name a directory is refused for that
as soon as the way to its last name has been gone; the last name itself is not looked at. -/
def write (tree : FileTree) (path : String) (content : ByteArray) :
    Except DeviceError FileTree := do
  if Path.namesDirectory path then
    checkPath path
    let _ ← tree.walk [] ((Path.names path).dropLast ++ ["."])
    .error .isADirectory
  else
    let way ← tree.locate path
    match tree.at? way with
    | some (directory _) => .error .isADirectory
    | _ => .ok (tree.put (file content) way)

/-- The tree with a directory at the end of a way, unless one is there. All the directories above it
are there. -/
def makeAt (tree : FileTree) (way : List String) : Except DeviceError FileTree :=
  match tree.at? way with
  | none => .ok (tree.put empty way)
  | some (directory _) => .ok tree
  | some (file _) => .error .alreadyExists

/-- Makes the directories that names lead to from the way `here`, one after the other, as far as
that goes. -/
def makeAlong (tree : FileTree) (here : List String) :
    List String → Except DeviceError Unit × FileTree
  | [] => (.ok (), tree)
  | name :: rest =>
    match tree.walk here [name] with
    | .error e => (.error e, tree)
    | .ok there =>
      match tree.makeAt there with
      | .error e => (.error e, tree)
      | .ok made => made.makeAlong there rest

/-- Makes the one directory that a path names, unless it is there. -/
def makeDirectory (tree : FileTree) (path : String) : Except DeviceError FileTree := do
  tree.makeAt (← tree.locate path)

/-- Makes a directory. Only where something above it is missing, those above are made first, and
they stay even if the directory itself is refused then: a path that ends with a dot names a
directory that has to be there. The empty path names the directory that is there anyway. -/
def makeDirectories (tree : FileTree) (path : String) : Except DeviceError Unit × FileTree :=
  if path = "" then (.ok (), tree)
  else
    match tree.makeDirectory path with
    | .ok made => (.ok (), made)
    | .error .notFound =>
      match tree.makeAlong [] (Path.steps path).dropLast with
      | (.error e, tree) => (.error e, tree)
      | (.ok (), tree) =>
        match tree.makeDirectory path with
        | .ok made => (.ok (), made)
        | .error e => (.error e, tree)
    | .error e => (.error e, tree)

instance : FileStore (StateM FileTree) where
  pathExists path := return (find (← get) path).isOk
  read path := return (← get).read path
  write path content := do
    match (← get).write path content with
    | .ok tree =>
      set tree
      return .ok ()
    | .error e => return .error e
  makeDirectories path := do
    let (result, tree) := (← get).makeDirectories path
    set tree
    return result

end FileTree

end MemoryReplay
