import JvmRelocation.Host.FileSystem

/-!
# A file system as a tree

Files and directories as a value, without links. Every operation follows a path from the root or
from the working directory and answers as a host does: what is missing, what is no directory, what
is one, and what is too long are told apart.
-/

namespace JvmRelocation

/-- A file or a directory, whose entries are in the order of their names. -/
inductive FileNode where
  | file (content : Bytes)
  | directory (entries : List (String × FileNode))

namespace FileNode

/-- The directory that holds nothing. -/
def emptyDirectory : FileNode := .directory []

/-- Whether this is a directory. -/
def isDirectory : FileNode → Bool
  | file _ => false
  | directory _ => true

/-- The entry with a name, if this is a directory that has one. -/
def child? (node : FileNode) (name : String) : Option FileNode :=
  match node with
  | file _ => none
  | directory entries => (entries.find? (·.1 = name)).map (·.2)

/-- What the given names lead to, one after the other. -/
def find? (node : FileNode) : List String → Option FileNode
  | [] => some node
  | name :: rest =>
    match node.child? name with
    | some next => next.find? rest
    | none => none

/-- Entries with another node under a name, in order. -/
def setEntry (name : String) (node : FileNode) :
    List (String × FileNode) → List (String × FileNode)
  | [] => [(name, node)]
  | entry :: rest =>
    if entry.1 = name then (name, node) :: rest
    else if name < entry.1 then (name, node) :: entry :: rest
    else entry :: setEntry name node rest

/-- The tree with another node where the given names lead. Directories on the way are created. -/
def put (node : FileNode) (new : FileNode) : List String → FileNode
  | [] => new
  | name :: rest =>
    match node with
    | file content => file content
    | directory entries =>
      directory (setEntry name (((node.child? name).getD emptyDirectory).put new rest) entries)

mutual

/-- The files of a tree, with the names that lead to them. -/
def files : FileNode → List (List String × Bytes)
  | file content => [([], content)]
  | directory entries => entryFiles entries

/-- The files below the given entries. -/
def entryFiles : List (String × FileNode) → List (List String × Bytes)
  | [] => []
  | (name, node) :: rest =>
    node.files.map (fun (names, content) => (name :: names, content)) ++ entryFiles rest

end

end FileNode

/-- Why an operation on a file tree fails. -/
inductive HostFault where
  | notFound
  | alreadyExists
  | notADirectory
  | isADirectory
  | nameTooLong
  /-- The path holds a zero character. -/
  | zeroCharacter
deriving DecidableEq, Repr

/-- The error that the host reports. -/
def HostFault.toIoError : HostFault → IoError
  | notFound => ⟨.notFound, "No such file or directory (os error 2)"⟩
  | alreadyExists => ⟨.alreadyExists, "File exists (os error 17)"⟩
  | notADirectory => ⟨.notADirectory, "Not a directory (os error 20)"⟩
  | isADirectory => ⟨.isADirectory, "Is a directory (os error 21)"⟩
  | nameTooLong => ⟨.invalidFilename, "File name too long (os error 36)"⟩
  | zeroCharacter => ⟨.invalidInput, "file name contained an unexpected NUL byte"⟩

/-- A file system as a tree, with a working directory. -/
structure FileTree where
  root : FileNode
  workingDirectory : List String

namespace FileTree

/-- The most bytes a name and a path can have. -/
def maxNameBytes : Nat := 255

/-- The most bytes a path can have. -/
def maxPathBytes : Nat := 4095

/-- Goes from a place to where the given segments lead. Each of them is looked up in a directory. -/
def follow (root : FileNode) (here : List String) : List String → Except HostFault (List String)
  | [] => .ok here
  | segment :: rest =>
    match root.find? here with
    | none => .error .notFound
    | some (.file _) => .error .notADirectory
    | some (.directory _) =>
      if segment = "" || segment = "." then follow root here rest
      else if segment = ".." then follow root here.dropLast rest
      else if maxNameBytes < segment.utf8ByteSize then .error .nameTooLong
      else if (root.find? (here ++ [segment])).isSome then follow root (here ++ [segment]) rest
      else .error .notFound

/-- Refuses a path that no file system takes. -/
def checkPath (path : String) : Except HostFault Unit :=
  if path.toList.any (·.toNat = 0) then .error .zeroCharacter
  else if maxPathBytes < path.utf8ByteSize then .error .nameTooLong
  else if path = "" then .error .notFound
  else .ok ()

/-- Where a path starts. -/
def start (t : FileTree) (path : String) : List String :=
  if HostPath.isAbsolute path then [] else t.workingDirectory

/-- Where a path leads, and what is there. -/
def locate (t : FileTree) (path : String) : Except HostFault FileNode := do
  checkPath path
  let place ← follow t.root (t.start path) (segments path)
  match t.root.find? place with
  | some node => .ok node
  | none => .error .notFound

/-- What a path says about an entry that may be missing. -/
structure Target where
  /-- The directory that is to hold the entry. -/
  parent : List String
  /-- The name of the entry; there is none if the path ends in `.` or `..` or is the root. -/
  name : Option String
  /-- Whether a slash follows the name. -/
  slash : Bool

/-- Where the entry that a path names is or would be. -/
def target (t : FileTree) (path : String) : Except HostFault Target := do
  checkPath path
  let given := (segments path).reverse
  let named := given.dropWhile (· = "")
  let slash := given.length ≠ named.length
  match named with
  | [] => return ⟨[], none, slash⟩
  | last :: front =>
    let parent ← follow t.root (t.start path) front.reverse
    match t.root.find? parent with
    | some (.directory _) =>
      if last = "." || last = ".." then return ⟨parent, none, slash⟩
      else if maxNameBytes < last.utf8ByteSize then .error .nameTooLong
      else return ⟨parent, some last, slash⟩
    | some (.file _) => .error .notADirectory
    | none => .error .notFound

/-- The content of the file at a path. -/
def readFile (t : FileTree) (path : String) : Except HostFault Bytes := do
  match ← t.locate path with
  | .file content => .ok content
  | .directory _ => .error .isADirectory

/-- The tree with content in the file at a path. -/
def writeFile (t : FileTree) (path : String) (content : Bytes) : Except HostFault FileTree := do
  let place ← t.target path
  match place.name with
  | none => .error .isADirectory
  | some name =>
    if place.slash then .error .isADirectory
    else
      match t.root.find? (place.parent ++ [name]) with
      | some (.directory _) => .error .isADirectory
      | _ => .ok { t with root := t.root.put (.file content) (place.parent ++ [name]) }

/-- The tree with a new directory at a path. -/
def makeDirectory (t : FileTree) (path : String) : Except HostFault FileTree := do
  let place ← t.target path
  match place.name with
  | none => .error .alreadyExists
  | some name =>
    match t.root.find? (place.parent ++ [name]) with
    | some _ => .error .alreadyExists
    | none => .ok { t with root := t.root.put .emptyDirectory (place.parent ++ [name]) }

/-- The names of what the directory at a path holds, in order. -/
def entries (t : FileTree) (path : String) : Except HostFault (List String) := do
  match ← t.locate path with
  | .file _ => .error .notADirectory
  | .directory list => .ok (list.map (·.1))

/-- Whether a path leads to a directory. -/
def isDirectory (t : FileTree) (path : String) : Bool :=
  match t.locate path with
  | .ok node => node.isDirectory
  | .error _ => false

/-- Whether a path leads to a file. -/
def isFile (t : FileTree) (path : String) : Bool :=
  match t.locate path with
  | .ok node => !node.isDirectory
  | .error _ => false

/-- The files below the working directory, by their paths from there. -/
def relativeFiles (t : FileTree) : List (String × Bytes) :=
  match t.root.find? t.workingDirectory with
  | some node => node.files.map fun (names, content) => (Text.Json.joined "/" names, content)
  | none => []

/-- An operation that changes the tree unless it fails. -/
def update (operation : FileTree → Except HostFault FileTree) :
    StateM FileTree (Except IoError Unit) := fun t =>
  match operation t with
  | .ok t => (.ok (), t)
  | .error fault => (.error fault.toIoError, t)

/-- An operation that leaves the tree as it is. -/
def query {α : Type} (operation : FileTree → Except HostFault α) :
    StateM FileTree (Except IoError α) := fun t =>
  (match operation t with
    | .ok a => .ok a
    | .error fault => .error fault.toIoError, t)

/-- The operations of a file tree. -/
def fileSystem : FileSystem (StateM FileTree) where
  readFile path := query (·.readFile path)
  writeFile path content := update (·.writeFile path content)
  makeDirectory path := update (·.makeDirectory path)
  entries path := query (·.entries path)
  isDirectory path := fun t => (t.isDirectory path, t)
  isFile path := fun t => (t.isFile path, t)

/-- A tree whose working directory, at the given place, holds nothing. -/
def fresh (workingDirectory : List String) : FileTree :=
  ⟨FileNode.emptyDirectory.put .emptyDirectory workingDirectory, workingDirectory⟩

end FileTree

end JvmRelocation
