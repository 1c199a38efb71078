import JvmRelocation.Host.Path
import JvmRelocation.Store.Basic

/-!
# File systems

The operations of a host file system that works in a monad, and what is made of them: directories
with all their parents, and a class store inside a directory.

A path inside such a store must consist of proper names. It then leads below the store's root; any
other path is refused before the file system is touched.
-/

namespace JvmRelocation

/-- The operations of a host file system. -/
structure FileSystem (m : Type → Type) where
  readFile : String → m (Except IoError Bytes)
  /-- Puts content into a file, which is created unless it is there. -/
  writeFile : String → Bytes → m (Except IoError Unit)
  /-- Creates a directory, whose parent must be there. -/
  makeDirectory : String → m (Except IoError Unit)
  /-- The names of what a directory holds, in order. -/
  entries : String → m (Except IoError (List String))
  isDirectory : String → m Bool
  isFile : String → m Bool

namespace FileSystem

variable {m : Type → Type} [Monad m]

/-- Creates a directory unless it is there. -/
def ensureDirectory (fs : FileSystem m) (path : String) : m (Except IoError Unit) := do
  match ← fs.makeDirectory path with
  | .ok () => return .ok ()
  | .error e => if ← fs.isDirectory path then return .ok () else return .error e

/-- Why a directory cannot be created when it has no parent to start from. -/
def wholeTreeError : IoError := ⟨.other, "failed to create whole tree"⟩

/-- Creates a directory with its parents, as far as they are missing. The fuel bounds the number of
parents and is never used up when it exceeds the path's length. -/
def createDirectoriesFrom (fs : FileSystem m) : Nat → String → m (Except IoError Unit)
  | 0, _ => return .error wholeTreeError
  | fuel + 1, path => do
    if path = "" then return .ok ()
    match ← fs.makeDirectory path with
    | .ok () => return .ok ()
    | .error e =>
      if e.kind = .notFound then
        match HostPath.parent? path with
        | none => return .error wholeTreeError
        | some parent =>
          match ← createDirectoriesFrom fs fuel parent with
          | .error e => return .error e
          | .ok () => fs.ensureDirectory path
      else if ← fs.isDirectory path then return .ok ()
      else return .error e

/-- Creates a directory with its parents, as far as they are missing. -/
def createDirectories (fs : FileSystem m) (path : String) : m (Except IoError Unit) :=
  fs.createDirectoriesFrom (path.length + 1) path

end FileSystem

/-! ## Class stores in directories -/

namespace DirectoryStore

/-- The error of a file system, told with the host path it is about. -/
def withPath {α : Type} (path : String) : Except IoError α → Except IoError α
  | .ok a => .ok a
  | .error e => .error { e with message := path ++ ": " ++ e.message }

/-- Why a path is refused. -/
def refusal (path : String) : IoError :=
  ⟨.invalidInput, path ++ ": path escapes or is not relative to the store root"⟩

/-- The host path of a path inside a store. -/
def hostPath (root path : String) : Except IoError String :=
  if isPathName path then .ok ((segments path).foldl HostPath.join root) else .error (refusal path)

variable {m : Type → Type} [Monad m]

/-- The class files among the given entries of a directory, given how a directory is walked. -/
def walkEntries (fs : FileSystem m) (walk : String → String → m (Except IoError (List String)))
    (directory inside : String) : List String → m (Except IoError (List String))
  | [] => return .ok []
  | name :: rest => do
    let path := HostPath.join directory name
    let relative := if inside = "" then name else inside ++ "/" ++ name
    let here ←
      if ← fs.isDirectory path then walk path relative
      else if (← fs.isFile path) && isClassPath relative then pure (.ok [relative])
      else pure (.ok [])
    match here with
    | .error e => return .error e
    | .ok found =>
      match ← walkEntries fs walk directory inside rest with
      | .error e => return .error e
      | .ok more => return .ok (found ++ more)

/-- The class files below a directory. The fuel bounds the nesting of directories. -/
def walk (fs : FileSystem m) : Nat → String → String → m (Except IoError (List String))
  | 0, directory, _ => return .error ⟨.invalidFilename, directory ++ ": directories too deep"⟩
  | fuel + 1, directory, inside => do
    match withPath directory (← fs.entries directory) with
    | .error e => return .error e
    | .ok names => walkEntries fs (walk fs fuel) directory inside names

/-- How deep directories can be nested: a path has at most 4095 bytes, and every level takes a slash
and a name. -/
def maxDepth : Nat := 4096

/-- Texts in ascending order. -/
def sorted (texts : List String) : List String :=
  texts.mergeSort fun a b => !decide (b < a)

/-- The class store inside a directory. -/
def access (fs : FileSystem m) (root : String) : ClassStore m where
  list := do
    match ← walk fs maxDepth root "" with
    | .error e => return .error e
    | .ok found => return .ok (sorted found)
  read path := do
    match hostPath root path with
    | .error e => return .error e
    | .ok host => return withPath host (← fs.readFile host)
  write path bytes := do
    match hostPath root path with
    | .error e => return .error e
    | .ok host =>
      let parent := (HostPath.parent? host).getD ""
      match withPath parent (← fs.createDirectories parent) with
      | .error e => return .error e
      | .ok () => return withPath host (← fs.writeFile host bytes)

end DirectoryStore

end JvmRelocation
