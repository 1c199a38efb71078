import JvmRelocation.CommandLine.Run

/-!
# The program

The operations of the host's file system, and the program on it. The program does not search
directories: a command that relocates takes the paths of the files below the input directory from
standard input, one a line, as `find` lists them.
-/

namespace JvmRelocation.HostProgram

/-- The host's error as an error of the library. -/
def hostError : IO.Error → IoError
  | .noFileOrDirectory .. => ⟨.notFound, "No such file or directory (os error 2)"⟩
  | .alreadyExists .. => ⟨.alreadyExists, "File exists (os error 17)"⟩
  | .permissionDenied .. => ⟨.permissionDenied, "Permission denied (os error 13)"⟩
  | .inappropriateType _ code _ =>
    if code.toNat = 21 then ⟨.isADirectory, "Is a directory (os error 21)"⟩
    else ⟨.notADirectory, "Not a directory (os error 20)"⟩
  | .invalidArgument _ code _ =>
    if code.toNat = 36 then ⟨.invalidFilename, "File name too long (os error 36)"⟩
    else ⟨.invalidInput, "Invalid argument (os error 22)"⟩
  | e => ⟨.other, toString e⟩

/-- Runs an action of the host and catches its error. -/
def attempt {α : Type} (action : IO α) : IO (Except IoError α) := do
  try
    return .ok (← action)
  catch e => return .error (hostError e)

/-- Whether an action of the host ends without an error. -/
def succeeds {α : Type} (action : IO α) : IO Bool := do
  try
    discard action
    return true
  catch _ => return false

/-- The path of a directory itself, written so that it leads nowhere unless it is a directory. -/
def asDirectory (path : String) : String := HostPath.join path "."

/-- The names of what a directory holds, in order, given the paths of files. -/
def namesBelow (listing : List String) (directory : String) : List String :=
  let start := (HostPath.join directory "").toList
  let names := listing.filterMap fun path =>
    if start.isPrefixOf path.toList then
      some (String.ofList ((path.toList.drop start.length).takeWhile (· ≠ '/')))
    else none
  (DirectoryStore.sorted names).eraseReps

/-- The host's file system, given the paths of the files that directories are to show. -/
def fileSystem (listing : List String) : FileSystem IO where
  readFile path := attempt do return (← IO.FS.readBinFile path).toList
  writeFile path content := attempt (IO.FS.writeBinFile path content.toByteArray)
  makeDirectory path := attempt (IO.FS.createDir path)
  entries path := attempt do
    discard (IO.FS.realPath (asDirectory path))
    return namesBelow listing path
  isDirectory path := succeeds (IO.FS.realPath (asDirectory path))
  isFile path := do
    return (← succeeds (IO.FS.realPath path)) && !(← succeeds (IO.FS.realPath (asDirectory path)))

/-- The lines of a stream that are left to read. -/
partial def readLines (stream : IO.FS.Stream) : IO (List String) := do
  let line ← stream.getLine
  if line.isEmpty then return []
  return line.trimAsciiEnd.toString :: (← readLines stream)

/-- Whether a request is to search a directory. -/
def searches : CommandLine.Request → Bool
  | .invocation { command := .relocate .., .. } => true
  | _ => false

end JvmRelocation.HostProgram

open JvmRelocation in
/-- The program. -/
def main (arguments : List String) : IO UInt32 := do
  let listing ←
    if HostProgram.searches (CommandLine.parse arguments) then
      HostProgram.readLines (← IO.getStdin)
    else pure []
  let outcome ← CommandLine.runProgram (HostProgram.fileSystem listing) arguments
  (← IO.getStdout).putStr outcome.output
  (← IO.getStderr).putStr outcome.errors
  return UInt32.ofNat outcome.code
