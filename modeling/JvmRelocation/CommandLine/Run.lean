import JvmRelocation.CommandLine.Output
import JvmRelocation.Config.File
import JvmRelocation.Host.FileSystem

/-!
# Running commands

A command works on a file system and gives its exit code and what it prints. Misuse ends with exit
code 2, a trouble with exit code 1.
-/

namespace JvmRelocation.CommandLine

/-- The outcome of the program. -/
structure Outcome where
  code : Nat
  output : String
  errors : String
deriving DecidableEq, Repr

variable {m : Type → Type} [Monad m]

/-- Carries out a program over stores as part of a command. -/
def carryOut {α : Type} (input output : ClassStore m) (doing : Option String)
    (p : StoreProgram α) : ExceptT Trouble m α := do
  match ← ExceptT.lift (p.run input output) with
  | .ok result => return result
  | .error e =>
    let trouble := Trouble.ofRelocation e
    throw (match doing with
      | some doing => trouble.during doing
      | none => trouble)

/-- The context in which an error of deriving the tag is told. -/
def tagContext : TagSource → Option String
  | .explicit _ => none
  | .fromContent => some derivingTag

/-- Relocates the classes of a directory, and writes the report to a file if there is one for it. -/
def relocateDirectory (fs : FileSystem m) (settings : Settings) (tagFromContent : Bool)
    (config report : Option String) : ExceptT Trouble m RelocationReport := do
  let fromFile ←
    match config with
    | some path => ExceptT.mk (Settings.load fs path)
    | none => pure Settings.empty
  let run ← MonadExcept.ofExcept ((fromFile.override settings).resolve tagFromContent)
  let input := DirectoryStore.access fs run.inputDirectory
  let output := DirectoryStore.access fs run.outputDirectory
  let tag ← carryOut input output (tagContext run.tagSource) run.tagSource.resolve
  let doing := "relocate " ++ run.inputDirectory ++ " into " ++ run.outputDirectory
  let outcome ← carryOut input output (some doing) (relocate tag run.marker)
  match report with
  | none => return outcome
  | some path =>
    match ← ExceptT.lift (fs.writeFile path outcome.toJson.pretty.toUTF8.toList) with
    | .ok () => return outcome
    | .error e => throw (.because ("write " ++ path) e.message)

/-- The class in a file and the classes it mentions. -/
def inspectContent (path : String) (content : Except IoError Bytes) :
    Except Trouble (LoadedClass × List String) :=
  match content with
  | .error e => .error (.because ("read " ++ path) e.message)
  | .ok bytes =>
    match LoadedClass.parse bytes with
    | .error e => .error (.because ("parse " ++ path) e.message)
    | .ok c =>
      match c.referencedNames with
      | .error e => .error (.because ("scan references in " ++ path) e.message)
      | .ok names => .ok (c, names.toList)

/-- What a command prints, or what trouble it has. -/
def execute (fs : FileSystem m) (i : Invocation) : m (Except Trouble String) := do
  match i.command with
  | .relocate settings tagFromContent config report =>
    match ← (relocateDirectory fs settings tagFromContent config report).run with
    | .ok r => return .ok (showRelocation i.json i.verbose r)
    | .error t => return .error t
  | .inspect path marker =>
    match inspectContent path (← fs.readFile path) with
    | .ok (c, references) =>
      return .ok (showInspection i.json (c.summary marker) references)
    | .error t => return .error t

/-- What the program calls itself. -/
def versionLine : String := "class-relocator 0.1.0"

/-- How the program is used. -/
def usage : String :=
  lines ["Relocate version-marked JVM classes", "",
    "Usage: class-relocator [OPTIONS] relocate [--input-dir <DIR>] [--output-dir <DIR>]",
    "         [--version-tag <TAG> | --tag-from-content] [--marker <DESCRIPTOR>]",
    "         [--config <FILE>] [--report <FILE>]",
    "       class-relocator [OPTIONS] inspect [--marker <DESCRIPTOR>] <CLASS_FILE>", "",
    "Options:", "  --json         Output as JSON instead of human-readable format",
    "  -v, --verbose  Verbose output (list every written class)",
    "  -h, --help     Print help", "  -V, --version  Print version"]

/-- Runs the program on a file system. -/
def runProgram (fs : FileSystem m) (arguments : List String) : m Outcome := do
  match parse arguments with
  | .misuse => return ⟨2, "", usage⟩
  | .help => return ⟨0, usage, ""⟩
  | .version => return ⟨0, lines [versionLine], ""⟩
  | .invocation i =>
    match ← execute fs i with
    | .ok text => return ⟨0, text, ""⟩
    | .error t => return ⟨1, "", showTrouble i.json t⟩

end JvmRelocation.CommandLine
