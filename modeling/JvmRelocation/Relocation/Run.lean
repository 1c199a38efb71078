import JvmRelocation.ClassFile.Substitution
import JvmRelocation.ClassFile.Summary
import JvmRelocation.Relocation.Naming
import JvmRelocation.Relocation.Program
import JvmRelocation.Relocation.Report
import JvmRelocation.Relocation.Tag

/-!
# Relocating a store

Discovery reads every input class, gives the marked ones their new names and writes them with
nothing else changed. Propagation writes the unmarked classes that refer to a relocated one.
Fixup updates what the relocated classes say about each other. A phase writes everything it has to
before the next one starts.
-/

namespace JvmRelocation

open StoreProgram

/-- The annotation that marks a class for relocation unless another one is given. -/
def defaultMarker : String := "Lorg/eolang/Versionized;"

/-- The class at a path of a store. -/
def readClass (phase : Phase) (side : StoreSide) (path : String) : StoreProgram LoadedClass := do
  let bytes ← readFrom phase side path
  match LoadedClass.parse bytes with
  | .ok c => done c
  | .error e => fail (.malformed phase path e)

/-- A class at a path with its classes renamed. -/
def renameClass (phase : Phase) (path : String) (m : NameMapper) (c : LoadedClass) :
    StoreProgram Substitution :=
  match c.substitute m with
  | .ok s => done s
  | .error e => fail (.malformed phase path e)

/-! ## Discovery -/

/-- A class that is to be relocated. -/
structure MarkedClass where
  path : String
  file : LoadedClass
  relocated : String

/-- What is known of the input classes that have been read. -/
structure Survey where
  table : RelocationTable
  /-- Where each declared name was found. -/
  declared : Std.TreeMap String String
  /-- The marked classes, the latest first. -/
  marked : List MarkedClass
  scanned : Nat
  unchanged : Nat

namespace Survey

/-- Nothing has been read. -/
def empty : Survey := ⟨.empty, {}, [], 0, 0⟩

/-- Notes the class found at a path. No two classes may declare the same name. -/
def note (s : Survey) (tag marker path : String) (c : LoadedClass) :
    Except RelocationError Survey :=
  match s.declared.get? c.declaredName with
  | some first => .error (.duplicate c.declaredName first path)
  | none =>
    let s := { s with
      declared := s.declared.insert c.declaredName path
      scanned := s.scanned + 1 }
    if c.hasMarker marker then
      let relocated := relocatedName tag c.declaredName
      match s.table.insert c.declaredName relocated path with
      | .ok table => .ok { s with table, marked := ⟨path, c, relocated⟩ :: s.marked }
      | .error e => .error e
    else .ok { s with unchanged := s.unchanged + 1 }

/-- Refuses a survey in which some input class has the new name of a marked one. -/
def checkClashes (s : Survey) : List MarkedClass → Except RelocationError Unit
  | [] => .ok ()
  | c :: rest =>
    match s.declared.get? c.relocated with
    | some existing => .error (.duplicate c.relocated existing c.path)
    | none => s.checkClashes rest

end Survey

/-- Reads the classes at the given paths. -/
def surveyPaths (tag marker : String) (s : Survey) : List String → StoreProgram Survey
  | [] => return s
  | path :: rest => do
    let c ← readClass .discovery .input path
    let s ← ofExcept (s.note tag marker path c)
    surveyPaths tag marker s rest

/-- Writes marked classes under their new names, behind the paths already written, which are held in
reverse. -/
def writeMarked (written : List String) : List MarkedClass → StoreProgram (List String)
  | [] => return written.reverse
  | c :: rest => do
    let renamed ← renameClass .discovery c.path (.single c.file.declaredName c.relocated) c.file
    let target := classPath c.relocated
    writeTo .discovery target renamed.bytes
    writeMarked (target :: written) rest

/-- What discovery finds. -/
structure Discovery where
  table : RelocationTable
  report : PhaseReport

/-- Gives every marked class of the input store its new name. Only what a class says of itself is
renamed. -/
def discover (tag marker : String) : StoreProgram Discovery := do
  let paths ← listInput .discovery
  let s ← surveyPaths tag marker .empty paths
  let marked := s.marked.reverse
  ofExcept (s.checkClashes marked)
  let written ← writeMarked [] marked
  return ⟨s.table, ⟨.discovery, s.scanned, written, s.unchanged⟩⟩

/-! ## Propagation and fixup -/

/-- Renames the class at a path, and writes it back under that path of the output store if its bytes
changed. -/
def updateClass (m : NameMapper) (report : PhaseReport) (path : String) (c : LoadedClass) :
    StoreProgram PhaseReport := do
  let report := { report with scanned := report.scanned + 1 }
  let renamed ← renameClass report.phase path m c
  if renamed.changed then
    writeTo report.phase path renamed.bytes
    return { report with written := path :: report.written }
  else return { report with unchanged := report.unchanged + 1 }

/-- The report of a phase that has done nothing yet. -/
def PhaseReport.start (phase : Phase) : PhaseReport := ⟨phase, 0, [], 0⟩

/-- The report with the written paths, which were held in reverse, in order. -/
def PhaseReport.finish (r : PhaseReport) : PhaseReport :=
  { r with written := r.written.reverse }

/-- Updates the unmarked classes at the given paths of the input store. -/
def propagatePaths (table : RelocationTable) (report : PhaseReport) :
    List String → StoreProgram PhaseReport
  | [] => return report
  | path :: rest => do
    let c ← readClass report.phase .input path
    if table.contains c.declaredName then propagatePaths table report rest
    else
      let report ← updateClass table.mapper report path c
      propagatePaths table report rest

/-- Updates what unmarked classes say of relocated ones. -/
def propagate (table : RelocationTable) : StoreProgram PhaseReport := do
  let paths ← listInput .propagation
  return (← propagatePaths table (.start .propagation) paths).finish

/-- Updates the classes at the given paths of the output store. -/
def fixUpPaths (table : RelocationTable) (report : PhaseReport) :
    List String → StoreProgram PhaseReport
  | [] => return report
  | path :: rest => do
    let c ← readClass report.phase .output path
    let report ← updateClass table.mapper report path c
    fixUpPaths table report rest

/-- Updates what relocated classes say of each other. -/
def fixUp (table : RelocationTable) (paths : List String) : StoreProgram PhaseReport := do
  return (← fixUpPaths table (.start .fixup) paths).finish

/-! ## The three phases -/

/-- Refuses parameters of which one has a fault. The tag comes first. -/
def validateParameters (tag marker : String) : Except RelocationError Unit := do
  validateTag tag
  validateMarker marker

/-- Relocates the marked classes of the input store into the output store. -/
def relocate (tag marker : String) : StoreProgram RelocationReport := do
  ofExcept (validateParameters tag marker)
  let found ← discover tag marker
  let propagation ← propagate found.table
  let fixup ← fixUp found.table found.report.written
  return ⟨tag, marker, found.table, found.report, propagation, fixup⟩

end JvmRelocation
