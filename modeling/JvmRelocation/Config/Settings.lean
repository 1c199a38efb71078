import JvmRelocation.Relocation.Run

/-!
# Settings of a run

Directories, tag and marker come from a file and from the command line, which wins. Settings that
are complete and well formed are what a run is started with.
-/

namespace JvmRelocation

/-- Settings, each of which may be missing. -/
structure Settings where
  inputDirectory : Option String
  outputDirectory : Option String
  tag : Option String
  marker : Option String
deriving DecidableEq, Repr

/-- Where the version tag comes from. -/
inductive TagSource where
  | explicit (tag : String)
  /-- The content of the input classes. -/
  | fromContent
deriving DecidableEq, Repr

/-- Complete settings. -/
structure RunSettings where
  inputDirectory : String
  outputDirectory : String
  tagSource : TagSource
  marker : String
deriving DecidableEq, Repr

/-- What a command reports when it fails: what it was doing, then why, each reason behind the one it
caused. A relocation error among the reasons is kept as such. -/
structure Trouble where
  first : String
  reasons : List String
  relocation : Option RelocationError
deriving DecidableEq, Repr

namespace Trouble

/-- Trouble with nothing to say about its reasons. -/
def plain (first : String) : Trouble := ⟨first, [], none⟩

/-- Trouble while doing something, with one reason. -/
def because (doing reason : String) : Trouble := ⟨doing, [reason], none⟩

/-- A relocation error, with what lies behind it. -/
def ofRelocation (e : RelocationError) : Trouble := ⟨e.message, e.cause?.toList, some e⟩

/-- Trouble that was met while doing something. -/
def during (t : Trouble) (doing : String) : Trouble :=
  ⟨doing, t.first :: t.reasons, t.relocation⟩

/-- Everything there is to say, from what was being done down to the innermost reason. -/
def chain (t : Trouble) : List String := t.first :: t.reasons

end Trouble

namespace Settings

/-- Nothing is set. -/
def empty : Settings := ⟨none, none, none, none⟩

/-- Settings with others that win over them. -/
def override (s others : Settings) : Settings where
  inputDirectory := others.inputDirectory <|> s.inputDirectory
  outputDirectory := others.outputDirectory <|> s.outputDirectory
  tag := others.tag <|> s.tag
  marker := others.marker <|> s.marker

/-- A setting, or trouble if it is missing. -/
def require (setting : Option String) (trouble : String) : Except Trouble String :=
  match setting with
  | some value => .ok value
  | none => .error (.plain trouble)

/-- Refuses a parameter that has a fault. -/
def accept (checked : Except RelocationError Unit) : Except Trouble Unit :=
  match checked with
  | .ok () => .ok ()
  | .error e => .error (.ofRelocation e)

/-- The version tag's source. A tag that is set does not count when the tag comes from the
content. -/
def resolveTag (s : Settings) (tagFromContent : Bool) : Except Trouble TagSource := do
  if tagFromContent then return .fromContent
  let tag ← require s.tag
    "missing version tag (--version-tag, --tag-from-content or \"version_tag\")"
  accept (validateTag tag)
  return .explicit tag

/-- The complete settings. -/
def resolve (s : Settings) (tagFromContent : Bool) : Except Trouble RunSettings := do
  let input ← require s.inputDirectory "missing input directory (--input-dir or \"input_dir\")"
  let output ← require s.outputDirectory "missing output directory (--output-dir or \"output_dir\")"
  let tagSource ← s.resolveTag tagFromContent
  let marker := s.marker.getD defaultMarker
  accept (validateMarker marker)
  return ⟨input, output, tagSource, marker⟩

end Settings

/-- The version tag from its source. -/
def TagSource.resolve : TagSource → StoreProgram String
  | explicit tag => .done tag
  | fromContent => deriveTag

/-- What is being done while a tag is derived. -/
def derivingTag : String := "derive version tag from input classes"

end JvmRelocation
