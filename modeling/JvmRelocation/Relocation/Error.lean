import JvmRelocation.ClassFile.Error
import JvmRelocation.Store.Basic
import JvmRelocation.Text.Quoted

/-!
# Phases, and why a relocation fails

A relocation has three phases. What fails inside one of them is reported with the phase and the
storage path of the class in work; nothing that has been written before is taken back.
-/

namespace JvmRelocation

/-- The phases of a relocation, in order. -/
inductive Phase where
  /-- Marked classes are found and renamed. -/
  | discovery
  /-- References held by unmarked classes are updated. -/
  | propagation
  /-- References between relocated classes are updated. -/
  | fixup
deriving DecidableEq, Repr

namespace Phase

/-- Every phase, in order. -/
def all : List Phase := [discovery, propagation, fixup]

/-- The name of a phase. -/
def name : Phase → String
  | discovery => "discovery"
  | propagation => "propagation"
  | fixup => "fixup"

/-- The position of a phase, counted from one. -/
def number : Phase → Nat
  | discovery => 1
  | propagation => 2
  | fixup => 3

/-- The phase with the given name. -/
def ofName? (text : String) : Option Phase :=
  all.find? (·.name = text)

end Phase

/-- What is wrong with a parameter of a relocation. -/
inductive ParameterFault where
  | emptyTag
  /-- The tag is `.` or `..`. -/
  | relativeTag (tag : String)
  | forbiddenInTag (c : Char)
  /-- The marker is not of the form of an object type's descriptor. -/
  | markerForm (descriptor : String)
  /-- The marker's name has an empty segment. -/
  | markerName (descriptor : String)
  | forbiddenInMarker (descriptor : String)
deriving DecidableEq, Repr

namespace ParameterFault

/-- The parameter that a fault is about. -/
def parameter : ParameterFault → String
  | emptyTag => "version_tag"
  | relativeTag _ => "version_tag"
  | forbiddenInTag _ => "version_tag"
  | markerForm _ => "marker_descriptor"
  | markerName _ => "marker_descriptor"
  | forbiddenInMarker _ => "marker_descriptor"

/-- What is wrong, in words. -/
def reason : ParameterFault → String
  | emptyTag => "must not be empty"
  | relativeTag tag => Text.quote tag ++ " is not a usable path segment"
  | forbiddenInTag c => Text.quoteChar c ++ " is not allowed in a version tag"
  | markerForm d => Text.quote d ++ " must have the form L<internal name>;"
  | markerName d => Text.quote d ++ " does not hold a valid internal name"
  | forbiddenInMarker d =>
    Text.quote d ++ " contains characters not allowed in an internal name"

end ParameterFault

/-- Why a relocation fails. -/
inductive RelocationError where
  /-- A class file could not be read or renamed. -/
  | malformed (phase : Phase) (path : String) (cause : FormatError)
  /-- Listing, reading or writing a store failed. -/
  | storage (phase : Phase) (path : String) (cause : IoError)
  /-- Two classes would have the same name. -/
  | duplicate (name first second : String)
  /-- A parameter is refused before anything is read. -/
  | invalidParameter (fault : ParameterFault)
deriving DecidableEq, Repr

namespace RelocationError

/-- The phase that failed, if one did. -/
def phase? : RelocationError → Option Phase
  | malformed phase _ _ => some phase
  | storage phase _ _ => some phase
  | duplicate .. => none
  | invalidParameter _ => none

/-- The storage path in work, if there was one. -/
def path? : RelocationError → Option String
  | malformed _ path _ => some path
  | storage _ path _ => some path
  | duplicate .. => none
  | invalidParameter _ => none

/-- The text of the error behind this one, if there is one. -/
def cause? : RelocationError → Option String
  | malformed _ _ cause => some cause.message
  | storage _ _ cause => some cause.message
  | duplicate .. => none
  | invalidParameter _ => none

/-- The text shown for an error. -/
def message : RelocationError → String
  | malformed phase path cause =>
    s!"[{phase.name}] malformed class file {path}: " ++ cause.message
  | storage phase path cause => s!"[{phase.name}] storage error at {path}: " ++ cause.message
  | duplicate name first second =>
    s!"duplicate class {name}: already registered by {first}, again by {second}"
  | invalidParameter fault => s!"invalid {fault.parameter}: " ++ fault.reason

end RelocationError

end JvmRelocation
