import JvmRelocation.CommandLine.Arguments
import JvmRelocation.Config.Settings

/-!
# What commands print

The outcome of a command as text for a terminal or as JSON.
-/

namespace JvmRelocation.CommandLine

open Text

/-- Lines, each with a line break behind it. -/
def lines (list : List String) : String :=
  String.join (list.map (· ++ "\n"))

/-- Text in bold. -/
def bold (text : String) : String := "\x1b[1m" ++ text ++ "\x1b[0m"

/-- Text in green. -/
def green (text : String) : String := "\x1b[32m" ++ text ++ "\x1b[0m"

/-- Text in cyan. -/
def cyan (text : String) : String := "\x1b[36m" ++ text ++ "\x1b[0m"

/-- Text in red. -/
def red (text : String) : String := "\x1b[31m" ++ text ++ "\x1b[0m"

/-- Lines set in by two spaces. -/
def setIn (list : List String) : List String :=
  list.map ("  " ++ ·)

/-- A heading and the lines below it, if there are any. -/
def block (heading : String) (list : List String) : List String :=
  if list.isEmpty then [] else ("\n" ++ bold heading) :: setIn list

/-! ## Relocations -/

/-- The old and new names of a table, one pair a line. -/
def tableLines (t : RelocationTable) : List String :=
  t.toList.map fun (old, relocated) => old ++ " -> " ++ relocated

/-- What a relocation did, in detail. -/
def detailLines (r : RelocationReport) : List String :=
  block "Relocation Table:" (tableLines r.table) ++
    r.phases.flatMap fun p => block ("Written in " ++ p.phase.name ++ ":") p.written

/-- The outcome of a relocation. -/
def showRelocation (json verbose : Bool) (r : RelocationReport) : String :=
  if json then lines [r.toJson.pretty]
  else lines <|
    [green "✓ Relocation complete" ++ " (tag " ++ cyan r.tag ++ ")",
      s!"  Relocated:  {r.table.size}",
      s!"  Propagated: {r.propagation.written.length}",
      s!"  Fixed up:   {r.fixup.written.length}"] ++
    if verbose then detailLines r else []

/-! ## Inspections -/

/-- Lines about a class. -/
def summaryLines (s : ClassSummary) : List String :=
  [bold s.name, s!"  version:    {s.majorVersion.toNat}.{s.minorVersion.toNat}"] ++
    (s.superName.map ("  extends:    " ++ ·)).toList ++
    (if s.interfaces.isEmpty then [] else ["  implements: " ++ Json.joined ", " s.interfaces]) ++
    [s!"  pool slots: {s.poolCount}", s!"  fields:     {s.fieldCount}",
      s!"  methods:    {s.methodCount}", "  marker:     " ++ (if s.hasMarker then "yes" else "no")]

/-- A class and the classes it mentions. -/
def showInspection (json : Bool) (s : ClassSummary) (references : List String) : String :=
  if json then
    lines [(Json.object (s.members ++ [("references", .ofTexts references)])).pretty]
  else lines (summaryLines s ++ block "Referenced Classes:" references)

/-! ## Troubles -/

/-- The phase that was in work. -/
def phaseOf (t : Trouble) : Option Phase := t.relocation.bind RelocationError.phase?

/-- The storage path that was in work. -/
def pathOf (t : Trouble) : Option String := t.relocation.bind RelocationError.path?

/-- The JSON object of a trouble. What there is nothing to say about is left out. -/
def troubleJson (t : Trouble) : Json :=
  .object ([("error", Json.string t.first)] ++
    ((phaseOf t).map fun p => ("phase", Json.string p.name)).toList ++
    ((pathOf t).map fun p => ("path", Json.string p)).toList ++
    if t.reasons.isEmpty then [] else [("causes", Json.ofTexts t.reasons)])

/-- The reasons of a trouble, numbered from one. -/
def reasonLines (t : Trouble) : List String :=
  if t.reasons.isEmpty then []
  else "Caused by:" :: t.reasons.zipIdx.map fun (reason, i) => s!"  {i + 1}: " ++ reason

/-- A trouble. -/
def showTrouble (json : Bool) (t : Trouble) : String :=
  if json then lines [(troubleJson t).pretty]
  else lines <|
    [red "Error:" ++ " " ++ t.first] ++
    ((phaseOf t).map fun p => s!"  phase: {p.number} ({p.name})").toList ++
    ((pathOf t).map ("  class: " ++ ·)).toList ++ reasonLines t ++ [""]

end JvmRelocation.CommandLine
