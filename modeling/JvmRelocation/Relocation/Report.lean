import Std.Data.TreeSet
import JvmRelocation.Relocation.Table

/-!
# Reports

What each phase of a relocation did, and the outcome of all three.
-/

namespace JvmRelocation

open Text

/-- What a phase did. -/
structure PhaseReport where
  phase : Phase
  /-- How many classes were read. -/
  scanned : Nat
  /-- The paths that were written, in order. -/
  written : List String
  /-- How many classes gave no output. -/
  unchanged : Nat
deriving DecidableEq, Repr

/-- The outcome of a relocation. -/
structure RelocationReport where
  tag : String
  marker : String
  table : RelocationTable
  discovery : PhaseReport
  propagation : PhaseReport
  fixup : PhaseReport

/-- The JSON object of a phase's report. -/
def PhaseReport.toJson (r : PhaseReport) : Json :=
  .object [("phase", .string r.phase.name), ("scanned", .number r.scanned),
    ("written", .ofTexts r.written), ("unchanged", .number r.unchanged)]

namespace RelocationReport

/-- The reports of the phases, in order. -/
def phases (r : RelocationReport) : List PhaseReport :=
  [r.discovery, r.propagation, r.fixup]

/-- Every path that was written, in order. -/
def outputPaths (r : RelocationReport) : Std.TreeSet String :=
  Std.TreeSet.ofList (r.phases.flatMap (·.written))

/-- The JSON object of a report. -/
def toJson (r : RelocationReport) : Json :=
  .object [("version_tag", .string r.tag), ("marker_descriptor", .string r.marker),
    ("table", r.table.toJson), ("phases", .array (r.phases.map PhaseReport.toJson))]

end RelocationReport

end JvmRelocation
