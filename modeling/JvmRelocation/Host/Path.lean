import JvmRelocation.Name.Segments
import JvmRelocation.Text.Json

/-!
# Host paths

A host path is a text whose segments slashes separate; one that starts with a slash is absolute. An
empty segment, and a `.` segment anywhere but at the front of a relative path, says nothing.
-/

namespace JvmRelocation.HostPath

/-- Whether a path starts at the root of the file system. -/
def isAbsolute (path : String) : Bool :=
  path.toList.head? = some '/'

/-- A path below another one. An absolute path stays as it is, and an empty one leaves a slash behind
the path it is joined to. -/
def join (base path : String) : String :=
  if isAbsolute path then path
  else if base = "" || base.toList.getLast? = some '/' then base ++ path
  else base ++ "/" ++ path

/-- Whether a segment with its position says nothing. -/
def isVacuous (absolute : Bool) (segment : String × Nat) : Bool :=
  segment.1 = "" || (segment.1 = "." && (absolute || segment.2 ≠ 0))

/-- The path without its last segment that says something, if there is one. Segments in front of it
that say nothing go with it. -/
def parent? (path : String) : Option String :=
  let absolute := isAbsolute path
  let pieces := (segments path).drop (if absolute then 1 else 0)
  match pieces.zipIdx.reverse.dropWhile (isVacuous absolute) with
  | [] => none
  | _ :: front =>
    let kept := (front.dropWhile (isVacuous absolute)).reverse.map (·.1)
    some ((if absolute then "/" else "") ++ Text.Json.joined "/" kept)

end JvmRelocation.HostPath
