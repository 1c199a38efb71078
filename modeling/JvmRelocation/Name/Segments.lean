/-!
# Segments of names and paths

Slashes separate the segments of an internal name and of a storage path. A name whose segments are
all proper directory or file names leads to a place below whatever directory it is looked up in.
-/

namespace JvmRelocation

/-- The segments of a name, which slashes separate. The current one is held in reverse. -/
def segmentsFrom (segment : List Char) : List Char → List (List Char)
  | [] => [segment.reverse]
  | c :: rest =>
    if c = '/' then segment.reverse :: segmentsFrom [] rest else segmentsFrom (c :: segment) rest

/-- The segments of a name or path, which slashes separate. -/
def segments (name : String) : List String :=
  (segmentsFrom [] name.toList).map String.ofList

/-- Whether a segment would change the directory it is looked up in, or name none. -/
def isRelativeSegment (segment : String) : Bool :=
  segment = "" || segment = "." || segment = ".."

/-- Whether a class name can be used as a path below any directory. -/
def isPathName (name : String) : Bool :=
  (segments name).all fun segment => !isRelativeSegment segment

end JvmRelocation
