import JvmRelocation.Digest.Sha256
import JvmRelocation.Relocation.Program
import JvmRelocation.Text.Printable

/-!
# Version tags and markers

A version tag becomes a package of its own in front of relocated names, so it has to be usable as
one segment of a name. A marker is the descriptor of an annotation type. Where no tag is given, one
is derived from the content of the input store: equal contents always relocate to the same names.
-/

namespace JvmRelocation

/-- Whether a character may not stand in a version tag. -/
def isForbiddenInTag (c : Char) : Bool :=
  ['/', '\\', '.', ';', '['].contains c || Text.isControl c

/-- What is wrong with a version tag, if anything is. -/
def tagFault? (tag : String) : Option ParameterFault :=
  if tag = "" then some .emptyTag
  else if tag = "." || tag = ".." then some (.relativeTag tag)
  else (tag.toList.find? isForbiddenInTag).map .forbiddenInTag

/-- The name inside the descriptor of an object type. -/
def objectTypeName? (descriptor : List Char) : Option (List Char) :=
  match descriptor with
  | 'L' :: rest => if rest.getLast? = some ';' then some rest.dropLast else none
  | _ => none

/-- Whether two slashes follow each other. -/
def hasEmptySegment : List Char → Bool
  | '/' :: '/' :: _ => true
  | _ :: rest => hasEmptySegment rest
  | [] => false

/-- What is wrong with a marker, if anything is. -/
def markerFault? (descriptor : String) : Option ParameterFault :=
  match objectTypeName? descriptor.toList with
  | none => some (.markerForm descriptor)
  | some name =>
    if name.isEmpty || name.head? = some '/' || name.getLast? = some '/' || hasEmptySegment name then
      some (.markerName descriptor)
    else if name.any fun c => ['.', ';', '[', '<', '>'].contains c then
      some (.forbiddenInMarker descriptor)
    else none

/-- Refuses a parameter that has a fault. -/
def refuseFault : Option ParameterFault → Except RelocationError Unit
  | some fault => .error (.invalidParameter fault)
  | none => .ok ()

/-- Refuses a version tag that is not usable as one segment of a name. -/
def validateTag (tag : String) : Except RelocationError Unit :=
  refuseFault (tagFault? tag)

/-- Refuses a marker that is not the descriptor of a class. -/
def validateMarker (descriptor : String) : Except RelocationError Unit :=
  refuseFault (markerFault? descriptor)

/-! ## Tags from content -/

/-- How many digits of the digest a derived tag keeps. -/
def derivedTagDigits : Nat := 16

/-- What a file adds to the stream that is digested: its path, a zero byte, the length of its
content in 64 bits, and the content. -/
def tagRecord (path : String) (bytes : Bytes) : Bytes :=
  path.toList.flatMap String.utf8EncodeChar ++
    0 :: (BigEndian.bytes64 (UInt64.ofNat bytes.length) ++ bytes)

/-- The stream that is digested for the given files. -/
def tagStream (files : List (String × Bytes)) : Bytes :=
  files.flatMap fun (path, bytes) => tagRecord path bytes

/-- The two digits of a byte in base sixteen, lower case. -/
def byteDigits (b : UInt8) : List Char :=
  [Nat.digitChar (b.toNat / 16), Nat.digitChar (b.toNat % 16)]

/-- The tag derived from a stream: `v` and the first digits of its digest. -/
def tagOfStream (stream : Bytes) : String :=
  String.ofList ('v' :: ((Sha256.digest stream).flatMap byteDigits).take derivedTagDigits)

/-- Reads the given paths of the input store behind those already read, which are held in reverse. -/
def readInputs (phase : Phase) (done : List (String × Bytes)) :
    List String → StoreProgram (List (String × Bytes))
  | [] => return done.reverse
  | path :: rest => do
    let bytes ← StoreProgram.readFrom phase .input path
    readInputs phase ((path, bytes) :: done) rest

/-- The tag derived from the class files of the input store. -/
def deriveTag : StoreProgram String := do
  let paths ← StoreProgram.listInput .discovery
  let files ← readInputs .discovery [] paths
  return tagOfStream (tagStream files)

end JvmRelocation
