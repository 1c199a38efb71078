import JvmRelocation.ClassFile.NameSite
import JvmRelocation.Text.Json

/-!
# Class summaries

The marker annotation of a class, and the header-level facts that a listing shows.
-/

namespace JvmRelocation

/-- Whether an attribute applies annotations directly and one of them has a type with exactly the
given bytes. An attribute that cannot be read applies none. -/
def Attribute.appliesAnnotation (pool : ConstantPool) (type : Bytes) (a : Attribute) : Bool :=
  match pool.utf8Bytes a.nameIndex with
  | .error _ => false
  | .ok name =>
    (annotationAttributeNames.map ModifiedUtf8.encode).contains name &&
      match a.annotationTypes with
      | .ok types => types.any fun index =>
        match pool.utf8Bytes index with
        | .ok bytes => bytes == type
        | .error _ => false
      | .error _ => false

/-- Whether a class carries the annotation with the given type descriptor. -/
def ClassFile.hasMarker (c : ClassFile) (marker : String) : Bool :=
  c.attributes.toList.any (Attribute.appliesAnnotation c.pool (ModifiedUtf8.encode marker))

/-- Header-level facts about a class. -/
structure ClassSummary where
  name : String
  superName : Option String
  interfaces : List String
  majorVersion : UInt16
  minorVersion : UInt16
  poolCount : Nat
  fieldCount : Nat
  methodCount : Nat
  hasMarker : Bool
deriving DecidableEq, Repr

/-- The summary of a class with regard to a marker annotation. -/
def LoadedClass.summary (c : LoadedClass) (marker : String) : ClassSummary where
  name := c.declaredName
  superName := c.superName
  interfaces := c.interfaceNames
  majorVersion := c.majorVersion
  minorVersion := c.minorVersion
  poolCount := c.pool.count
  fieldCount := c.fields.size
  methodCount := c.methods.size
  hasMarker := c.hasMarker marker

open Text in
/-- The members of a summary's JSON object. -/
def ClassSummary.members (s : ClassSummary) : List (String × Json) :=
  [("name", .string s.name),
    ("super_name", .ofText? s.superName),
    ("interfaces", .ofTexts s.interfaces),
    ("major_version", .number s.majorVersion.toNat),
    ("minor_version", .number s.minorVersion.toNat),
    ("constant_pool_count", .number s.poolCount),
    ("fields", .number s.fieldCount),
    ("methods", .number s.methodCount),
    ("has_marker", .bool s.hasMarker)]

end JvmRelocation
