import JvmRelocation.ClassFile.Basic
import JvmRelocation.Name.Role

/-!
# Where attributes mention texts

The body of a known attribute is cut into parts: indices of text entries, with what each is used
for, and plain bytes in between. The parts put together again are the body, so the place of an index
is the length of the parts before it. Attributes inside a `Code` or `Record` attribute are cut the
same way; the body of an unknown attribute is one plain part.
-/

namespace JvmRelocation

/-- What an attribute uses the index of a text for. -/
inductive IndexUse where
  /-- The text mentions classes, in the given role. -/
  | name (role : NameRole)
  /-- The text is the type of an annotation that the attribute applies directly. -/
  | annotationType
  /-- The text has to stay as it is. -/
  | pinned
deriving DecidableEq, Repr

/-- A part of an attribute's body. -/
inductive BodyPart where
  | plain (bytes : Bytes)
  | index (use : IndexUse) (value : UInt16)
deriving DecidableEq, Repr

/-- The bytes of a part. -/
def BodyPart.toBytes : BodyPart → Bytes
  | plain bytes => bytes
  | index _ value => BigEndian.bytes16 value

/-- A body, cut into parts. -/
abbrev Layout := List BodyPart

namespace Layout

/-- The bytes of a body. -/
def toBytes (l : Layout) : Bytes :=
  l.flatMap BodyPart.toBytes

/-- An index inside a body: where it stands, what it is and what it is used for. -/
structure Mention where
  offset : Nat
  index : UInt16
  use : IndexUse
deriving DecidableEq, Repr

/-- The indices in parts that start at `offset`, behind those already found, which `done` holds in
reverse. -/
def mentionsFrom (done : List Mention) (offset : Nat) : Layout → List Mention
  | [] => done.reverse
  | .plain bytes :: rest => mentionsFrom done (offset + bytes.length) rest
  | .index use value :: rest => mentionsFrom (⟨offset, value, use⟩ :: done) (offset + 2) rest

/-- The indices of a body, in order. -/
def mentions (l : Layout) : List Mention :=
  mentionsFrom [] 0 l

/-! ## Parts common to several attributes -/

open Decoder BigEndian

/-- Plain bytes. -/
def skip (n : Nat) : Decoder Layout := do
  return [.plain (← take n)]

/-- An index with its use. -/
def indexFor (use : IndexUse) : Decoder Layout := do
  return [.index use (← word16)]

/-- Items behind their number in 16 bits. -/
def counted (item : Decoder Layout) : Decoder Layout := do
  let count ← word16
  return .plain (bytes16 count) :: (← times count.toNat item).flatten

/-- Items behind their number in 8 bits. -/
def shortCounted (item : Decoder Layout) : Decoder Layout := do
  let count ← byte
  return .plain [count] :: (← times count.toNat item).flatten

/-- A block of `width` bytes an item, behind the number of items in 16 bits. -/
def table (width : Nat) : Decoder Layout := do
  let count ← word16
  return .plain (bytes16 count) :: (← skip (count.toNat * width))

/-- Several layouts, one after the other. -/
def sequence : List (Decoder Layout) → Decoder Layout
  | [] => pure []
  | [item] => item
  | item :: rest => do return (← item) ++ (← sequence rest)

/-! ## Annotations -/

/-- The index of a descriptor. -/
def descriptorIndex : Decoder Layout := indexFor (.name .descriptor)

/-- An annotation, given how the values of its elements are read. -/
def annotationWith (value : Decoder Layout) (typeUse : IndexUse) : Decoder Layout :=
  sequence [indexFor typeUse, counted (sequence [indexFor .pinned, value])]

/-- The value of an annotation element. The fuel bounds the nesting of annotations and arrays and is
never used up when it exceeds the length of the body. -/
def elementValue : Nat → Decoder Layout
  | 0 => throw (.unknownElementTag 0)
  | fuel + 1 => do
    let tag ← byte
    let rest ←
      match Char.ofNat tag.toNat with
      | 'B' | 'C' | 'D' | 'F' | 'I' | 'J' | 'S' | 'Z' => skip 2
      | 's' => indexFor .pinned
      | 'e' => sequence [descriptorIndex, indexFor .pinned]
      | 'c' => descriptorIndex
      | '@' => annotationWith (elementValue fuel) (.name .descriptor)
      | '[' => counted (elementValue fuel)
      | _ => throw (.unknownElementTag tag)
    return .plain [tag] :: rest

/-- An annotation. -/
def annotationItem (fuel : Nat) (typeUse : IndexUse) : Decoder Layout :=
  annotationWith (elementValue fuel) typeUse

/-- What stands between the code of an annotation's target and its path. -/
def targetInfo (code : UInt8) : Decoder Layout :=
  let n := code.toNat
  if n = 0x00 ∨ n = 0x01 ∨ n = 0x16 then skip 1
  else if n = 0x10 ∨ n = 0x11 ∨ n = 0x12 ∨ n = 0x17 ∨ (0x42 ≤ n ∧ n ≤ 0x46) then skip 2
  else if 0x13 ≤ n ∧ n ≤ 0x15 then pure []
  else if n = 0x40 ∨ n = 0x41 then table 6
  else if 0x47 ≤ n ∧ n ≤ 0x4B then skip 3
  else throw (.unknownTarget code)

/-- An annotation of a type, behind its target and the path into the type. -/
def typeAnnotationItem (fuel : Nat) : Decoder Layout := do
  let code ← byte
  let target ← targetInfo code
  let steps ← byte
  let path ← skip (steps.toNat * 2)
  let rest ← annotationItem fuel (.name .descriptor)
  return .plain [code] :: (target ++ .plain [steps] :: (path ++ rest))

end Layout

/-! ## Known attributes -/

/-- The attributes that mention texts at known places. -/
inductive AttributeKind where
  | code
  | signature
  /-- A table of local variables, whose types are in the given role. -/
  | localVariables (role : NameRole)
  | annotations
  | parameterAnnotations
  | typeAnnotations
  | annotationDefault
  | record
  | sourceFile
  | innerClasses
  | methodParameters
deriving DecidableEq, Repr

/-- The names of the two attributes that apply annotations directly. -/
def annotationAttributeNames : List String :=
  ["RuntimeVisibleAnnotations", "RuntimeInvisibleAnnotations"]

/-- The kind of the attribute with the given name, if it is known. -/
def AttributeKind.ofName? (name : String) : Option AttributeKind :=
  if annotationAttributeNames.contains name then some annotations
  else match name with
    | "Code" => some code
    | "Signature" => some signature
    | "LocalVariableTable" => some (localVariables .descriptor)
    | "LocalVariableTypeTable" => some (localVariables .signature)
    | "RuntimeVisibleParameterAnnotations" => some parameterAnnotations
    | "RuntimeInvisibleParameterAnnotations" => some parameterAnnotations
    | "RuntimeVisibleTypeAnnotations" => some typeAnnotations
    | "RuntimeInvisibleTypeAnnotations" => some typeAnnotations
    | "AnnotationDefault" => some annotationDefault
    | "Record" => some record
    | "SourceFile" => some sourceFile
    | "InnerClasses" => some innerClasses
    | "MethodParameters" => some methodParameters
    | _ => none

namespace Layout

open Decoder BigEndian

/-- Instructions, behind their length in 32 bits. -/
def instructions : Decoder Layout := do
  let length ← word32
  return .plain (bytes32 length) :: (← skip length.toNat)

/-- The body of an attribute of the given kind, given how the attributes inside it are read. -/
def bodyOf (fuel : Nat) (nested : Decoder Layout) : AttributeKind → Decoder Layout
  | .code => sequence [skip 4, instructions, table 8, counted nested]
  | .signature => indexFor (.name .signature)
  | .localVariables role =>
    counted (sequence [skip 4, indexFor .pinned, indexFor (.name role), skip 2])
  | .annotations => counted (annotationItem fuel .annotationType)
  | .parameterAnnotations => shortCounted (counted (annotationItem fuel (.name .descriptor)))
  | .typeAnnotations => counted (typeAnnotationItem fuel)
  | .annotationDefault => elementValue fuel
  | .record => counted (sequence [indexFor .pinned, descriptorIndex, counted nested])
  | .sourceFile => indexFor .pinned
  | .innerClasses => counted (sequence [skip 4, indexFor .pinned, skip 2])
  | .methodParameters => shortCounted (sequence [indexFor .pinned, skip 2])

/-- An attribute inside another one, given how a body is cut for the name of its attribute. A name
that is no text leaves the body as it is. -/
def nestedAttribute (pool : ConstantPool) (cut : String → Bytes → Except FormatError Layout) :
    Decoder Layout := do
  let nameIndex ← word16
  let length ← word32
  let body ← take length.toNat
  let parts ←
    match pool.text? nameIndex with
    | none => pure [.plain body]
    | some name =>
      match cut name body with
      | .ok parts => pure parts
      | .error e => throw (e.inAttribute name)
  return .index .pinned nameIndex :: .plain (bytes32 length) :: parts

/-- Cuts the whole body of the attribute with the given name. The fuel bounds the nesting of
attributes and annotations and is never used up when it exceeds the length of the body. -/
def cut (pool : ConstantPool) : Nat → String → Bytes → Except FormatError Layout
  | 0, _, body => .ok [.plain body]
  | fuel + 1, name, body =>
    match AttributeKind.ofName? name with
    | none => .ok [.plain body]
    | some kind => do
      let (parts, rest) ← (bodyOf (fuel + 1) (nestedAttribute pool (cut pool fuel)) kind).runOn body
      if !rest.isEmpty then throw (.attributeTrailing name rest.length)
      return parts

end Layout

/-- The body of an attribute with the given name, cut into parts. -/
def Attribute.layout (pool : ConstantPool) (name : String) (a : Attribute) :
    Except FormatError Layout :=
  Layout.cut pool (a.body.size + 1) name a.body.toList

/-- The indices of the types of the annotations that a body applies directly. What stands behind the
last annotation is not looked at. -/
def Attribute.annotationTypes (a : Attribute) : Except FormatError (List UInt16) := do
  let body := Layout.counted (Layout.annotationItem (a.body.size + 1) .annotationType)
  let (parts, _) ← body.runOn a.body.toList
  return (Layout.mentions parts).filterMap fun mention =>
    if mention.use = .annotationType then some mention.index else none

end JvmRelocation
