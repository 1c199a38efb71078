import JvmRelocation.ClassFile.Layout

/-!
# Annotation trees

An annotation has a type and elements, an element has a name and a value, and a value may be another
annotation or an array of values. A tree holds the indices only; which texts they denote is up to
the constant pool. Its bytes are the ones that a class file stores, and its mentions are the indices
of texts among them, each with its place and its use.
-/

namespace JvmRelocation

/-- A type whose values are stored as the index of a constant. -/
inductive ConstantKind where
  | byte
  | char
  | double
  | float
  | int
  | long
  | short
  | boolean
deriving DecidableEq, Repr

/-- The letter that stands for a type of constants. -/
def ConstantKind.letter : ConstantKind → Char
  | byte => 'B'
  | char => 'C'
  | double => 'D'
  | float => 'F'
  | int => 'I'
  | long => 'J'
  | short => 'S'
  | boolean => 'Z'

mutual

/-- The value of an annotation element. -/
inductive ElementValue where
  /-- A number, character or truth value. -/
  | constant (kind : ConstantKind) (index : UInt16)
  | string (text : UInt16)
  /-- A constant of an enumeration: the descriptor of the enumeration and the constant's name. -/
  | enumConstant (type name : UInt16)
  /-- A class, by its descriptor. -/
  | classLiteral (descriptor : UInt16)
  | nested (a : AnnotationTree)
  | array (values : List ElementValue)

/-- An annotation: the descriptor of its type, and its elements. -/
structure AnnotationTree where
  type : UInt16
  elements : List AnnotationElement

/-- An element of an annotation. -/
structure AnnotationElement where
  name : UInt16
  value : ElementValue

end

/-- The letter in front of a value. -/
def ElementValue.letter : ElementValue → Char
  | constant kind _ => kind.letter
  | string _ => 's'
  | enumConstant _ _ => 'e'
  | classLiteral _ => 'c'
  | nested _ => '@'
  | array _ => '['

open BigEndian

/-! ## Bytes

A value is stored as its letter and what stands behind it. Values and elements stand behind their
number in 16 bits.
-/

mutual

/-- What stands behind the letter of a value. -/
def ElementValue.content : ElementValue → Bytes
  | .constant _ index => bytes16 index
  | .string text => bytes16 text
  | .enumConstant type name => bytes16 type ++ bytes16 name
  | .classLiteral descriptor => bytes16 descriptor
  | .nested a => a.toBytes
  | .array values => bytes16 (UInt16.ofNat values.length) ++ ElementValue.listToBytes values

/-- The bytes of an annotation. -/
def AnnotationTree.toBytes : AnnotationTree → Bytes
  | ⟨type, elements⟩ =>
    bytes16 type ++ (bytes16 (UInt16.ofNat elements.length) ++
      AnnotationElement.listToBytes elements)

/-- The bytes of elements one after another. -/
def AnnotationElement.listToBytes : List AnnotationElement → Bytes
  | [] => []
  | ⟨name, value⟩ :: rest =>
    bytes16 name ++ (value.letter.toUInt8 :: value.content) ++ AnnotationElement.listToBytes rest

/-- The bytes of values one after another. -/
def ElementValue.listToBytes : List ElementValue → Bytes
  | [] => []
  | value :: rest => (value.letter.toUInt8 :: value.content) ++ ElementValue.listToBytes rest

end

/-- The bytes of a value. -/
def ElementValue.toBytes (v : ElementValue) : Bytes :=
  v.letter.toUInt8 :: v.content

/-- The bytes of an element. -/
def AnnotationElement.toBytes (e : AnnotationElement) : Bytes :=
  bytes16 e.name ++ e.value.toBytes

/-- The body of an attribute that applies annotations. -/
def AnnotationTree.bodyBytes (list : List AnnotationTree) : Bytes :=
  countedBytes AnnotationTree.toBytes list

mutual

/-- All numbers of elements and values inside a value fit into 16 bits. -/
def ElementValue.Fits : ElementValue → Prop
  | .constant _ _ | .string _ | .enumConstant _ _ | .classLiteral _ => True
  | .nested a => a.Fits
  | .array values => values.length < 65536 ∧ ElementValue.AllFit values

/-- All numbers of elements and values inside an annotation fit into 16 bits. -/
def AnnotationTree.Fits : AnnotationTree → Prop
  | ⟨_, elements⟩ => elements.length < 65536 ∧ AnnotationElement.AllFit elements

/-- The same for elements. -/
def AnnotationElement.AllFit : List AnnotationElement → Prop
  | [] => True
  | ⟨_, value⟩ :: rest => value.Fits ∧ AnnotationElement.AllFit rest

/-- The same for values. -/
def ElementValue.AllFit : List ElementValue → Prop
  | [] => True
  | value :: rest => value.Fits ∧ ElementValue.AllFit rest

end

/-- An attribute can apply the annotations: all numbers fit into 16 bits, their own included. -/
def AnnotationTree.BodyFits (list : List AnnotationTree) : Prop :=
  list.length < 65536 ∧ ∀ a ∈ list, a.Fits

/-! ## Mentions

A type, the type of an enumeration and a class literal are descriptors. The names of elements, the
names of enumeration constants and strings have to stay as they are.
-/

mutual

/-- The mentions of a value whose letter stands right before `offset`. -/
def ElementValue.mentions (offset : Nat) : ElementValue → List Layout.Mention
  | .constant _ _ => []
  | .string text => [⟨offset, text, .pinned⟩]
  | .enumConstant type name => [⟨offset, type, .name .descriptor⟩, ⟨offset + 2, name, .pinned⟩]
  | .classLiteral descriptor => [⟨offset, descriptor, .name .descriptor⟩]
  | .nested a => a.mentions (.name .descriptor) offset
  | .array values => ElementValue.listMentions (offset + 2) values

/-- The mentions of an annotation that starts at `offset`, given the use of its type. -/
def AnnotationTree.mentions (typeUse : IndexUse) (offset : Nat) : AnnotationTree → List Layout.Mention
  | ⟨type, elements⟩ =>
    ⟨offset, type, typeUse⟩ :: AnnotationElement.listMentions (offset + 4) elements

/-- The mentions of elements, the first of which starts at `offset`. -/
def AnnotationElement.listMentions (offset : Nat) : List AnnotationElement → List Layout.Mention
  | [] => []
  | ⟨name, value⟩ :: rest =>
    ⟨offset, name, .pinned⟩ :: value.mentions (offset + 3) ++
      AnnotationElement.listMentions (offset + 2 + value.toBytes.length) rest

/-- The mentions of values, the first of which starts at `offset`. -/
def ElementValue.listMentions (offset : Nat) : List ElementValue → List Layout.Mention
  | [] => []
  | value :: rest =>
    value.mentions (offset + 1) ++ ElementValue.listMentions (offset + value.toBytes.length) rest

end

/-- The mentions of annotations that an attribute applies directly, the first of which starts at
`offset`. -/
def AnnotationTree.listMentions (offset : Nat) : List AnnotationTree → List Layout.Mention
  | [] => []
  | a :: rest =>
    a.mentions .annotationType offset ++ AnnotationTree.listMentions (offset + a.toBytes.length) rest

/-- The mentions in the body of an attribute that applies annotations. -/
def AnnotationTree.bodyMentions (list : List AnnotationTree) : List Layout.Mention :=
  AnnotationTree.listMentions 2 list

end JvmRelocation
