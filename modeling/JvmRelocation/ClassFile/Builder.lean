import Std.Data.TreeMap
import JvmRelocation.ClassFile.Basic
import JvmRelocation.ClassFile.Layout

/-!
# Building class files

A class under construction holds its members and the constants they need. Texts, classes and string
literals are interned: asking for one that is there gives the index it has. A builder's steps are
state transformers, so that several of them read as one program.
-/

namespace JvmRelocation

/-- A class under construction. -/
structure ClassBuilder where
  majorVersion : UInt16
  slots : Array Constant
  /-- The texts of the pool by their index. -/
  texts : Std.TreeMap String UInt16
  /-- The classes of the pool by their index. -/
  classes : Std.TreeMap String UInt16
  /-- The string literals of the pool by their index. -/
  literals : Std.TreeMap String UInt16
  thisClass : UInt16
  superClass : UInt16
  interfaces : List UInt16
  fields : List Member
  methods : List Member
  attributes : List Attribute
  /-- The annotations that stay visible at run time, as bytes. -/
  visible : List Bytes
  /-- The other annotations, as bytes. -/
  invisible : List Bytes

/-- A step of construction. -/
abbrev BuildStep := StateM ClassBuilder

namespace ClassBuilder

open BigEndian

/-- A builder that holds nothing. -/
def blank : ClassBuilder where
  majorVersion := 52
  slots := #[.unusable]
  texts := {}
  classes := {}
  literals := {}
  thisClass := 0
  superClass := 0
  interfaces := []
  fields := []
  methods := []
  attributes := []
  visible := []
  invisible := []

/-! ## Constants -/

/-- Appends a constant. -/
def push (constant : Constant) : BuildStep UInt16 := fun b =>
  (UInt16.ofNat b.slots.size, { b with slots := b.slots.push constant })

/-- The index of a text. -/
def text (value : String) : BuildStep UInt16 := do
  match (← get).texts.get? value with
  | some index => return index
  | none =>
    let index ← push (.utf8 (ModifiedUtf8.encode value))
    modify fun b => { b with texts := b.texts.insert value index }
    return index

/-- The index of a class. -/
def classRef (name : String) : BuildStep UInt16 := do
  match (← get).classes.get? name with
  | some index => return index
  | none =>
    let index ← push (.classInfo (← text name))
    modify fun b => { b with classes := b.classes.insert name index }
    return index

/-- The index of a string literal. -/
def literal (value : String) : BuildStep UInt16 := do
  match (← get).literals.get? value with
  | some index => return index
  | none =>
    let index ← push (.stringLiteral (← text value))
    modify fun b => { b with literals := b.literals.insert value index }
    return index

/-- The index of a method reference. -/
def methodRef (owner name descriptor : String) : BuildStep UInt16 := do
  let owner ← classRef owner
  let name ← text name
  let descriptor ← text descriptor
  let nameAndType ← push (.nameAndType name descriptor)
  push (.methodRef owner nameAndType)

/-! ## Header -/

/-- A builder for a class with the given name, below `java/lang/Object`. -/
def new (name : String) : ClassBuilder :=
  let steps : BuildStep Unit := do
    let thisClass ← classRef name
    let superClass ← classRef "java/lang/Object"
    modify fun b => { b with thisClass, superClass }
  (steps.run blank).2

/-- Sets the major version. -/
def setMajorVersion (major : UInt16) : BuildStep Unit :=
  modify fun b => { b with majorVersion := major }

/-- Sets the superclass. -/
def setSuperClass (name : String) : BuildStep Unit := do
  let index ← classRef name
  modify fun b => { b with superClass := index }

/-- Adds an interface. -/
def addInterface (name : String) : BuildStep Unit := do
  let index ← classRef name
  modify fun b => { b with interfaces := b.interfaces ++ [index] }

/-! ## Members -/

/-- The flag of public members and classes. -/
def publicFlag : UInt16 := 0x0001

/-- The flag of classes whose `invokespecial` is the current one. -/
def superFlag : UInt16 := 0x0020

/-- A public member with the given attributes. -/
def member (name descriptor : String) (attributes : BuildStep (List Attribute)) :
    BuildStep Member := do
  let name ← text name
  let descriptor ← text descriptor
  return ⟨publicFlag, name, descriptor, (← attributes).toArray⟩

/-- An attribute with the given name and body. -/
def namedAttribute (name : String) (body : BuildStep Bytes) : BuildStep Attribute := do
  let nameIndex ← text name
  return ⟨nameIndex, (← body).toArray⟩

/-- The two bytes of a text's index. -/
def textBytes (value : String) : BuildStep Bytes := do
  return bytes16 (← text value)

/-- A `Signature` attribute. -/
def signatureAttribute (signature : String) : BuildStep Attribute :=
  namedAttribute "Signature" (textBytes signature)

/-- The body of a `Code` attribute without exception handlers. -/
def codeBody (maxStack maxLocals : UInt16) (code : Bytes) (attributes : List Attribute) : Bytes :=
  bytes16 maxStack ++ bytes16 maxLocals ++ bytes32 (UInt32.ofNat code.length) ++ code ++
    bytes16 0 ++ countedBytes Attribute.toBytes attributes

/-- Adds a field with the given attributes. -/
def pushField (m : BuildStep Member) : BuildStep Unit := do
  let m ← m
  modify fun b => { b with fields := b.fields ++ [m] }

/-- Adds a method with the given attributes. -/
def pushMethod (m : BuildStep Member) : BuildStep Unit := do
  let m ← m
  modify fun b => { b with methods := b.methods ++ [m] }

/-- Adds a field without attributes. -/
def addField (name descriptor : String) : BuildStep Unit :=
  pushField (member name descriptor (pure []))

/-- Adds a field with a generic signature. -/
def addFieldWithSignature (name descriptor signature : String) : BuildStep Unit :=
  pushField (member name descriptor do return [← signatureAttribute signature])

/-- Adds a method without attributes. -/
def addMethod (name descriptor : String) : BuildStep Unit :=
  pushMethod (member name descriptor (pure []))

/-- Adds a method with the given instructions. -/
def addMethodWithCode (name descriptor : String) (maxStack maxLocals : UInt16) (code : Bytes) :
    BuildStep Unit :=
  pushMethod (member name descriptor do
    return [← namedAttribute "Code" (pure (codeBody maxStack maxLocals code []))])

/-- The entry of a local variable in the given slot. -/
def localVariable (v : (String × String) × Nat) : BuildStep Bytes := do
  let name ← text v.1.1
  let descriptor ← text v.1.2
  return bytes16 0 ++ bytes16 1 ++ bytes16 name ++ bytes16 descriptor ++
    bytes16 (UInt16.ofNat (v.2 + 1))

/-- A `LocalVariableTable` for variables with their names and descriptors. -/
def localVariableTable (locals : List (String × String)) : BuildStep Attribute := do
  let entries ← locals.zipIdx.mapM localVariable
  let nameIndex ← text "LocalVariableTable"
  return ⟨nameIndex, (bytes16 (UInt16.ofNat locals.length) ++ entries.flatten).toArray⟩

/-- Adds a method that returns at once and whose code tells its local variables. -/
def addMethodWithLocals (name descriptor : String) (locals : List (String × String)) :
    BuildStep Unit :=
  pushMethod (member name descriptor do
    let table ← localVariableTable locals
    let maxLocals := UInt16.ofNat (locals.length + 1)
    return [← namedAttribute "Code" (pure (codeBody 1 maxLocals [0xB1] [table]))])

/-! ## Class attributes -/

/-- Adds a class attribute. -/
def pushAttribute (a : BuildStep Attribute) : BuildStep Unit := do
  let a ← a
  modify fun b => { b with attributes := b.attributes ++ [a] }

/-- Adds a `SourceFile` attribute. -/
def addSourceFile (name : String) : BuildStep Unit :=
  pushAttribute (namedAttribute "SourceFile" (textBytes name))

/-- Adds the generic signature of the class. -/
def addClassSignature (signature : String) : BuildStep Unit :=
  pushAttribute (signatureAttribute signature)

/-- Adds a class attribute with any body. -/
def addRawAttribute (name : String) (body : Bytes) : BuildStep Unit :=
  pushAttribute (namedAttribute name (pure body))

/-- The name of the attribute that holds the annotations visible at run time. -/
def visibleName : String := "RuntimeVisibleAnnotations"

/-- The name of the attribute that holds the other annotations. -/
def invisibleName : String := "RuntimeInvisibleAnnotations"

/-- An annotation without elements. -/
def bareAnnotationBytes (descriptor : String) : BuildStep Bytes := do
  return (← textBytes descriptor) ++ bytes16 0

/-- Adds an annotation that stays visible at run time. -/
def addVisible (descriptor : String) : BuildStep Unit := do
  discard (text visibleName)
  let body ← bareAnnotationBytes descriptor
  modify fun b => { b with visible := b.visible ++ [body] }

/-- Adds an annotation that is not visible at run time. -/
def addInvisible (descriptor : String) : BuildStep Unit := do
  discard (text invisibleName)
  let body ← bareAnnotationBytes descriptor
  modify fun b => { b with invisible := b.invisible ++ [body] }

/-- Adds a visible annotation with a single element, an enum constant. -/
def addAnnotationWithEnum (descriptor element enumDescriptor constant : String) :
    BuildStep Unit := do
  discard (text visibleName)
  let type ← textBytes descriptor
  let name ← textBytes element
  let enumType ← textBytes enumDescriptor
  let value ← textBytes constant
  let body := type ++ bytes16 1 ++ name ++ [UInt8.ofNat 'e'.toNat] ++ enumType ++ value
  modify fun b => { b with visible := b.visible ++ [body] }

/-! ## The finished class -/

/-- The attribute that holds the given annotations, if there are any. -/
def annotationAttribute (b : ClassBuilder) (name : String) (bodies : List Bytes) :
    List Attribute :=
  match bodies, b.texts.get? name with
  | [], _ => []
  | _, none => []
  | bodies, some nameIndex =>
    [⟨nameIndex, (bytes16 (UInt16.ofNat bodies.length) ++ bodies.flatten).toArray⟩]

/-- The class file of a builder. Annotations come behind the other attributes. -/
def finish (b : ClassBuilder) : ClassFile where
  minorVersion := 0
  majorVersion := b.majorVersion
  pool := ⟨b.slots⟩
  access := publicFlag ||| superFlag
  thisClass := b.thisClass
  superClass := b.superClass
  interfaces := b.interfaces
  fields := b.fields.toArray
  methods := b.methods.toArray
  attributes := (b.attributes ++ b.annotationAttribute visibleName b.visible ++
    b.annotationAttribute invisibleName b.invisible).toArray

/-- The bytes of the class. -/
def build (b : ClassBuilder) : Bytes :=
  b.finish.toBytes

end ClassBuilder

end JvmRelocation
