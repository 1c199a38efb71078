import JvmRelocation.ClassFile.ConstantPool

/-!
# Class files

The structure of a class file down to its attributes, whose bodies stay bytes, and its bytes.
-/

namespace JvmRelocation

/-- An attribute, whose body is kept as it is stored. -/
structure Attribute where
  nameIndex : UInt16
  body : Array UInt8
deriving DecidableEq, Repr

/-- A field or method. -/
structure Member where
  access : UInt16
  nameIndex : UInt16
  descriptorIndex : UInt16
  attributes : Array Attribute
deriving DecidableEq, Repr

/-- A class file. -/
structure ClassFile where
  minorVersion : UInt16
  majorVersion : UInt16
  pool : ConstantPool
  access : UInt16
  thisClass : UInt16
  superClass : UInt16
  interfaces : List UInt16
  fields : Array Member
  methods : Array Member
  attributes : Array Attribute
deriving DecidableEq, Repr

/-- A class file as it was read: its structure then, the name it declares, and its bytes. The
structure may be edited; the name and the bytes stay those that were read. -/
structure LoadedClass extends ClassFile where
  declaredName : String
  source : Bytes
deriving DecidableEq, Repr

open BigEndian

/-- The signature that every class file starts with. -/
def classFileMagic : UInt32 := 0xCAFEBABE

/-- The oldest and the newest major version that are read. -/
def supportedVersions : UInt16 × UInt16 := (45, 71)

/-! ## Bytes -/

/-- A list of structures behind its length in 16 bits. -/
def countedBytes {α : Type} (item : α → Bytes) (items : List α) : Bytes :=
  bytes16 (UInt16.ofNat items.length) ++ items.flatMap item

/-- The bytes of an attribute: the index of its name, the length of its body in 32 bits, and the
body. -/
def Attribute.toBytes (a : Attribute) : Bytes :=
  bytes16 a.nameIndex ++ bytes32 (UInt32.ofNat a.body.size) ++ a.body.toList

/-- The bytes of a member. -/
def Member.toBytes (m : Member) : Bytes :=
  bytes16 m.access ++ bytes16 m.nameIndex ++ bytes16 m.descriptorIndex ++
    countedBytes Attribute.toBytes m.attributes.toList

/-- The bytes of a class file. -/
def ClassFile.toBytes (c : ClassFile) : Bytes :=
  bytes32 classFileMagic ++ bytes16 c.minorVersion ++ bytes16 c.majorVersion ++ c.pool.toBytes ++
    bytes16 c.access ++ bytes16 c.thisClass ++ bytes16 c.superClass ++
    countedBytes bytes16 c.interfaces ++ countedBytes Member.toBytes c.fields.toList ++
    countedBytes Member.toBytes c.methods.toList ++
    countedBytes Attribute.toBytes c.attributes.toList

/-! ## Names of a class -/

/-- The name of the superclass, where there is one. -/
def ClassFile.superName (c : ClassFile) : Option String :=
  if c.superClass = 0 then none else (c.pool.className c.superClass).toOption

/-- The names of the interfaces, as far as their indices resolve. -/
def ClassFile.interfaceNames (c : ClassFile) : List String :=
  c.interfaces.filterMap fun i => (c.pool.className i).toOption

/-- The name of an attribute, where its index denotes a text. -/
def ClassFile.attributeName (c : ClassFile) (a : Attribute) : Option String :=
  c.pool.text? a.nameIndex

end JvmRelocation
