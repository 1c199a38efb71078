import JvmRelocation.ClassFile.Basic
import JvmRelocation.Name.Segments

/-!
# Reading class files

A class file is read front to back and must end with its last attribute. After that the indices in
its header are resolved: the name it declares must be usable as a path, and its superclass and
interfaces must be classes.
-/

namespace JvmRelocation

open Decoder

/-- A list of structures behind its length in 16 bits. -/
def Decoder.counted {α : Type} (item : Decoder α) : Decoder (List α) := do
  let count ← word16
  times count.toNat item

/-- Reads an attribute. -/
def Attribute.decode : Decoder Attribute := do
  let nameIndex ← word16
  let length ← word32
  return ⟨nameIndex, (← take length.toNat).toArray⟩

/-- Reads a field or method. -/
def Member.decode : Decoder Member := do
  let access ← word16
  let nameIndex ← word16
  let descriptorIndex ← word16
  return ⟨access, nameIndex, descriptorIndex, (← counted Attribute.decode).toArray⟩

/-- Refuses a stream that does not start with the signature of class files. -/
def ClassFile.decodeMagic : Decoder Unit := do
  let magic ← word32
  if magic ≠ classFileMagic then throw (.badMagic magic)

/-- Whether a major version is read. -/
def isSupportedVersion (major : UInt16) : Bool :=
  supportedVersions.1 ≤ major && major ≤ supportedVersions.2

/-- Reads the structure of a class file. -/
def ClassFile.decode : Decoder ClassFile := do
  decodeMagic
  let minorVersion ← word16
  let majorVersion ← word16
  if !isSupportedVersion majorVersion then throw (.unsupportedVersion majorVersion minorVersion)
  let pool ← ConstantPool.decode
  let access ← word16
  let thisClass ← word16
  let superClass ← word16
  let interfaces ← counted word16
  let fields ← counted Member.decode
  let methods ← counted Member.decode
  let attributes ← counted Attribute.decode
  return ⟨minorVersion, majorVersion, pool, access, thisClass, superClass, interfaces,
    fields.toArray, methods.toArray, attributes.toArray⟩

/-- The name that a class file declares, once its header is known to resolve. -/
def ClassFile.resolveHeader (c : ClassFile) : Except FormatError String := do
  let name ← c.pool.className c.thisClass
  if !isPathName name then throw (.badClassName name)
  if c.superClass ≠ 0 then discard (c.pool.className c.superClass)
  c.interfaces.forM fun i => discard (c.pool.className i)
  return name

/-- The class file with the given bytes. -/
def LoadedClass.parse (source : Bytes) : Except FormatError LoadedClass := do
  let (c, rest) ← ClassFile.decode.runOn source
  if !rest.isEmpty then throw (.trailingBytes rest.length)
  let name ← c.resolveHeader
  return { c with declaredName := name, source := source }

end JvmRelocation
