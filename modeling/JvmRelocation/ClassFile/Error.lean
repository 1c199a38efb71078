import JvmRelocation.Text.Quoted

/-!
# Why a class file is refused

Every way in which reading, scanning or renaming a class file can fail, as a cause, and the one
function `FormatError.message` that words it.
-/

namespace JvmRelocation

/-- What a constant pool index was expected to denote. -/
inductive Expectation where
  /-- A text entry, whatever its bytes are. -/
  | utf8
  /-- A text entry whose bytes decode. -/
  | wellFormedText
  /-- A class entry. -/
  | classEntry
  /-- A two-slot number that still has room for its second slot. -/
  | wideEntry
deriving DecidableEq, Repr

/-- The wording of an expectation inside an error message. -/
def Expectation.wording : Expectation → String
  | .utf8 => "CONSTANT_Utf8"
  | .wellFormedText => "well-formed modified UTF-8 string"
  | .classEntry => "CONSTANT_Class"
  | .wideEntry => "8-byte constant with room for its second slot"

/-- A structural problem of a class file. -/
inductive FormatError where
  /-- The stream does not start with the class file signature. -/
  | badMagic (found : UInt32)
  /-- The major version lies outside the supported range. -/
  | unsupportedVersion (major minor : UInt16)
  /-- A read asked for more bytes than the buffer still holds. -/
  | truncated (offset needed available : Nat)
  /-- A pool entry starts with a tag that no kind of constant has. -/
  | unknownTag (slot : UInt16) (tag : UInt8)
  /-- A pool index denotes nothing, or an entry of the wrong kind. -/
  | badIndex (index : UInt16) (expected : Expectation)
  /-- The body of a known attribute could not be read. -/
  | unreadableAttribute (name : String) (cause : FormatError)
  /-- The body of a known attribute goes on after its last field. -/
  | attributeTrailing (name : String) (count : Nat)
  /-- An annotation element starts with a tag that no kind of element has. -/
  | unknownElementTag (tag : UInt8)
  /-- A type annotation has a target that no kind of target has. -/
  | unknownTarget (code : UInt8)
  /-- The declared name has an empty, `.` or `..` segment. -/
  | badClassName (name : String)
  /-- The stream goes on after the last class attribute. -/
  | trailingBytes (count : Nat)
  /-- Appending new names would push the pool past 65535 slots. -/
  | poolOverflow
deriving DecidableEq, Repr

namespace FormatError

/-- The text shown for a cause. -/
def message : FormatError → String
  | badMagic found =>
    "bad magic number 0x" ++ Text.upperHex 8 found.toNat ++ " (expected 0xCAFEBABE)"
  | unsupportedVersion major minor =>
    s!"unsupported class file version {major.toNat}.{minor.toNat}"
  | truncated offset needed available =>
    s!"truncated class file: need {needed} bytes at offset {offset}, have {available}"
  | unknownTag slot tag => s!"constant pool entry #{slot.toNat} has unknown tag {tag.toNat}"
  | badIndex index expected =>
    s!"constant pool index #{index.toNat} is not a valid {expected.wording}"
  | unreadableAttribute name cause => s!"malformed {name} attribute: " ++ cause.message
  | attributeTrailing name count =>
    s!"malformed {name} attribute: {count} unexpected trailing bytes"
  | unknownElementTag tag =>
    "malformed annotation attribute: unknown element_value tag " ++
      Text.quoteChar (Char.ofNat tag.toNat)
  | unknownTarget code =>
    "malformed type_annotation attribute: unknown target_type 0x" ++ Text.upperHex 2 code.toNat
  | badClassName name => "invalid class name " ++ Text.quote name
  | trailingBytes count => s!"{count} unexpected bytes after the class structure"
  | poolOverflow => "constant pool would exceed 65535 entries"

/-- A failure met inside the attribute `name`: one that already names an attribute stays as it is,
any other one is reported as that attribute being unreadable. -/
def inAttribute (name : String) : FormatError → FormatError
  | e@(unreadableAttribute ..) => e
  | e@(attributeTrailing ..) => e
  | e@(unknownElementTag ..) => e
  | e@(unknownTarget ..) => e
  | e => unreadableAttribute name e

end FormatError

end JvmRelocation
