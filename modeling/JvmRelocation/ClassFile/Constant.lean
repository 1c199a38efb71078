import JvmRelocation.Bytes.Decoder

/-!
# Constants

The entries of a constant pool, their bytes, and how they are read. A text entry keeps its bytes as
they are stored, so an entry that nobody touches is written back unchanged.
-/

namespace JvmRelocation

/-- A slot of a constant pool. -/
inductive Constant where
  /-- A text, as its stored bytes. -/
  | utf8 (bytes : Bytes)
  | integer (bits : UInt32)
  | float (bits : UInt32)
  | long (bits : UInt64)
  | double (bits : UInt64)
  | classInfo (name : UInt16)
  | stringLiteral (text : UInt16)
  | fieldRef (owner nameAndType : UInt16)
  | methodRef (owner nameAndType : UInt16)
  | interfaceMethodRef (owner nameAndType : UInt16)
  | nameAndType (name descriptor : UInt16)
  | methodHandle (kind : UInt8) (reference : UInt16)
  | methodType (descriptor : UInt16)
  | dynamic (bootstrap nameAndType : UInt16)
  | invokeDynamic (bootstrap nameAndType : UInt16)
  | moduleInfo (name : UInt16)
  | packageInfo (name : UInt16)
  /-- A slot that holds no entry: slot zero, and the second slot of a two-slot number. -/
  | unusable
deriving DecidableEq, Repr, Inhabited

namespace Constant

/-- Whether a constant takes two slots. -/
def isWide : Constant → Bool
  | long _ => true
  | double _ => true
  | _ => false

open BigEndian in
/-- The bytes of an entry. The length of a text is stored in 16 bits, whatever it is. -/
def toBytes : Constant → Bytes
  | utf8 bytes => 1 :: (bytes16 (UInt16.ofNat bytes.length) ++ bytes)
  | integer bits => 3 :: bytes32 bits
  | float bits => 4 :: bytes32 bits
  | long bits => 5 :: bytes64 bits
  | double bits => 6 :: bytes64 bits
  | classInfo name => 7 :: bytes16 name
  | stringLiteral text => 8 :: bytes16 text
  | fieldRef owner nat => 9 :: (bytes16 owner ++ bytes16 nat)
  | methodRef owner nat => 10 :: (bytes16 owner ++ bytes16 nat)
  | interfaceMethodRef owner nat => 11 :: (bytes16 owner ++ bytes16 nat)
  | nameAndType name descriptor => 12 :: (bytes16 name ++ bytes16 descriptor)
  | methodHandle kind reference => 15 :: kind :: bytes16 reference
  | methodType descriptor => 16 :: bytes16 descriptor
  | dynamic bootstrap nat => 17 :: (bytes16 bootstrap ++ bytes16 nat)
  | invokeDynamic bootstrap nat => 18 :: (bytes16 bootstrap ++ bytes16 nat)
  | moduleInfo name => 19 :: bytes16 name
  | packageInfo name => 20 :: bytes16 name
  | unusable => []

open Decoder in
/-- Reads the entry that goes into `slot`. -/
def decode (slot : UInt16) : Decoder Constant := do
  let tag ← byte
  match tag.toNat with
  | 1 =>
    let length ← word16
    return .utf8 (← take length.toNat)
  | 3 => return .integer (← word32)
  | 4 => return .float (← word32)
  | 5 => return .long (← word64)
  | 6 => return .double (← word64)
  | 7 => return .classInfo (← word16)
  | 8 => return .stringLiteral (← word16)
  | 9 => return .fieldRef (← word16) (← word16)
  | 10 => return .methodRef (← word16) (← word16)
  | 11 => return .interfaceMethodRef (← word16) (← word16)
  | 12 => return .nameAndType (← word16) (← word16)
  | 15 => return .methodHandle (← byte) (← word16)
  | 16 => return .methodType (← word16)
  | 17 => return .dynamic (← word16) (← word16)
  | 18 => return .invokeDynamic (← word16) (← word16)
  | 19 => return .moduleInfo (← word16)
  | 20 => return .packageInfo (← word16)
  | _ => throw (.unknownTag slot tag)

end Constant

end JvmRelocation
