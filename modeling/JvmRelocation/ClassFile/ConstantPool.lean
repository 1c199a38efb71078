import JvmRelocation.ClassFile.Constant
import JvmRelocation.Text.ModifiedUtf8

/-!
# Constant pools

A constant pool is an array of slots whose positions are the indices of the format. Slot zero holds
no entry, and a two-slot number is followed by a slot that holds none, so no index ever has to be
shifted.
-/

namespace JvmRelocation

/-- The constant pool of a class. -/
structure ConstantPool where
  slots : Array Constant
deriving DecidableEq, Repr

namespace ConstantPool

/-- The number of slots, slot zero included. -/
def count (pool : ConstantPool) : Nat :=
  pool.slots.size

/-- What the slot with the given index holds. -/
def get? (pool : ConstantPool) (index : UInt16) : Option Constant :=
  pool.slots[index.toNat]?

/-- The slots with their indices, in order. -/
def toList (pool : ConstantPool) : List (UInt16 × Constant) :=
  pool.slots.toList.zipIdx.map fun (constant, i) => (UInt16.ofNat i, constant)

/-- The bytes of the text entry with the given index. -/
def utf8Bytes (pool : ConstantPool) (index : UInt16) : Except FormatError Bytes :=
  match pool.get? index with
  | some (.utf8 bytes) => .ok bytes
  | _ => .error (.badIndex index .utf8)

/-- The text of the text entry with the given index. -/
def text (pool : ConstantPool) (index : UInt16) : Except FormatError String :=
  match pool.utf8Bytes index with
  | .ok bytes =>
    match ModifiedUtf8.decode bytes with
    | some s => .ok s
    | none => .error (.badIndex index .wellFormedText)
  | .error e => .error e

/-- The text with the given index, where there is one. -/
def text? (pool : ConstantPool) (index : UInt16) : Option String :=
  (pool.text index).toOption

/-- The name behind the class entry with the given index. -/
def className (pool : ConstantPool) (index : UInt16) : Except FormatError String :=
  match pool.get? index with
  | some (.classInfo name) => pool.text name
  | _ => .error (.badIndex index .classEntry)

/-- The pool with another constant in the slot with the given index, if there is such a slot. -/
def set (pool : ConstantPool) (index : UInt16) (constant : Constant) : ConstantPool :=
  ⟨pool.slots.setIfInBounds index.toNat constant⟩

/-- The most slots a pool can have. -/
def maxCount : Nat := 65535

/-- The pool with a text entry appended, and the index of that entry. -/
def push (pool : ConstantPool) (bytes : Bytes) : Except FormatError (UInt16 × ConstantPool) :=
  if maxCount ≤ pool.count then .error .poolOverflow
  else .ok (UInt16.ofNat pool.count, ⟨pool.slots.push (.utf8 bytes)⟩)

/-! ## Bytes -/

/-- The bytes of a pool: the number of slots, and the entries. -/
def toBytes (pool : ConstantPool) : Bytes :=
  BigEndian.bytes16 (UInt16.ofNat pool.count) ++ (pool.slots.toList.drop 1).flatMap Constant.toBytes

/-- Reads entries into the slots from `index` on, below `count`. The fuel is an upper bound for the
number of entries still to be read. -/
def decodeSlots (count : UInt16) : Nat → UInt16 → Array Constant → Decoder (Array Constant)
  | 0, _, slots => pure slots
  | fuel + 1, index, slots =>
    if index < count then do
      let constant ← Constant.decode index
      if constant.isWide then
        if index + 1 < count then
          decodeSlots count fuel (index + 2) ((slots.push constant).push .unusable)
        else throw (.badIndex index .wideEntry)
      else decodeSlots count fuel (index + 1) (slots.push constant)
    else pure slots

/-- Reads a pool. -/
def decode : Decoder ConstantPool := do
  let count ← Decoder.word16
  return ⟨← decodeSlots count count.toNat 1 #[.unusable]⟩

end ConstantPool

end JvmRelocation
