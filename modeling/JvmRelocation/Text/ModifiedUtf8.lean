import JvmRelocation.Bytes.BigEndian

/-!
# Modified UTF-8

The text encoding of constant pool entries. A text is first cut into UTF-16 code units, so a
character beyond U+FFFF becomes a pair of surrogates, and every unit then becomes a group of one,
two or three bytes. The unit zero takes the two-byte group `C0 80`: no encoded text holds a zero
byte, and no group has a first byte from `F0` up.

Reading takes any group of the right shape, shortest or not, and refuses units that are not the
UTF-16 form of a text.
-/

namespace JvmRelocation.ModifiedUtf8

/-! ## Code units of a text -/

/-- The UTF-16 code units of a character. -/
def unitsOf (c : Char) : List UInt16 :=
  let n := c.toNat
  if n < 0x10000 then [UInt16.ofNat n]
  else [UInt16.ofNat (0xD800 + (n - 0x10000) / 0x400), UInt16.ofNat (0xDC00 + (n - 0x10000) % 0x400)]

/-- The UTF-16 code units of a text. -/
def units (s : List Char) : List UInt16 :=
  s.flatMap unitsOf

/-- Reads code units as characters behind those already read, which `done` holds in reverse. An
unpaired surrogate is refused. -/
def charsFrom (done : List Char) : List UInt16 → Option (List Char)
  | [] => some done.reverse
  | u :: rest =>
    let n := u.toNat
    if n < 0xD800 ∨ 0xE000 ≤ n then charsFrom (Char.ofNat n :: done) rest
    else if n < 0xDC00 then
      match rest with
      | [] => none
      | v :: rest =>
        let m := v.toNat
        if 0xDC00 ≤ m ∧ m < 0xE000 then
          charsFrom (Char.ofNat (0x10000 + (n - 0xD800) * 0x400 + (m - 0xDC00)) :: done) rest
        else none
    else none

/-- The text whose UTF-16 form is the given units. -/
def chars? (us : List UInt16) : Option (List Char) :=
  charsFrom [] us

/-! ## Byte groups of a code unit -/

/-- The shortest group of a code unit, zero excepted, which takes two bytes. -/
def groupOf (u : UInt16) : Bytes :=
  let n := u.toNat
  if 1 ≤ n ∧ n < 0x80 then [UInt8.ofNat n]
  else if n < 0x800 then [UInt8.ofNat (0xC0 + n / 0x40), UInt8.ofNat (0x80 + n % 0x40)]
  else [UInt8.ofNat (0xE0 + n / 0x1000), UInt8.ofNat (0x80 + n / 0x40 % 0x40),
    UInt8.ofNat (0x80 + n % 0x40)]

/-- The six bits that a continuation byte `10xxxxxx` carries. -/
def continuation? (b : UInt8) : Option Nat :=
  if b.toNat / 0x40 = 2 then some (b.toNat % 0x40) else none

/-- The unit of a two-byte group whose first byte is `a`. -/
def unitOfTwo? (a b : UInt8) : Option UInt16 :=
  (continuation? b).map fun y => UInt16.ofNat (a.toNat % 0x20 * 0x40 + y)

/-- The unit of a three-byte group whose first byte is `a`. -/
def unitOfThree? (a b c : UInt8) : Option UInt16 :=
  match continuation? b, continuation? c with
  | some y, some z => some (UInt16.ofNat (a.toNat % 0x10 * 0x1000 + y * 0x40 + z))
  | _, _ => none

/-- Reads groups as code units behind those already read, which `done` holds in reverse. -/
def unitsFrom (done : List UInt16) : Bytes → Option (List UInt16)
  | [] => some done.reverse
  | a :: rest =>
    let n := a.toNat
    if 1 ≤ n ∧ n < 0x80 then unitsFrom (UInt16.ofNat n :: done) rest
    else if n / 0x20 = 6 then
      match rest with
      | b :: rest =>
        match unitOfTwo? a b with
        | some u => unitsFrom (u :: done) rest
        | none => none
      | [] => none
    else if n / 0x10 = 14 then
      match rest with
      | b :: c :: rest =>
        match unitOfThree? a b c with
        | some u => unitsFrom (u :: done) rest
        | none => none
      | _ => none
    else none

/-! ## The two directions -/

/-- The bytes of a text. -/
def encode (s : String) : Bytes :=
  (units s.toList).flatMap groupOf

/-- Reads bytes group by group. -/
def decodeGroups (bytes : Bytes) : Option String :=
  ((unitsFrom [] bytes).bind chars?).map String.ofList

/-- Whether every byte is a one-byte group. -/
def isPlain (bytes : Bytes) : Bool :=
  bytes.all fun b => 1 ≤ b.toNat && b.toNat < 0x80

/-- The text of the given bytes, if they encode one. Bytes that are all one-byte groups are their
own characters, so the groups need not be looked at. -/
def decode (bytes : Bytes) : Option String :=
  if isPlain bytes then some (String.ofList (bytes.map fun b => Char.ofNat b.toNat))
  else decodeGroups bytes

end JvmRelocation.ModifiedUtf8
