/-!
# Big-endian words

Class files and the content tag store every number with its most significant byte first. A word
and its bytes determine each other, at every width.
-/

namespace JvmRelocation

/-- A byte stream, as it is read from or written to a file. -/
abbrev Bytes := List UInt8

namespace BigEndian

/-- The two bytes of a 16-bit word. -/
def bytes16 (v : UInt16) : Bytes :=
  [UInt8.ofNat (v.toNat / 256), UInt8.ofNat v.toNat]

/-- The four bytes of a 32-bit word. -/
def bytes32 (v : UInt32) : Bytes :=
  [UInt8.ofNat (v.toNat / 16777216), UInt8.ofNat (v.toNat / 65536),
    UInt8.ofNat (v.toNat / 256), UInt8.ofNat v.toNat]

/-- The eight bytes of a 64-bit word: its upper half, then its lower half. -/
def bytes64 (v : UInt64) : Bytes :=
  bytes32 (UInt32.ofNat (v.toNat / 4294967296)) ++ bytes32 (UInt32.ofNat v.toNat)

/-- The 16-bit word with the given bytes. -/
def word16 (a b : UInt8) : UInt16 :=
  UInt16.ofNat (a.toNat * 256 + b.toNat)

/-- The 32-bit word with the given bytes. -/
def word32 (a b c d : UInt8) : UInt32 :=
  UInt32.ofNat (((a.toNat * 256 + b.toNat) * 256 + c.toNat) * 256 + d.toNat)

/-- The 64-bit word with the given halves. -/
def word64 (high low : UInt32) : UInt64 :=
  UInt64.ofNat (high.toNat * 4294967296 + low.toNat)

/-! ## A word and its bytes determine each other -/

@[simp] theorem word16_bytes16 (v : UInt16) :
    word16 (UInt8.ofNat (v.toNat / 256)) (UInt8.ofNat v.toNat) = v := by
  have h := v.toNat_lt
  apply UInt16.toNat_inj.mp
  simp only [word16, UInt16.toNat_ofNat', UInt8.toNat_ofNat']
  omega

@[simp] theorem bytes16_word16 (a b : UInt8) : bytes16 (word16 a b) = [a, b] := by
  have ha := a.toNat_lt
  have hb := b.toNat_lt
  have hw : (word16 a b).toNat = a.toNat * 256 + b.toNat := by
    simp only [word16, UInt16.toNat_ofNat']
    omega
  simp only [bytes16, hw, List.cons.injEq, and_true]
  constructor <;> apply UInt8.toNat_inj.mp <;> simp only [UInt8.toNat_ofNat'] <;> omega

theorem word32_bytes32 (v : UInt32) :
    word32 (UInt8.ofNat (v.toNat / 16777216)) (UInt8.ofNat (v.toNat / 65536))
      (UInt8.ofNat (v.toNat / 256)) (UInt8.ofNat v.toNat) = v := by
  have h := v.toNat_lt
  apply UInt32.toNat_inj.mp
  simp only [word32, UInt32.toNat_ofNat', UInt8.toNat_ofNat']
  omega

@[simp] theorem bytes32_word32 (a b c d : UInt8) : bytes32 (word32 a b c d) = [a, b, c, d] := by
  have ha := a.toNat_lt
  have hb := b.toNat_lt
  have hc := c.toNat_lt
  have hd := d.toNat_lt
  have hw : (word32 a b c d).toNat =
      ((a.toNat * 256 + b.toNat) * 256 + c.toNat) * 256 + d.toNat := by
    simp only [word32, UInt32.toNat_ofNat']
    omega
  simp only [bytes32, hw, List.cons.injEq, and_true]
  refine ⟨?_, ?_, ?_, ?_⟩ <;> apply UInt8.toNat_inj.mp <;> simp only [UInt8.toNat_ofNat'] <;> omega

theorem word64_halves (v : UInt64) :
    word64 (UInt32.ofNat (v.toNat / 4294967296)) (UInt32.ofNat v.toNat) = v := by
  have h := v.toNat_lt
  apply UInt64.toNat_inj.mp
  simp only [word64, UInt64.toNat_ofNat', UInt32.toNat_ofNat']
  omega

theorem bytes64_word64 (high low : UInt32) :
    bytes64 (word64 high low) = bytes32 high ++ bytes32 low := by
  have hh := high.toNat_lt
  have hl := low.toNat_lt
  have hw : (word64 high low).toNat = high.toNat * 4294967296 + low.toNat := by
    simp only [word64, UInt64.toNat_ofNat']
    omega
  have hhigh : UInt32.ofNat ((word64 high low).toNat / 4294967296) = high := by
    apply UInt32.toNat_inj.mp
    simp only [hw, UInt32.toNat_ofNat']
    omega
  have hlow : UInt32.ofNat (word64 high low).toNat = low := by
    apply UInt32.toNat_inj.mp
    simp only [hw, UInt32.toNat_ofNat']
    omega
  rw [bytes64, hhigh, hlow]

@[simp] theorem length_bytes16 (v : UInt16) : (bytes16 v).length = 2 := rfl

@[simp] theorem length_bytes32 (v : UInt32) : (bytes32 v).length = 4 := rfl

@[simp] theorem length_bytes64 (v : UInt64) : (bytes64 v).length = 8 := rfl

end BigEndian

end JvmRelocation
