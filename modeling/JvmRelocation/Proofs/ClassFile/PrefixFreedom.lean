import JvmRelocation.Proofs.Bytes.ReadPrograms
import JvmRelocation.Proofs.ClassFile.RoundTrip

/-!
# No class file is the front of another

Reading a class file is a program of reads. So a proper front of a class file is reported as
truncated, whatever else is wrong with it, and bytes behind a class file are reported as such.
-/

namespace JvmRelocation

open Decoder ClassFile

/-! ## The program that reads a class file -/

theorem Constant.isProgram_decode (slot : UInt16) : IsProgram (Constant.decode slot) := by
  have hpair (f : UInt16 → UInt16 → Constant) :=
    IsProgram.word16.map₂ IsProgram.word16 f
  refine IsProgram.byte.bind fun tag => ?_
  split
  case h_1 => exact IsProgram.word16.bind fun length => (IsProgram.take _).map Constant.utf8
  case h_2 => exact IsProgram.word32.map Constant.integer
  case h_3 => exact IsProgram.word32.map Constant.float
  case h_4 => exact IsProgram.word64.map Constant.long
  case h_5 => exact IsProgram.word64.map Constant.double
  case h_6 => exact IsProgram.word16.map Constant.classInfo
  case h_7 => exact IsProgram.word16.map Constant.stringLiteral
  case h_8 => exact hpair Constant.fieldRef
  case h_9 => exact hpair Constant.methodRef
  case h_10 => exact hpair Constant.interfaceMethodRef
  case h_11 => exact hpair Constant.nameAndType
  case h_12 => exact IsProgram.byte.map₂ IsProgram.word16 Constant.methodHandle
  case h_13 => exact IsProgram.word16.map Constant.methodType
  case h_14 => exact hpair Constant.dynamic
  case h_15 => exact hpair Constant.invokeDynamic
  case h_16 => exact IsProgram.word16.map Constant.moduleInfo
  case h_17 => exact IsProgram.word16.map Constant.packageInfo
  case h_18 => exact IsProgram.throw _

theorem ConstantPool.isProgram_decodeSlots (count : UInt16) (fuel : Nat) (index : UInt16)
    (slots : Array Constant) : IsProgram (decodeSlots count fuel index slots) := by
  induction fuel generalizing index slots with
  | zero => exact IsProgram.pure slots
  | succ fuel ih =>
    rw [decodeSlots]
    split
    case isTrue =>
      refine (Constant.isProgram_decode index).bind fun constant => ?_
      split
      case isTrue =>
        split
        · exact ih _ _
        · exact IsProgram.throw _
      case isFalse => exact ih _ _
    case isFalse => exact IsProgram.pure slots

theorem ConstantPool.isProgram_decode : IsProgram ConstantPool.decode :=
  IsProgram.word16.bind fun count => (isProgram_decodeSlots count count.toNat 1 _).map ConstantPool.mk

theorem Attribute.isProgram_decode : IsProgram Attribute.decode :=
  IsProgram.word16.bind fun _ => IsProgram.word32.bind fun _ => (IsProgram.take _).map _

theorem Member.isProgram_decode : IsProgram Member.decode :=
  IsProgram.word16.bind fun _ => IsProgram.word16.bind fun _ => IsProgram.word16.bind fun _ =>
    Attribute.isProgram_decode.counted.map _

theorem ClassFile.isProgram_decode : IsProgram ClassFile.decode := by
  have hmagic : IsProgram decodeMagic :=
    IsProgram.word32.bind fun magic => (IsProgram.pure ()).guard
  refine hmagic.bind fun _ => IsProgram.word16.bind fun minor => IsProgram.word16.bind fun major => ?_
  have hbody : IsProgram _ := ConstantPool.isProgram_decode.bind fun pool =>
    IsProgram.word16.bind fun access => IsProgram.word16.bind fun thisClass =>
    IsProgram.word16.bind fun superClass => IsProgram.word16.counted.bind fun interfaces =>
    Member.isProgram_decode.counted.bind fun fields =>
    Member.isProgram_decode.counted.bind fun methods =>
    Attribute.isProgram_decode.counted.map fun attributes =>
      (⟨minor, major, pool, access, thisClass, superClass, interfaces, fields.toArray,
        methods.toArray, attributes.toArray⟩ : ClassFile)
  split
  · exact (IsProgram.throw (α := PUnit) _).bind fun _ => hbody
  · exact hbody

/-! ## Fronts and extensions of a class file -/

namespace LoadedClass

/-- A failure to read the structure is the failure of the whole. -/
theorem parse_of_error {source : Bytes} {e : FormatError} {c : Cursor}
    (h : ClassFile.decode (Cursor.start source) = .error e c) : parse source = .error e := by
  simp only [parse, runOn, h]
  rfl

/-- Bytes behind the structure are refused before its header is looked at. -/
theorem parse_of_rest {source : Bytes} {c : ClassFile} {last : Cursor}
    (h : ClassFile.decode (Cursor.start source) = .ok c last) (hrest : last.rest ≠ []) :
    parse source = .error (.trailingBytes last.rest.length) := by
  have hnonempty : (!last.rest.isEmpty) = true := by simpa using hrest
  simp only [parse, runOn, h, bind, Except.bind, hnonempty, if_true]
  rfl

/-- **No class file is the front of another, and the errors say so.** Every proper front of a class
file is truncated: a read that starts in it asks for more bytes than are left. Bytes behind a class
file are counted as trailing. Reading is a program of reads; each of them starts and ends inside the
buffer, on any input, and one that fails ends where it starts. So does the reading of a byte and of
a word of two or four bytes. A word of eight bytes is read as two halves of four, so where it fails
the cursor is in front of the half that failed. -/
theorem parse_prefix_free :
    (∀ (source : Bytes) (c : LoadedClass), parse source = .ok c →
      (∀ front missing, source = front ++ missing → missing ≠ [] → ∃ offset n,
        parse front = .error (.truncated offset n front.length) ∧
          offset ≤ front.length ∧ front.length < offset + n) ∧
      ∀ more, more ≠ [] → parse (source ++ more) = .error (.trailingBytes more.length)) ∧
    (∃ p : ReadProgram ClassFile, p.run = ClassFile.decode) ∧
    (∀ p : ReadProgram ClassFile, p.run = ClassFile.decode → ∀ source : Bytes,
      ∀ r ∈ p.steps (Cursor.start source), r.before.Inside source ∧ r.after.Inside source ∧
        (r.succeeded = false → r.after = r.before)) ∧
    ∀ (c c' : Cursor) (e : FormatError),
      (∀ n, take n c = .error e c' → c' = c) ∧ (byte c = .error e c' → c' = c) ∧
        (word16 c = .error e c' → c' = c) ∧ (word32 c = .error e c' → c' = c) ∧
          (word64 c = .error e c' → c' = c ∨ c'.offset = c.offset + 4 ∧ c'.rest = c.rest.drop 4) := by
  obtain ⟨p, hp⟩ := ClassFile.isProgram_decode
  refine ⟨fun source c h => ?_, ⟨p, hp⟩, fun q _ source => q.steps_inside ⟨Nat.zero_le _, rfl⟩,
    fun c c' e => ⟨fun n => take_error, byte_error, word16_error, word32_error, word64_error⟩⟩
  obtain ⟨-, -, last, hdecode, hlast⟩ := parse_ok h
  rw [← hp] at hdecode
  obtain ⟨used, hused, -, hbehind, hfront⟩ := p.run_ok hdecode
  -- the whole of an accepted source is consumed
  obtain rfl : source = used := by rw [← List.append_nil used, ← hlast]; exact hused
  constructor
  · intro front missing hsource hmissing
    obtain ⟨offset, n, c'', hrun, hle, hlt⟩ := hfront front missing hsource hmissing
    simp only [Cursor.start, Nat.zero_add] at hrun hle hlt
    rw [hp] at hrun
    exact ⟨offset, n, parse_of_error hrun, hle, hlt⟩
  · intro more hmore
    have hrun := hbehind more
    rw [hp] at hrun
    exact parse_of_rest hrun hmore

theorem parse_prefix_free_twoSlotSample :
    (∃ c, parse twoSlotSample.toBytes = .ok c) ∧
      (∃ offset n, parse (twoSlotSample.toBytes.take 24) = .error (.truncated offset n 24)) ∧
      parse (twoSlotSample.toBytes ++ [0, 0]) = .error (.trailingBytes 2) := by
  have hparse : (parse twoSlotSample.toBytes).isOk = true := by decide +kernel
  obtain ⟨c, hparse⟩ := isOk_iff.mp hparse
  obtain ⟨hfront, hmore⟩ := parse_prefix_free.1 _ c hparse
  obtain ⟨offset, n, hshort, -⟩ := hfront (twoSlotSample.toBytes.take 24)
    (twoSlotSample.toBytes.drop 24) (List.take_append_drop 24 _).symm (by decide)
  exact ⟨⟨c, hparse⟩, ⟨offset, n, hshort⟩, hmore [0, 0] (by decide)⟩

/-- The front of a class file that ends inside the second half of a two-slot number. -/
def cutNumberSample : Bytes :=
  [0xCA, 0xFE, 0xBA, 0xBE, 0, 0, 0, 0x34, 0, 3, 5, 0, 0, 0, 0, 0]

/-- A failing read of eight bytes need not leave the cursor where it was: here it starts at byte 11
and ends at byte 15, which is also where the error says that the class file is truncated. -/
theorem failing_word64_moves :
    (decodeMagic >>= fun _ => word16 >>= fun _ => word16 >>= fun _ => word16 >>= fun _ => byte)
        (Cursor.start cutNumberSample) = .ok 5 ⟨11, [0, 0, 0, 0, 0]⟩ ∧
      word64 ⟨11, [0, 0, 0, 0, 0]⟩ = .error (.truncated 15 4 16) ⟨15, [0]⟩ ∧
      parse cutNumberSample = .error (.truncated 15 4 16) ∧
      ¬∀ (c c' : Cursor) (e : FormatError), word64 c = .error e c' → c' = c := by
  have hword : word64 ⟨11, [0, 0, 0, 0, 0]⟩ = .error (.truncated 15 4 16) ⟨15, [0]⟩ := rfl
  refine ⟨by rfl, hword, by decide +kernel, fun h => ?_⟩
  exact absurd (h _ _ _ hword) (by decide)

end LoadedClass

end JvmRelocation
