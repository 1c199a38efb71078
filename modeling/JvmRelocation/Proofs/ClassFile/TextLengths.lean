import JvmRelocation.Proofs.ClassFile.RoundTrip

/-!
# Lengths of texts that a renaming writes

The length of a text is stored in 16 bits, however long the text is. Of all that a renaming does to a
class, only this can go wrong: the renamed structure is read back from its bytes exactly if every
text that is written fits, and exactly then every length field says how long its text is.
-/

namespace JvmRelocation

open ModifiedUtf8 TextReference

/-- The length field of every text says how many bytes the text has. -/
def ConstantPool.TrueLengths (pool : ConstantPool) : Prop :=
  ∀ bytes, .utf8 bytes ∈ pool.slots.toList → (UInt16.ofNat bytes.length).toNat = bytes.length

theorem ConstantPool.trueLengths_iff {pool : ConstantPool} : pool.TrueLengths ↔
    ∀ bytes, .utf8 bytes ∈ pool.slots.toList → bytes.length ≤ 65535 := by
  refine forall₂_congr fun bytes _ => ?_
  rw [UInt16.toNat_ofNat']
  omega

namespace ClassFile.RenamedBy

variable {m : NameMapper} {c c' : ClassFile} {pool : ConstantPool}
  {changes : Location → Option UInt16}

/-- What a renaming writes is in the pool of the renamed class. -/
theorem mem_of_rewrites (h : RenamedBy m c c' pool changes) {w : String} (hw : c.Rewrites m w) :
    .utf8 (encode w) ∈ c'.pool.slots.toList := by
  obtain ⟨found, hfound, s, hs, v, hv, hremap⟩ := hw
  have hbytes := h.written s ((mem_sites_of_nameSites hfound).mp hs) v w hv hremap
  rw [← h.utf8Bytes_eq, ConstantPool.utf8Bytes_eq_ok, ConstantPool.get?_eq] at hbytes
  exact List.mem_of_getElem? hbytes

/-- The length fields of the renamed class are true exactly if what is written fits. -/
theorem fits_iff_trueLengths (h : RenamedBy m c c' pool changes) (hc : c.WellFormed) :
    c.Fits m ↔ c'.pool.TrueLengths := by
  rw [ConstantPool.trueLengths_iff]
  constructor
  · intro hfits
    exact (ConstantPool.wellFormed_iff.mp (h.wellFormed hc hfits).pool).2.2
  · intro hlengths w hw
    exact hlengths _ (h.mem_of_rewrites hw)

end ClassFile.RenamedBy

/-- A renamed class is read back as what was written exactly if what is written fits. -/
theorem LoadedClass.fits_iff_read {source : Bytes} {c : LoadedClass} {m : NameMapper} {c' : ClassFile}
    {pool : ConstantPool} {changes : Location → Option UInt16} (hparse : parse source = .ok c)
    (h : ClassFile.RenamedBy m c.toClassFile c' pool changes)
    (hpath : isPathName (NameRole.className.renamed m c.declaredName) = true) :
    c.Fits m ↔ ∃ d, parse c'.toBytes = .ok d ∧ d.toClassFile = c' := by
  constructor
  · intro hfits
    exact ⟨_, parse_renamed hparse h hfits hpath, rfl⟩
  · rintro ⟨d, hd, rfl⟩
    rw [h.fits_iff_trueLengths (wellFormed_of_parse hparse), ConstantPool.trueLengths_iff]
    exact (ConstantPool.wellFormed_iff.mp (wellFormed_of_parse hd).pool).2.2

/-! ## A text that does not fit -/

/-- A class `q/U` with a method type whose descriptor has the given bytes. -/
def methodTypeSample (descriptor : Bytes) : ClassFile where
  minorVersion := 0
  majorVersion := 52
  pool := ⟨#[.unusable, .utf8 [113, 47, 85], .classInfo 1, .utf8 descriptor, .methodType 3]⟩
  access := 33
  thisClass := 2
  superClass := 0
  interfaces := []
  fields := #[]
  methods := #[]
  attributes := #[]

theorem resolveHeader_methodTypeSample (descriptor : Bytes) :
    (methodTypeSample descriptor).resolveHeader = .ok "q/U" := by
  rfl

theorem wellFormed_methodTypeSample {descriptor : Bytes} (h : descriptor.length ≤ 65535) :
    (methodTypeSample descriptor).WellFormed where
  version := rfl
  pool := by
    constructor
    · exact ⟨_, rfl, .narrow (show 3 < 65536 by decide) rfl (.narrow trivial rfl
        (.narrow (Nat.lt_succ_of_le h) rfl (.narrow trivial rfl .nil)))⟩
    · simp [methodTypeSample, ConstantPool.count, ConstantPool.maxCount]
  interfaces := by simp [methodTypeSample]
  fields := by simp [methodTypeSample]
  methods := by simp [methodTypeSample]
  attributes := by simp [methodTypeSample]

/-- The length field of a text of 65538 bytes says two, and its third byte is no tag of a
constant. -/
theorem parse_methodTypeSample {rest : Bytes} (h : (40 :: 76 :: 118 :: rest).length = 65538) :
    LoadedClass.parse (methodTypeSample (40 :: 76 :: 118 :: rest)).toBytes =
      .error (.unknownTag 4 118) := by
  have hbytes : (methodTypeSample (40 :: 76 :: 118 :: rest)).toBytes =
      0xCA :: 0xFE :: 0xBA :: 0xBE :: 0 :: 0 :: 0 :: 52 :: 0 :: 5 ::
        1 :: 0 :: 3 :: 113 :: 47 :: 85 :: 7 :: 0 :: 1 :: 1 :: 0 :: 2 :: 40 :: 76 :: 118 ::
        (rest ++ [16, 0, 3, 0, 33, 0, 2, 0, 0, 0, 0, 0, 0, 0, 0, 0, 0]) := by
    simp only [ClassFile.toBytes, ConstantPool.toBytes, methodTypeSample, ConstantPool.count,
      Constant.toBytes, List.size_toArray, List.drop_succ_cons, List.drop_zero, List.flatMap_cons,
      List.flatMap_nil, h]
    simp only [List.length_cons, List.length_nil, List.append_assoc, List.cons_append]
    rfl
  rw [hbytes]
  rfl

/-- Only the descriptor is renamed. -/
theorem renamed_methodTypeSample {m : NameMapper} {v w : String} (hname : m "q/U" = none)
    (hremap : Descriptor.remap m v = some w) :
    (methodTypeSample (encode v)).renamed m = .ok (methodTypeSample (encode w)) := by
  have hsites : (methodTypeSample (encode v)).nameSites =
      .ok ⟨[⟨.slot 2, 1, .className⟩, ⟨.slot 4, 3, .descriptor⟩], []⟩ := rfl
  have hgroups : (NameSites.byText ⟨[⟨.slot 2, 1, .className⟩, ⟨.slot 4, 3, .descriptor⟩], []⟩).toList
      = [(1, [⟨.slot 2, 1, .className⟩]), (3, [⟨.slot 4, 3, .descriptor⟩])] := by
    decide +kernel
  -- each text has one site, so each is replaced where it stands or stays
  have hself : RenamingPlan.part m (methodTypeSample (encode v)).pool
      ⟨[⟨.slot 2, 1, .className⟩, ⟨.slot 4, 3, .descriptor⟩], []⟩
      (1, [⟨.slot 2, 1, .className⟩]) = ⟨[], []⟩ := by
    have htext : (methodTypeSample (encode v)).pool.text? 1 = some "q/U" := rfl
    have hstays : NameRole.className.remap m "q/U" = none := by
      rw [NameRole.remap, if_neg (by decide), hname]
      rfl
    simp only [RenamingPlan.part, htext, List.map_cons, List.map_nil, hstays]
    rfl
  have hother : RenamingPlan.part m (methodTypeSample (encode v)).pool
      ⟨[⟨.slot 2, 1, .className⟩, ⟨.slot 4, 3, .descriptor⟩], []⟩
      (3, [⟨.slot 4, 3, .descriptor⟩]) = ⟨[(3, w)], []⟩ := by
    have htext : (methodTypeSample (encode v)).pool.text? 3 = some v :=
      ConstantPool.text?_encode rfl
    simp only [RenamingPlan.part, htext, List.map_cons, List.map_nil, NameRole.remap, hremap]
    rfl
  have hplan : (methodTypeSample (encode v)).plan m = .ok ⟨[(3, w)], []⟩ := by
    rw [ClassFile.plan, hsites]
    show Except.ok _ = Except.ok _
    rw [RenamingPlan.make_eq, hgroups]
    simp only [List.flatMap_cons, List.flatMap_nil, hself, hother]
    rfl
  rw [ClassFile.renamed, hplan]
  rfl

end JvmRelocation
