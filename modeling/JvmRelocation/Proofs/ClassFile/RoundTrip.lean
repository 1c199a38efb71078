import JvmRelocation.Proofs.ClassFile.Reindexing
import JvmRelocation.Proofs.ClassFile.RenamedSites

/-!
# Class files and class structures correspond

A class file is written back as the bytes it was read from, and a class structure is read back from
its bytes exactly if it conforms to the format: its numbers fit their fields, empty slots stand
exactly where the format has them, and its header resolves. So reading and writing are inverse to
each other between the class files that are accepted and the structures that conform.
-/

namespace JvmRelocation

/-! ## Where empty slots stand -/

namespace ConstantPool

/-- Exactly the two-slot numbers are followed by an empty slot. -/
def Gapped (list : List Constant) : Prop :=
  ∀ i k, list[i]? = some k → (k.isWide = true ↔ list[i + 1]? = some .unusable)

theorem gapped_cons {k : Constant} {rest : List Constant} :
    Gapped (k :: rest) ↔ (k.isWide = true ↔ rest.head? = some .unusable) ∧ Gapped rest := by
  rw [List.head?_eq_getElem?]
  constructor
  · intro h
    exact ⟨h 0 k rfl, fun i => h (i + 1)⟩
  · rintro ⟨hfirst, hrest⟩ i k' hk'
    cases i with
    | zero =>
      obtain rfl : k = k' := Option.some.inj hk'
      exact hfirst
    | succ i => exact hrest i k' hk'

theorem gapped_of_filled {list : List Constant} (h : Filled list) :
    list.head? ≠ some .unusable ∧ Gapped list := by
  induction h with
  | nil => exact ⟨by simp, fun i k hk => by simp at hk⟩
  | narrow hk hwide _ ih =>
    refine ⟨?_, gapped_cons.mpr ⟨?_, ih.2⟩⟩
    · rintro heq
      obtain rfl := Option.some.inj heq
      exact hk
    · simp [hwide, ih.1]
  | wide hwide _ ih =>
    refine ⟨?_, gapped_cons.mpr ⟨?_, gapped_cons.mpr ⟨?_, ih.2⟩⟩⟩
    · rintro heq
      obtain rfl := Option.some.inj heq
      cases hwide
    · simp [hwide]
    · simp [Constant.isWide, ih.1]

theorem storable_of_filled {list : List Constant} (h : Filled list) {k : Constant} (hk : k ∈ list)
    (hne : k ≠ .unusable) : k.Storable := by
  induction h with
  | nil => cases hk
  | narrow hfirst _ _ ih =>
    rcases List.mem_cons.mp hk with rfl | hk
    · exact hfirst
    · exact ih hk
  | wide hwide _ ih =>
    rcases List.mem_cons.mp hk with rfl | hk
    · exact storable_of_isWide hwide
    · rcases List.mem_cons.mp hk with rfl | hk
      · exact absurd rfl hne
      · exact ih hk

/-- Slots are filled in one step for each entry: a two-slot number takes the empty slot behind it
along. -/
theorem filled_of_gapped : ∀ list : List Constant, list.head? ≠ some .unusable → Gapped list →
    (∀ k ∈ list, k ≠ .unusable → k.Storable) → Filled list
  | [], _, _, _ => .nil
  | k :: rest, hhead, hgaps, hstorable => by
    obtain ⟨hk, hrest⟩ := List.forall_mem_cons.mp hstorable
    obtain ⟨hfirst, hbehind⟩ := gapped_cons.mp hgaps
    have hne : k ≠ .unusable := fun heq => hhead (congrArg some heq)
    cases hwide : k.isWide with
    | false =>
      have hnext : rest.head? ≠ some .unusable := by simpa [hwide] using hfirst
      exact .narrow (hk hne) hwide (filled_of_gapped rest hnext hbehind hrest)
    | true =>
      match rest, hfirst.mp hwide, hbehind, hrest with
      | .unusable :: more, rfl, hbehind, hrest =>
        obtain ⟨hempty, hmore⟩ := gapped_cons.mp hbehind
        have hnext : more.head? ≠ some .unusable := by simpa [Constant.isWide] using hempty
        exact .wide hwide (filled_of_gapped more hnext hmore (List.forall_mem_cons.mp hrest).2)

theorem storable_iff {k : Constant} :
    k.Storable ↔ k ≠ .unusable ∧ ∀ bytes, k = .utf8 bytes → bytes.length ≤ 65535 := by
  cases k <;> simp [Constant.Storable]
  exact Nat.lt_succ_iff

/-- The slots of a pool as the format lays them out: slot zero is empty, a two-slot number is
followed by an empty slot, and no other slot is empty. -/
structure LaidOut (pool : ConstantPool) : Prop where
  zero : pool.slots.toList[0]? = some .unusable
  gaps : Gapped pool.slots.toList

/-- Which pools the format can store, told slot by slot. -/
theorem wellFormed_iff {pool : ConstantPool} : pool.WellFormed ↔ pool.LaidOut ∧
    pool.count ≤ 65535 ∧ ∀ bytes, .utf8 bytes ∈ pool.slots.toList → bytes.length ≤ 65535 := by
  constructor
  · rintro ⟨⟨rest, hslots, hfilled⟩, hcount⟩
    obtain ⟨hhead, hgaps⟩ := gapped_of_filled hfilled
    refine ⟨⟨by rw [hslots]; rfl, ?_⟩, hcount, fun bytes hbytes => ?_⟩
    · rw [hslots]
      exact gapped_cons.mpr ⟨by simp [Constant.isWide, hhead], hgaps⟩
    · rw [hslots] at hbytes
      have hstorable := storable_of_filled hfilled (List.mem_of_ne_of_mem (by simp) hbytes) (by simp)
      exact (storable_iff.mp hstorable).2 bytes rfl
  · rintro ⟨⟨hzero, hgaps⟩, hcount, htexts⟩
    obtain ⟨slots⟩ := pool
    obtain ⟨_ | ⟨empty, rest⟩⟩ := slots
    · cases hzero
    · obtain rfl : empty = .unusable := Option.some.inj hzero
      obtain ⟨hfirst, hrest⟩ := gapped_cons.mp hgaps
      refine ⟨⟨rest, rfl, filled_of_gapped rest ?_ hrest fun k hk hne => ?_⟩, hcount⟩
      · simpa [Constant.isWide] using hfirst
      · refine storable_iff.mpr ⟨hne, ?_⟩
        rintro bytes rfl
        exact htexts bytes (List.mem_cons_of_mem _ hk)

end ConstantPool

/-! ## Structures that conform -/

namespace ClassFile

/-- A property of the attributes of the class, of each field and of each method. -/
theorem forall_attributesOf {c : ClassFile} {P : Array Attribute → Prop} (hnone : P #[]) :
    (∀ owner, P (c.attributesOf owner)) ↔ P c.attributes ∧
      (∀ m ∈ c.fields.toList, P m.attributes) ∧ ∀ m ∈ c.methods.toList, P m.attributes := by
  constructor
  · intro h
    refine ⟨h .theClass, fun m hm => ?_, fun m hm => ?_⟩
    · obtain ⟨i, hi⟩ := List.mem_iff_getElem?.mp hm
      rw [← attributesOf_field (by simpa using hi)]
      exact h (.field i)
    · obtain ⟨i, hi⟩ := List.mem_iff_getElem?.mp hm
      rw [← attributesOf_method (by simpa using hi)]
      exact h (.method i)
  · rintro ⟨hclass, hfields, hmethods⟩ owner
    -- an owner that does not exist has no attributes
    cases owner with
    | theClass => exact hclass
    | field i =>
      cases hm : c.fields[i]? with
      | none => simpa [attributesOf, hm] using hnone
      | some m =>
        rw [attributesOf_field hm]
        exact hfields m (List.mem_iff_getElem?.mpr ⟨i, by simpa using hm⟩)
    | method i =>
      cases hm : c.methods[i]? with
      | none => simpa [attributesOf, hm] using hnone
      | some m =>
        rw [attributesOf_method hm]
        exact hmethods m (List.mem_iff_getElem?.mpr ⟨i, by simpa using hm⟩)

/-- A class structure that conforms to the format and declares the given name. -/
structure Conforms (c : ClassFile) (name : String) : Prop where
  version : isSupportedVersion c.majorVersion = true
  layout : c.pool.LaidOut
  slots_le : c.pool.count ≤ 65535
  texts_le : ∀ bytes, .utf8 bytes ∈ c.pool.slots.toList → bytes.length ≤ 65535
  interfaces_le : c.interfaces.length ≤ 65535
  fields_le : c.fields.size ≤ 65535
  methods_le : c.methods.size ≤ 65535
  /-- The attributes of the class and of each member are not too many, and none is too long. -/
  attributes_le : ∀ owner, (c.attributesOf owner).size ≤ 65535 ∧
    ∀ a ∈ c.attributesOf owner, a.body.size ≤ 4294967295
  /-- The name that is declared is usable as a path. -/
  declares : c.pool.className c.thisClass = .ok name ∧ isPathName name = true
  superclass : c.superClass ≠ 0 → ∃ super, c.pool.className c.superClass = .ok super
  interfaces : ∀ i ∈ c.interfaces, ∃ interface, c.pool.className i = .ok interface

theorem storable_iff_attributes {attributes : Array Attribute} :
    (attributes.toList.length < 65536 ∧ ∀ a ∈ attributes.toList, a.Storable) ↔
      attributes.size ≤ 65535 ∧ ∀ a ∈ attributes, a.body.size ≤ 4294967295 := by
  simp only [Array.length_toList, Array.mem_toList_iff, Attribute.Storable]
  exact and_congr Nat.lt_succ_iff (forall₂_congr fun _ _ => Nat.lt_succ_iff)

/-- The structures that conform are those that can be stored and whose header resolves. -/
theorem conforms_iff {c : ClassFile} {name : String} :
    c.Conforms name ↔ c.WellFormed ∧ c.resolveHeader = .ok name := by
  have hattributes := forall_attributesOf (c := c) (P := fun attributes =>
    attributes.toList.length < 65536 ∧ ∀ a ∈ attributes.toList, a.Storable) (by simp)
  rw [forall_congr' fun owner => storable_iff_attributes] at hattributes
  have hmembers (members : Array Member) : members.toList.length < 65536 ↔ members.size ≤ 65535 := by
    rw [Array.length_toList, Nat.lt_succ_iff]
  rw [resolveHeader_eq_ok]
  constructor
  · intro h
    obtain ⟨hclass, hfields, hmethods⟩ := hattributes.mp h.attributes_le
    refine ⟨⟨h.version, ConstantPool.wellFormed_iff.mpr ⟨h.layout, h.slots_le, h.texts_le⟩,
      Nat.lt_succ_of_le h.interfaces_le, ⟨(hmembers _).mpr h.fields_le, hfields⟩,
      ⟨(hmembers _).mpr h.methods_le, hmethods⟩, hclass⟩, ?_⟩
    exact ⟨h.declares.1, h.declares.2, h.superclass, h.interfaces⟩
  · rintro ⟨hformed, hthis, hpath, hsuper, hinterfaces⟩
    obtain ⟨hlayout, hslots, htexts⟩ := ConstantPool.wellFormed_iff.mp hformed.pool
    exact ⟨hformed.version, hlayout, hslots, htexts, Nat.le_of_lt_succ hformed.interfaces,
      (hmembers _).mp hformed.fields.1, (hmembers _).mp hformed.methods.1,
      hattributes.mpr ⟨hformed.attributes, hformed.fields.2, hformed.methods.2⟩, ⟨hthis, hpath⟩,
      hsuper, hinterfaces⟩

end ClassFile

namespace LoadedClass

/-- Whatever is read conforms, and declares the name it was read with. -/
theorem conforms_of_parse {source : Bytes} {c : LoadedClass} (h : parse source = .ok c) :
    c.Conforms c.declaredName :=
  ClassFile.conforms_iff.mpr ⟨wellFormed_of_parse h, (parse_ok h).2.1⟩

/-- **Reading and writing are inverse.** A class that is read is written as the bytes it was read
from; and a structure is read back from its bytes, with the name it declares, exactly if it
conforms to the format. -/
theorem read_write_inverse :
    (∀ source c, parse source = .ok c → c.toBytes = source) ∧
    ∀ (c : ClassFile) (name : String),
      (∃ d, parse c.toBytes = .ok d ∧ d.toClassFile = c ∧ d.declaredName = name) ↔
        c.Conforms name := by
  refine ⟨fun source c h => toBytes_of_parse h, fun c name => ⟨?_, fun h => ?_⟩⟩
  · rintro ⟨d, hd, rfl, rfl⟩
    exact conforms_of_parse hd
  · obtain ⟨hformed, hheader⟩ := ClassFile.conforms_iff.mp h
    exact ⟨_, parse_toBytes hformed hheader, rfl, rfl⟩

/-- A class with a two-slot number at the end of its pool, an interface, a field with an attribute
and an attribute of its own. -/
def twoSlotSample : ClassFile where
  minorVersion := 3
  majorVersion := 52
  pool := ⟨#[.unusable, .utf8 [112, 47, 65], .classInfo 1, .long 7, .unusable]⟩
  access := 33
  thisClass := 2
  superClass := 0
  interfaces := [2]
  fields := #[⟨1, 1, 1, #[⟨1, #[9]⟩]⟩]
  methods := #[]
  attributes := #[⟨1, #[]⟩]

theorem read_write_inverse_twoSlotSample :
    twoSlotSample.Conforms "p/A" ∧ ∃ d, parse twoSlotSample.toBytes = .ok d ∧
      d.toClassFile = twoSlotSample ∧ d.declaredName = "p/A" ∧
      d.toBytes = twoSlotSample.toBytes := by
  have hfilled : ConstantPool.Filled [.utf8 [112, 47, 65], .classInfo 1, .long 7, .unusable] :=
    .narrow (show 3 < 65536 by decide) rfl (.narrow trivial rfl (.wide rfl .nil))
  have hformed : twoSlotSample.WellFormed :=
    { version := by decide
      pool := ⟨⟨_, rfl, hfilled⟩, by decide⟩
      interfaces := by decide
      fields := by simp [twoSlotSample, Member.Storable, Attribute.Storable]
      methods := by simp [twoSlotSample]
      attributes := by simp [twoSlotSample, Attribute.Storable] }
  have hconforms : twoSlotSample.Conforms "p/A" :=
    ClassFile.conforms_iff.mpr ⟨hformed, by decide +kernel⟩
  obtain ⟨d, hd, hclass, hname⟩ := (read_write_inverse.2 twoSlotSample "p/A").mpr hconforms
  exact ⟨hconforms, d, hd, hclass, hname, read_write_inverse.1 _ d hd⟩

end LoadedClass

end JvmRelocation
