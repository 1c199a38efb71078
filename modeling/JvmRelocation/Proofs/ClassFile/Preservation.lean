import JvmRelocation.Proofs.ClassFile.RenamedSites

/-!
# Renaming changes nothing but names

Next to its name sites, a class that is renamed stays what it is. Its header, its members and its
attributes keep their numbers, flags and indices; the body of an attribute keeps every byte that
does not belong to the index of a name site, code and tables included; a slot of the pool keeps its
kind and every operand but the one that refers to a name; and a text keeps its bytes unless every use
of it is a name site.
-/

namespace JvmRelocation

open ModifiedUtf8 Layout TextReference

/-! ## Bytes of a body that stay -/

namespace Layout

theorem toBytes_withIndex_of_pinned (value : Option UInt16) {part : BodyPart}
    (h : ∀ use index, part = .index use index → use = .pinned) : part.withIndex value = part := by
  cases part with
  | plain bytes => rfl
  | index use index =>
    obtain rfl := h use index rfl
    rfl

/-- A byte stays unless it belongs to an index that may be exchanged. -/
theorem getElem?_toBytes_withIndices (changes : Nat → Option UInt16) {offset i : Nat} {l : Layout}
    (h : ∀ m ∈ mentionsAt offset l, m.use ≠ .pinned →
      offset + i ≠ m.offset ∧ offset + i ≠ m.offset + 1) :
    (toBytes (withIndices changes offset l))[i]? = (toBytes l)[i]? := by
  induction l generalizing offset i with
  | nil => rfl
  | cons part l ih =>
    obtain ⟨here, heq, -⟩ := mentionsAt_cons offset part l
    have hlength := BodyPart.length_withIndex (changes offset) part
    rw [withIndices, toBytes_cons, toBytes_cons]
    by_cases hi : i < part.toBytes.length
    · -- the byte belongs to this part, which stays as it is
      have hpart : part.withIndex (changes offset) = part := by
        refine toBytes_withIndex_of_pinned _ ?_
        rintro use index rfl
        have hwidth : (BodyPart.index use index).toBytes.length = 2 := rfl
        have hplace := h ⟨offset, index, use⟩ List.mem_cons_self
        by_contra huse
        obtain ⟨hfirst, hsecond⟩ := hplace huse
        simp only at hfirst hsecond
        omega
      rw [List.getElem?_append_left (by omega), List.getElem?_append_left hi, hpart]
    · -- the byte stands behind this part
      rw [List.getElem?_append_right (by omega), List.getElem?_append_right (by omega), hlength]
      refine ih fun m hm huse => ?_
      have hplace := h m (heq ▸ List.mem_append_right _ hm) huse
      omega

end Layout

/-- Attributes that differ in the two bytes at some places of their bodies, and in nothing else. -/
structure Attribute.SameButAt (Place : Nat → Prop) (a a' : Attribute) : Prop where
  nameIndex : a'.nameIndex = a.nameIndex
  size : a'.body.size = a.body.size
  bytes : ∀ i, (∀ place, Place place → i ≠ place ∧ i ≠ place + 1) → a'.body[i]? = a.body[i]?

theorem Attribute.sameButAt_withIndices {Place : Nat → Prop} {pool : ConstantPool} {a : Attribute}
    (changes : Nat → Option UInt16)
    (h : ∀ m ∈ (a.parts pool).mentions, m.use ≠ .pinned → Place m.offset) :
    a.SameButAt Place (a.withIndices pool changes) where
  nameIndex := rfl
  size := a.size_withIndices pool changes
  bytes := by
    intro i hi
    have hbyte : (Layout.withIndices changes 0 (a.parts pool)).toBytes[i]? =
        (a.parts pool).toBytes[i]? := by
      refine getElem?_toBytes_withIndices changes fun m hm huse => ?_
      rw [Nat.zero_add]
      exact hi _ (h m (by rwa [mentions_eq]) huse)
    rw [withIndices, List.getElem?_toArray, hbyte, a.toBytes_parts, Array.getElem?_toList]

namespace ClassFile

/-! ## Attributes and their references -/

/-- What stands in an attribute stands in the class. -/
theorem mem_references_of_attribute {c : ClassFile} {owner : AttributeOwner} {position : Nat}
    {a : Attribute} (ha : (c.attributesOf owner)[position]? = some a) {r : TextReference}
    (hr : r ∈ inAttribute c.pool owner (a, position)) : r ∈ c.references := by
  have hin {attributes : Array Attribute} (h : attributes[position]? = some a) :
      r ∈ inAttributes c.pool owner attributes :=
    List.mem_flatMap.mpr ⟨(a, position), List.mem_zipIdx_iff_getElem?.mpr (by simpa using h), hr⟩
  simp only [references, List.mem_append]
  cases owner with
  | theClass => exact .inr (hin ha)
  | field i =>
    obtain ⟨member, hmember, hattribute⟩ := member_of_attributesOf ha
    refine .inl (.inl (.inr (List.mem_flatMap.mpr ⟨(member, i), ?_, ?_⟩)))
    · exact List.mem_zipIdx_iff_getElem?.mpr (by simpa using hmember)
    · exact List.mem_cons_of_mem _ (List.mem_cons_of_mem _ (hin hattribute))
  | method i =>
    obtain ⟨member, hmember, hattribute⟩ := member_of_attributesOf ha
    refine .inl (.inr (List.mem_flatMap.mpr ⟨(member, i), ?_, ?_⟩))
    · exact List.mem_zipIdx_iff_getElem?.mpr (by simpa using hmember)
    · exact List.mem_cons_of_mem _ (List.mem_cons_of_mem _ (hin hattribute))

/-- Every index in a body that may be exchanged belongs to a name site. -/
theorem site_of_hasMention {c : ClassFile} {owner : AttributeOwner} {position : Nat} {m : Mention}
    (h : c.HasMention owner position m) :
    ∃ s, site s ∈ c.references ∧ s.location = .attributeBody owner position m.offset := by
  obtain ⟨huse, a, ha, hm⟩ := h
  have hmem : ofMention owner position m ∈ c.references :=
    mem_references_of_attribute ha (List.mem_cons_of_mem _ (List.mem_map_of_mem hm))
  cases hsite : ofMention owner position m with
  | site s =>
    rw [hsite] at hmem
    exact ⟨s, hmem, (ofMention_eq_site hsite).2.1⟩
  | pinned index =>
    rw [ofMention] at hsite
    split at hsite <;> simp_all

/-! ## Texts that are used otherwise than at name sites -/

/-- A text is used as something else than a text that mentions classes. -/
inductive PinsText (c : ClassFile) (i : UInt16) : Prop
  /-- It is a string literal. -/
  | literal {slot : UInt16} (h : c.pool.get? slot = some (.stringLiteral i))
  /-- It is the name of a member that is referred to. -/
  | memberName {slot descriptor : UInt16} (h : c.pool.get? slot = some (.nameAndType i descriptor))
  | moduleName {slot : UInt16} (h : c.pool.get? slot = some (.moduleInfo i))
  | packageName {slot : UInt16} (h : c.pool.get? slot = some (.packageInfo i))
  | fieldName {f : Member} (hf : f ∈ c.fields) (h : f.nameIndex = i)
  | methodName {f : Member} (hf : f ∈ c.methods) (h : f.nameIndex = i)
  | attributeName {owner : AttributeOwner} {a : Attribute} (ha : a ∈ c.attributesOf owner)
      (h : a.nameIndex = i)
  /-- It is used inside an attribute: as the name of an attribute nested in it, of an annotation's
  element, of a parameter or of a local variable, or as a string or the constant of an
  enumeration. -/
  | inBody {owner : AttributeOwner} {a : Attribute} {m : Mention} (ha : a ∈ c.attributesOf owner)
      (hm : m ∈ (a.parts c.pool).mentions) (huse : m.use = .pinned) (h : m.index = i)

theorem mem_references_of_slot {c : ClassFile} {slot : UInt16} {k : Constant}
    (h : c.pool.get? slot = some k) {r : TextReference} (hr : r ∈ ofConstant (slot, k)) :
    r ∈ c.references := by
  simp only [references, List.mem_append]
  exact .inl (.inl (.inl (List.mem_flatMap.mpr ⟨_, mem_toList_of_get? h, hr⟩)))

theorem pinned_of_member {c : ClassFile} {owner : Nat → AttributeOwner} {descriptor : Nat → Location}
    {members : Array Member} {f : Member} (hf : f ∈ members) :
    pinned f.nameIndex ∈ inMembers c.pool owner descriptor members := by
  obtain ⟨i, hi⟩ := Array.mem_iff_getElem?.mp hf
  exact List.mem_flatMap.mpr ⟨(f, i), List.mem_zipIdx_iff_getElem?.mpr (by simpa using hi),
    List.mem_cons_self⟩

theorem PinsText.mem_references {c : ClassFile} {i : UInt16} (h : c.PinsText i) :
    pinned i ∈ c.references := by
  cases h with
  | literal h => exact mem_references_of_slot h List.mem_cons_self
  | memberName h => exact mem_references_of_slot h List.mem_cons_self
  | moduleName h => exact mem_references_of_slot h List.mem_cons_self
  | packageName h => exact mem_references_of_slot h List.mem_cons_self
  | fieldName hf h =>
    simp only [references, List.mem_append]
    exact .inl (.inl (.inr (h ▸ pinned_of_member hf)))
  | methodName hf h =>
    simp only [references, List.mem_append]
    exact .inl (.inr (h ▸ pinned_of_member hf))
  | attributeName ha h =>
    obtain ⟨position, ha⟩ := Array.mem_iff_getElem?.mp ha
    exact h ▸ mem_references_of_attribute ha List.mem_cons_self
  | inBody ha hm huse h =>
    obtain ⟨position, ha⟩ := Array.mem_iff_getElem?.mp ha
    refine mem_references_of_attribute ha (List.mem_cons_of_mem _ (List.mem_map.mpr ⟨_, hm, ?_⟩))
    rw [ofMention, huse, h]

/-! ## What a renaming keeps -/

/-- What may become of a constant: it keeps its kind and its operands, up to the index of a name or
of a descriptor, or it is a text that is replaced. -/
inductive SlotRenamed (c : ClassFile) (m : NameMapper) (i : UInt16) : Constant → Constant → Prop
  | same (k : Constant) : SlotRenamed c m i k k
  | className (name name' : UInt16) : SlotRenamed c m i (.classInfo name) (.classInfo name')
  | nameAndType (name descriptor descriptor' : UInt16) :
    SlotRenamed c m i (.nameAndType name descriptor) (.nameAndType name descriptor')
  | methodType (descriptor descriptor' : UInt16) :
    SlotRenamed c m i (.methodType descriptor) (.methodType descriptor')
  | text (bytes : Bytes) {w : String} (h : c.AgreesOn m i w) :
    SlotRenamed c m i (.utf8 bytes) (.utf8 (encode w))

/-- A class is another one up to what is said at the given name sites. -/
structure SameButNames (m : NameMapper) (sites : List NameSite) (c c' : ClassFile) : Prop where
  minorVersion : c'.minorVersion = c.minorVersion
  majorVersion : c'.majorVersion = c.majorVersion
  access : c'.access = c.access
  thisClass : c'.thisClass = c.thisClass
  superClass : c'.superClass = c.superClass
  interfaces : c'.interfaces = c.interfaces
  fields : c'.fields.map (fun f => (f.access, f.nameIndex)) =
    c.fields.map fun f => (f.access, f.nameIndex)
  methods : c'.methods.map (fun f => (f.access, f.nameIndex)) =
    c.methods.map fun f => (f.access, f.nameIndex)
  attributeCount : ∀ owner, (c'.attributesOf owner).size = (c.attributesOf owner).size
  attributes : ∀ owner position (a a' : Attribute), (c.attributesOf owner)[position]? = some a →
    (c'.attributesOf owner)[position]? = some a' →
    a.SameButAt (fun offset => ∃ s ∈ sites, s.location = .attributeBody owner position offset) a'
  slots : ∀ i k, c.pool.get? i = some k →
    ∃ k', c'.pool.get? i = some k' ∧ c.SlotRenamed m i k k'
  pinnedTexts : ∀ i, c.PinsText i → ∀ bytes, c.pool.utf8Bytes i = .ok bytes →
    c'.pool.utf8Bytes i = .ok bytes
  appended : ∀ i k, c.pool.count ≤ i.toNat → c'.pool.get? i = some k →
    ∃ w, c.Rewrites m w ∧ k = .utf8 (encode w)

namespace RenamedBy

variable {m : NameMapper} {c c' : ClassFile} {pool : ConstantPool}
  {changes : Location → Option UInt16}

theorem slotRenamed (h : RenamedBy m c c' pool changes) {i : UInt16} {k : Constant}
    (hk : c.pool.get? i = some k) : ∃ k', c'.pool.get? i = some k' ∧ c.SlotRenamed m i k k' := by
  by_cases htext : ∃ bytes, k = .utf8 bytes
  · obtain ⟨bytes, rfl⟩ := htext
    have hget (bytes' : Bytes) (hpool : pool.get? i = some (.utf8 bytes')) :
        c'.pool.get? i = some (.utf8 bytes') := by
      rw [h.pool_eq, ConstantPool.get?_withIndices, hpool]
      cases changes (.slot i) <;> rfl
    rcases h.slot i (ConstantPool.lt_count_of_get? hk) with hsame | ⟨w, hagrees, hw⟩
    · exact ⟨_, hget bytes (hsame.trans hk), .same _⟩
    · exact ⟨_, hget _ hw, .text bytes hagrees⟩
  · refine ⟨_, h.get?_of_not_text hk fun bytes heq => htext ⟨bytes, heq⟩, ?_⟩
    -- only these three kinds of constants hold the index of a name or a descriptor
    cases changes (.slot i) with
    | none => exact .same k
    | some j =>
      cases k with
      | classInfo name => exact .className name j
      | nameAndType name descriptor => exact .nameAndType name descriptor j
      | methodType descriptor => exact .methodType descriptor j
      | _ => exact .same _

theorem appended (h : RenamedBy m c c' pool changes) {i : UInt16} {k : Constant}
    (hi : c.pool.count ≤ i.toNat) (hk : c'.pool.get? i = some k) :
    ∃ w, c.Rewrites m w ∧ k = .utf8 (encode w) := by
  obtain ⟨slots, more, hold, hslots, hmore⟩ := h.slots
  have hlength : slots.length = c.pool.count := by
    rw [← hold.length_eq]
    rfl
  rw [h.pool_eq, ConstantPool.get?_withIndices, ConstantPool.get?_eq, hslots,
    List.getElem?_append_right (by omega), List.getElem?_map] at hk
  cases hw : more[i.toNat - slots.length]? with
  | none => simp [hw] at hk
  | some w =>
    refine ⟨w, hmore w (List.mem_of_getElem? hw), ?_⟩
    simp only [hw, Option.map_some, Option.some.injEq] at hk
    rw [← hk]
    cases changes (.slot i) <;> rfl

/-- A class whose classes are renamed keeps everything else. -/
theorem sameButNames (h : RenamedBy m c c' pool changes) {found : NameSites}
    (hfound : c.nameSites = .ok found) : c.SameButNames m found.sites c' := by
  have hmembers (members : Array Member) (descriptor : Nat → Option UInt16)
      (inBodies : Nat → Nat → Nat → Option UInt16) :
      (members.mapIdx fun i f => f.withIndices c.pool (descriptor i) (inBodies i)).map
        (fun f => (f.access, f.nameIndex)) = members.map fun f => (f.access, f.nameIndex) := by
    apply Array.ext <;> simp [Member.withIndices]
  have heq := h.eq
  refine
    { minorVersion := by rw [heq]; rfl
      majorVersion := by rw [heq]; rfl
      access := by rw [heq]; rfl
      thisClass := by rw [heq]; rfl
      superClass := by rw [heq]; rfl
      interfaces := by rw [heq]; rfl
      fields := by rw [heq]; exact hmembers _ _ _
      methods := by rw [heq]; exact hmembers _ _ _
      attributeCount := fun owner => by rw [heq, attributesOf_withIndices, Array.size_mapIdx]
      attributes := ?_
      slots := fun _ _ => h.slotRenamed
      pinnedTexts := ?_
      appended := fun _ _ => h.appended }
  · intro owner position a a' ha ha'
    rw [heq, attributesOf_withIndices, Array.getElem?_mapIdx, ha, Option.map_some] at ha'
    obtain rfl := Option.some.inj ha'
    refine Attribute.sameButAt_withIndices _ fun mention hmention huse => ?_
    obtain ⟨s, hs, hlocation⟩ := site_of_hasMention ⟨huse, a, ha, hmention⟩
    exact ⟨s, (mem_sites_of_nameSites hfound).mpr hs, hlocation⟩
  · intro i hi bytes hbytes
    have hlt := ConstantPool.lt_count_of_get? (ConstantPool.utf8Bytes_eq_ok.mp hbytes)
    rw [h.utf8Bytes_eq, h.pinned i hi.mem_references hlt, hbytes]

end RenamedBy

end ClassFile

namespace LoadedClass

/-- **Renaming changes nothing but names.** -/
theorem substitute_changes_names_only {source : Bytes} {c : LoadedClass} {m : NameMapper}
    {s : Substitution} (hparse : parse source = .ok c) (hsub : c.substitute m = .ok s)
    (hfits : c.Fits m)
    (hpath : isPathName (NameRole.className.renamed m c.declaredName) = true) :
    ∃ d found, parse s.bytes = .ok d ∧ c.nameSites = .ok found ∧
      c.SameButNames m found.sites d.toClassFile := by
  obtain ⟨found, c', pool, changes, hfound, hrenamed, hbytes⟩ := substitute_eq_ok hparse hsub
  rw [hbytes]
  exact ⟨_, found, parse_renamed hparse hrenamed hfits hpath, hfound, hrenamed.sameButNames hfound⟩

/-- A class whose name is a literal, the name of a method with code, of a local variable and of an
annotation's element, and the constant of an enumeration as well. -/
def pinnedNameSample : Bytes :=
  built "p/A" do
    discard (ClassBuilder.literal "p/A")
    ClassBuilder.addMethodWithCode "p/A" "(Lp/A;)V" 1 2 [0xB1]
    ClassBuilder.addMethodWithLocals "run" "()V" [("p/A", "Lp/A;")]
    ClassBuilder.addAnnotationWithEnum "Lp/A;" "p/A" "Lp/A;" "p/A"

theorem substitute_changes_names_only_pinnedNameSample :
    ∃ c s, parse pinnedNameSample = .ok c ∧ c.substitute (.single "p/A" "v1/p/A") = .ok s ∧
      s.changed = true ∧ c.Fits (.single "p/A" "v1/p/A") ∧
      isPathName (NameRole.className.renamed (.single "p/A" "v1/p/A") c.declaredName) = true ∧
      ∃ d found, parse s.bytes = .ok d ∧ c.nameSites = .ok found ∧
        c.SameButNames (.single "p/A" "v1/p/A") found.sites d.toClassFile := by
  have hcheck : ((parse pinnedNameSample).toOption.any fun c =>
      c.Fits (.single "p/A" "v1/p/A") &&
        isPathName (NameRole.className.renamed (.single "p/A" "v1/p/A") c.declaredName) &&
        (c.substitute (.single "p/A" "v1/p/A")).toOption.any (·.changed)) = true := by
    decide +kernel
  obtain ⟨c, hparse, hcheck⟩ := exists_ok_of_any hcheck
  simp only [Bool.and_eq_true, decide_eq_true_eq] at hcheck
  obtain ⟨⟨hfits, hpath⟩, hsub⟩ := hcheck
  obtain ⟨s, hsub, hchanged⟩ := exists_ok_of_any hsub
  exact ⟨c, s, hparse, hsub, hchanged, hfits, hpath,
    substitute_changes_names_only hparse hsub hfits hpath⟩

end LoadedClass

end JvmRelocation
