import JvmRelocation.Proofs.ClassFile.AppliedAnnotations
import JvmRelocation.Proofs.ClassFile.Preservation
import JvmRelocation.Proofs.Name.DescriptorTokens

/-!
# Markers under a renaming

A renaming looks at the type of an annotation as at any other descriptor. Where it keeps the name in
a marker, the marker stays the marker. Where it gives that name to no other class, nothing else
becomes the marker. So the attributes of a class apply the marker as before, as long as they are the
same ones: an attribute whose name had an index behind the end of the pool may have got a name.
-/

namespace JvmRelocation

open ModifiedUtf8 Layout TextReference

/-! ## The descriptor of one class -/

theorem append_semicolon_inj {a more x : List Char} (hx : ';' ∉ x)
    (h : a ++ ';' :: more = x ++ [';']) : a = x ∧ more = [] := by
  rcases List.append_eq_append_iff.mp h with ⟨between, hbetween, hend⟩ | ⟨between, rfl, hend⟩
  · cases between with
    | nil => exact ⟨by simpa using hbetween.symm, (List.cons.inj hend).2⟩
    | cons c between =>
      obtain ⟨rfl, -⟩ := List.cons.inj hend
      exact absurd (hbetween ▸ List.mem_append_right a List.mem_cons_self) hx
  · cases between with
    | nil => exact ⟨List.append_nil x, (List.cons.inj hend).2.symm⟩
    | cons c between =>
      have hlength := congrArg List.length hend
      simp only [List.length_cons, List.length_append, List.length_nil] at hlength
      omega

namespace Descriptor

variable {m : NameMapper} {x : String}

/-- The descriptor of a class names that class alone. -/
theorem namesIn_object (hx : ';' ∉ x.toList) : namesIn ("L" ++ x ++ ";") = [x] := by
  have hcut : IsCutOf ⟨[⟨[], x⟩], []⟩ ("L" ++ x ++ ";").toList :=
    { written := by simp [toText, ObjectType.written]
      proper := ⟨by simp, by simpa using hx⟩
      unclosed := by simp }
  rw [namesIn, ← hcut.eq_ofText]
  rfl

/-- The descriptor of a class stays where the class keeps its name. -/
theorem remap_object (hx : ';' ∉ x.toList) (hkept : m.rename x = x) :
    remap m ("L" ++ x ++ ";") = none := by
  refine Option.eq_none_iff_forall_ne_some.mpr fun w hw => ?_
  obtain ⟨-, ⟨name, hname, hne⟩, -⟩ := remap_eq_some_iff.mp hw
  rw [namesIn_object hx, List.mem_singleton] at hname
  exact hne (hname ▸ hkept)

/-- No text becomes the descriptor of a class whose name no other class gets. -/
theorem remap_ne_object (hx : ';' ∉ x.toList) (honly : ∀ y, m y = some x → y = x) (text : String) :
    remap m text ≠ some ("L" ++ x ++ ";") := by
  intro h
  obtain ⟨-, ⟨name, hname, hne⟩, heq⟩ := remap_eq_some_iff.mp h
  have hproper := proper_ofText text.toList
  have hwritten := congrArg String.toList heq
  rw [String.toList_ofList] at hwritten
  rw [namesIn, names, List.mem_map] at hname
  cases hobjects : (ofText text.toList).objects with
  | nil => simp [hobjects] at hname
  | cons o objects =>
    -- the renamed text starts with its first object type, and that is all of it
    have hbefore : o.before = [] := by
      have hopen := hproper.before o (hobjects ▸ List.mem_cons_self)
      simp only [toText, rename, hobjects, List.map_cons, List.flatMap_cons, ObjectType.written]
        at hwritten
      cases hchars : o.before with
      | nil => rfl
      | cons c before =>
        rw [hchars] at hopen hwritten
        simp at hwritten hopen
        exact absurd hwritten.1 hopen.1
    obtain ⟨hnew, hmore⟩ : (m.rename o.name).toList = x.toList ∧
        (objects.map fun t => { t with name := m.rename t.name }).flatMap ObjectType.written ++
          (ofText text.toList).tail = [] := by
      refine append_semicolon_inj hx ?_
      simpa [toText, rename, hobjects, ObjectType.written, hbefore] using hwritten.symm
    have hlast : objects = [] := by
      cases objects with
      | nil => rfl
      | cons o' objects => simp [ObjectType.written] at hmore
    subst hlast
    obtain rfl : o.name = name := by simpa [hobjects] using hname
    -- the one name was changed, so it was mapped to the name it got
    have hrename : m.rename o.name = x := String.toList_inj.mp hnew
    rw [hrename] at hne
    cases htarget : m o.name with
    | none =>
      rw [NameMapper.rename, htarget, Option.getD_none] at hrename
      exact hne hrename.symm
    | some target =>
      rw [NameMapper.rename, htarget, Option.getD_some] at hrename
      exact hne (honly o.name (hrename ▸ htarget)).symm

end Descriptor

/-! ## One attribute -/

namespace Attribute

variable {pool : ConstantPool} {name : String} {a : Attribute} {l : Layout}

theorem layout_of_readable (hreadable : a.Readable pool)
    (hindex : pool.utf8Bytes a.nameIndex = .ok (encode name)) :
    a.layout pool name = .ok (a.parts pool) := by
  have hnameAt : nameAt pool a.nameIndex = name := by
    rw [nameAt, ConstantPool.text?_encode hindex]
    rfl
  rwa [Readable, hnameAt] at hreadable

/-- An attribute whose whole body is cut applies the annotations whose types are mentioned as
such. -/
theorem appliesAnnotation_iff_mention (hname : name ∈ annotationAttributeNames)
    (hindex : pool.utf8Bytes a.nameIndex = .ok (encode name)) (hlayout : a.layout pool name = .ok l)
    (type : Bytes) : a.appliesAnnotation pool type = true ↔
      ∃ m ∈ l.mentions, m.use = .annotationType ∧ pool.utf8Bytes m.index = .ok type := by
  obtain ⟨list, hfits, hbody⟩ := body_of_layout hname hlayout
  obtain ⟨l', hlayout', -, hmentions⟩ := layout_of_body pool hname hfits hbody
  obtain rfl : l = l' := Except.ok.inj (hlayout.symm.trans hlayout')
  have htypes (i : UInt16) : (∃ m ∈ l.mentions, m.use = .annotationType ∧ m.index = i) ↔
      ∃ t ∈ list, t.type = i := by
    rw [← List.mem_map, ← AnnotationTree.types_of_mentions list 2, hmentions, List.mem_filterMap]
    simp [AnnotationTree.bodyMentions, ite_eq_iff]
  rw [appliesAnnotation_iff]
  constructor
  · rintro ⟨-, list', rest, hfits', hbody', t, ht, hbytes⟩
    obtain ⟨rfl, -⟩ := AnnotationTree.bodyBytes_unique hfits hfits'
      ((List.append_nil _).trans (hbody.symm.trans hbody'))
    obtain ⟨m, hm, huse, hmindex⟩ := (htypes t.type).mpr ⟨t, ht, rfl⟩
    exact ⟨m, hm, huse, hmindex ▸ hbytes⟩
  · rintro ⟨m, hm, huse, hbytes⟩
    obtain ⟨t, ht, htype⟩ := (htypes m.index).mp ⟨m, hm, huse, rfl⟩
    exact ⟨⟨name, hname, hindex⟩, list, [], hfits, by rw [hbody, List.append_nil], t, ht,
      htype ▸ hbytes⟩

/-- Exchanging indices keeps a body that applies annotations one that does. -/
theorem layout_withIndices (hname : name ∈ annotationAttributeNames)
    (hlayout : a.layout pool name = .ok l) (pool' : ConstantPool) (changes : Nat → Option UInt16) :
    layout pool' name { a with body := (Layout.withIndices changes 0 l).toBytes.toArray } =
      .ok (Layout.withIndices changes 0 l) := by
  have hkind := kind_of_mem hname
  obtain ⟨c', hwalk, -⟩ := runOn_eq_ok.mp ((cut_of_known hkind).mp hlayout)
  -- such a body holds no attributes, so nothing has to be known of their names
  have hsteady : Steady (fun _ => True) _ _ :=
    steady_counted (steady_annotationItem (a.body.size + 1) .annotationType)
  have hagain := hsteady.reread hwalk (similar_withIndices changes 0 l) (fun _ _ => trivial) 0 []
  rw [List.append_nil] at hagain
  have hsize : (Layout.withIndices changes 0 l).toBytes.toArray.size = a.body.size := by
    have hbytes : l.toBytes = a.body.toList := ((steadyCut pool pool _).tiling hlayout).symm
    rw [List.size_toArray, (similar_withIndices changes 0 l).length_toBytes, hbytes,
      Array.length_toList]
  rw [layout, hsize]
  exact (cut_of_known hkind).mpr (runOn_eq_ok.mpr ⟨_, hagain, rfl⟩)

end Attribute

/-! ## A class that is renamed -/

namespace ClassFile.RenamedBy

variable {m : NameMapper} {c c' : ClassFile} {pool : ConstantPool}
  {changes : Location → Option UInt16}

/-- An attribute of the class itself, as it is after the renaming. -/
abbrev renamedAttribute (c : ClassFile) (changes : Location → Option UInt16) (i : Nat)
    (a : Attribute) : Attribute :=
  a.withIndices c.pool fun offset => changes (.attributeBody .theClass i offset)

theorem attributes_eq (h : RenamedBy m c c' pool changes) :
    c'.attributes = c.attributes.mapIdx (renamedAttribute c changes) := by
  rw [h.eq]
  rfl

/-- The name of an attribute stays, unless its index was behind the end of the pool. -/
theorem attributeName_eq (h : RenamedBy m c c' pool changes) {a : Attribute} (ha : a ∈ c.attributes)
    (hlt : a.nameIndex.toNat < c.pool.count) :
    c'.pool.utf8Bytes a.nameIndex = c.pool.utf8Bytes a.nameIndex := by
  rw [h.utf8Bytes_eq]
  refine h.pinned _ (pinned_of_usesAttributeName ⟨.theClass, a, ?_, .inl rfl⟩) hlt
  exact Array.mem_toList_iff.mpr ha

/-- A text that is the type of an annotation, before and after. -/
theorem type_iff (h : RenamedBy m c c' pool changes) {x : String} (hx : ';' ∉ x.toList)
    (hkept : m.rename x = x) (honly : ∀ y, m y = some x → y = x) {s : NameSite}
    (hs : site s ∈ c.references) (hrole : s.role = .descriptor) :
    c'.pool.utf8Bytes (newIndex changes s) = .ok (encode ("L" ++ x ++ ";")) ↔
      c.pool.utf8Bytes s.index = .ok (encode ("L" ++ x ++ ";")) := by
  rw [h.utf8Bytes_eq]
  by_cases hchanges : ∃ v w, c.pool.text? s.index = some v ∧ s.role.remap m v = some w
  · obtain ⟨v, w, hv, hremap⟩ := hchanges
    rw [hrole] at hremap
    rw [h.written s hs v w hv (hrole ▸ hremap)]
    constructor
    · intro heq
      obtain rfl : w = "L" ++ x ++ ";" := encode_inj.mp (by simpa using heq)
      exact absurd hremap (Descriptor.remap_ne_object hx honly v)
    · intro heq
      obtain rfl : v = "L" ++ x ++ ";" := Option.some.inj (hv.symm.trans (ConstantPool.text?_encode heq))
      exact absurd hremap (by rw [NameRole.remap, Descriptor.remap_object hx hkept]; simp)
  · rw [h.stays s hs fun v hv => ?_]
    cases hremap : s.role.remap m v with
    | none => rfl
    | some w => exact absurd ⟨v, w, hv, hremap⟩ hchanges

/-- The marker stays where it is the type of an annotation. -/
theorem type_kept (h : RenamedBy m c c' pool changes) {x : String} (hx : ';' ∉ x.toList)
    (hkept : m.rename x = x) {s : NameSite} (hs : site s ∈ c.references)
    (hrole : s.role = .descriptor)
    (htype : c.pool.utf8Bytes s.index = .ok (encode ("L" ++ x ++ ";"))) :
    c'.pool.utf8Bytes (newIndex changes s) = .ok (encode ("L" ++ x ++ ";")) := by
  rw [h.utf8Bytes_eq, h.stays s hs fun v hv => ?_, htype]
  obtain rfl : v = "L" ++ x ++ ";" :=
    Option.some.inj (hv.symm.trans (ConstantPool.text?_encode htype))
  rw [hrole, NameRole.remap, Descriptor.remap_object hx hkept]

/-- An attribute that applies annotations does so after the renaming, with the types that its sites
then refer to. -/
theorem appliesAnnotation_iff (h : RenamedBy m c c' pool changes) {i : Nat} {a : Attribute}
    (ha : c.attributes[i]? = some a) (hreadable : a.Readable c.pool) {name : String}
    (hname : name ∈ annotationAttributeNames)
    (hindex : c.pool.utf8Bytes a.nameIndex = .ok (encode name)) (type : Bytes) :
    Attribute.appliesAnnotation c'.pool type (renamedAttribute c changes i a) = true ↔
      ∃ mention ∈ (a.parts c.pool).mentions, mention.use = .annotationType ∧
        c'.pool.utf8Bytes (newIndex changes
          ⟨.attributeBody .theClass i mention.offset, mention.index, .descriptor⟩) = .ok type := by
  have hmem : a ∈ c.attributes := Array.mem_of_getElem? ha
  have hlt : a.nameIndex.toNat < c.pool.count :=
    ConstantPool.lt_count_of_get? (ConstantPool.utf8Bytes_eq_ok.mp hindex)
  have hafter := Attribute.layout_withIndices hname (Attribute.layout_of_readable hreadable hindex)
    c'.pool fun offset => changes (.attributeBody .theClass i offset)
  have hindex' : c'.pool.utf8Bytes (renamedAttribute c changes i a).nameIndex = .ok (encode name) :=
    (h.attributeName_eq hmem hlt).trans hindex
  rw [Attribute.appliesAnnotation_iff_mention hname hindex' hafter, mentions_eq, mentions_eq,
    mentionsAt_withIndices]
  constructor
  · rintro ⟨_, hm, huse, hbytes⟩
    obtain ⟨mention, hmention, rfl⟩ := List.mem_map.mp hm
    have huse' : mention.use = .annotationType := huse
    refine ⟨mention, hmention, huse', ?_⟩
    simpa only [Mention.withIndex, huse', reduceCtorEq, if_false, newIndex] using hbytes
  · rintro ⟨mention, hmention, huse, hbytes⟩
    refine ⟨_, List.mem_map_of_mem hmention, huse, ?_⟩
    simpa only [Mention.withIndex, huse, reduceCtorEq, if_false, newIndex] using hbytes

/-- The type of an annotation that is applied directly is a name site. -/
theorem site_of_annotationType {i : Nat} {a : Attribute} (ha : c.attributes[i]? = some a)
    {mention : Mention} (hmention : mention ∈ (a.parts c.pool).mentions)
    (huse : mention.use = .annotationType) :
    site ⟨.attributeBody .theClass i mention.offset, mention.index, .descriptor⟩ ∈ c.references := by
  have hown : (c.attributesOf .theClass)[i]? = some a := ha
  refine mem_references_of_attribute hown (List.mem_cons_of_mem _ ?_)
  exact List.mem_map.mpr ⟨mention, hmention, by rw [ofMention, huse]⟩

/-- A marker that a class carries is kept, where its class keeps its name. -/
theorem hasMarker_of_kept (h : RenamedBy m c c' pool changes) (hreadable : c.Readable) {x : String}
    (hx : ';' ∉ x.toList) (hkept : m.rename x = x) (hmarked : c.hasMarker ("L" ++ x ++ ";") = true) :
    c'.hasMarker ("L" ++ x ++ ";") = true := by
  rw [hasMarker, List.any_eq_true] at hmarked ⊢
  obtain ⟨a, ha, happlies⟩ := hmarked
  obtain ⟨i, hi, hget⟩ := List.getElem_of_mem ha
  have hgetArray : c.attributes[i]? = some a := by
    rw [← Array.getElem?_toList, List.getElem?_eq_getElem hi, hget]
  obtain ⟨⟨name, hname, hindex⟩, -⟩ := Attribute.appliesAnnotation_iff.mp happlies
  have hreadableAttribute := hreadable.attributes a ha
  obtain ⟨mention, hmention, huse, htype⟩ := (Attribute.appliesAnnotation_iff_mention hname hindex
    (Attribute.layout_of_readable hreadableAttribute hindex) _).mp happlies
  refine ⟨renamedAttribute c changes i a, ?_, ?_⟩
  · rw [h.attributes_eq, Array.mem_toList_iff]
    exact Array.mem_of_getElem? (by rw [Array.getElem?_mapIdx, hgetArray]; rfl)
  · refine (h.appliesAnnotation_iff hgetArray hreadableAttribute hname hindex _).mpr
      ⟨mention, hmention, huse, ?_⟩
    exact h.type_kept hx hkept (site_of_annotationType hgetArray hmention huse) rfl htype

/-- A renamed class carries no marker that it did not carry before, where no other class gets the
name in the marker and no attribute gets one of the two names. -/
theorem hasMarker_of_renamed (h : RenamedBy m c c' pool changes) (hreadable : c.Readable)
    {x : String} (hx : ';' ∉ x.toList) (hkept : m.rename x = x) (honly : ∀ y, m y = some x → y = x)
    (hbehind : ∀ a ∈ c.attributes, c.pool.count ≤ a.nameIndex.toNat →
      ¬c'.pool.NamesAnnotations a.nameIndex)
    (hmarked : c'.hasMarker ("L" ++ x ++ ";") = true) : c.hasMarker ("L" ++ x ++ ";") = true := by
  rw [hasMarker, List.any_eq_true] at hmarked ⊢
  obtain ⟨a', ha', happlies⟩ := hmarked
  rw [h.attributes_eq, Array.mem_toList_iff, Array.mem_mapIdx] at ha'
  obtain ⟨i, hi, rfl⟩ := ha'
  generalize ha : c.attributes[i] = a at happlies
  have hget : c.attributes[i]? = some a := Array.getElem?_eq_some_iff.mpr ⟨hi, ha⟩
  have hmem : a ∈ c.attributes := Array.mem_of_getElem? hget
  obtain ⟨⟨name, hname, hindex'⟩, -⟩ := Attribute.appliesAnnotation_iff.mp happlies
  have hlt : a.nameIndex.toNat < c.pool.count :=
    Nat.lt_of_not_le fun hle => hbehind a hmem hle ⟨name, hname, hindex'⟩
  have hindex : c.pool.utf8Bytes a.nameIndex = .ok (encode name) :=
    (h.attributeName_eq hmem hlt).symm.trans hindex'
  have hreadableAttribute := hreadable.attributes a (Array.mem_toList_iff.mpr hmem)
  obtain ⟨mention, hmention, huse, htype⟩ :=
    (h.appliesAnnotation_iff hget hreadableAttribute hname hindex _).mp happlies
  refine ⟨a, Array.mem_toList_iff.mpr hmem, (Attribute.appliesAnnotation_iff_mention hname hindex
    (Attribute.layout_of_readable hreadableAttribute hindex) _).mpr ⟨mention, hmention, huse, ?_⟩⟩
  exact (h.type_iff hx hkept honly (site_of_annotationType hget hmention huse) rfl).mp htype

end ClassFile.RenamedBy

end JvmRelocation
