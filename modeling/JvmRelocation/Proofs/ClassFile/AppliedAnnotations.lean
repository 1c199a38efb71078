import JvmRelocation.ClassFile.Summary
import JvmRelocation.Proofs.ClassFile.AnnotationWalk
import JvmRelocation.Proofs.Text.ModifiedUtf8

/-!
# The annotations that an attribute applies

The body of an attribute that applies annotations is the written form of exactly one list of
annotations, and its mentions are those of the list. A class carries an annotation if one of its own
attributes applies it directly: what stands inside another annotation, at a member or in an
attribute of another kind does not count.
-/

namespace JvmRelocation

open Layout

/-! ## Types of annotations applied directly -/

mutual

theorem ElementValue.use_ne_annotationType (v : ElementValue) (offset : Nat) :
    ∀ m ∈ v.mentions offset, m.use ≠ .annotationType := by
  match v with
  | .constant _ _ => simp [ElementValue.mentions]
  | .string _ => simp [ElementValue.mentions]
  | .enumConstant _ _ => simp [ElementValue.mentions]
  | .classLiteral _ => simp [ElementValue.mentions]
  | .nested ⟨type, elements⟩ =>
    rw [ElementValue.mentions, AnnotationTree.mentions, List.forall_mem_cons]
    exact ⟨by simp, AnnotationElement.use_ne_annotationType elements (offset + 4)⟩
  | .array values => exact ElementValue.listUse_ne_annotationType values (offset + 2)

theorem AnnotationElement.use_ne_annotationType (list : List AnnotationElement) (offset : Nat) :
    ∀ m ∈ AnnotationElement.listMentions offset list, m.use ≠ .annotationType := by
  match list with
  | [] => simp [AnnotationElement.listMentions]
  | ⟨name, value⟩ :: rest =>
    rw [AnnotationElement.listMentions, List.forall_mem_append, List.forall_mem_cons]
    exact ⟨⟨by simp, value.use_ne_annotationType (offset + 3)⟩,
      AnnotationElement.use_ne_annotationType rest _⟩

theorem ElementValue.listUse_ne_annotationType (list : List ElementValue) (offset : Nat) :
    ∀ m ∈ ElementValue.listMentions offset list, m.use ≠ .annotationType := by
  match list with
  | [] => simp [ElementValue.listMentions]
  | value :: rest =>
    rw [ElementValue.listMentions, List.forall_mem_append]
    exact ⟨value.use_ne_annotationType (offset + 1),
      ElementValue.listUse_ne_annotationType rest _⟩

end

namespace AnnotationTree

/-- Among the mentions of annotations that are applied directly, their types stand out. -/
theorem types_of_mentions (list : List AnnotationTree) (offset : Nat) :
    ((listMentions offset list).filterMap fun mention =>
      if mention.use = .annotationType then some mention.index else none) = list.map type := by
  induction list generalizing offset with
  | nil => rfl
  | cons a list ih =>
    obtain ⟨type, elements⟩ := a
    have helements : ((AnnotationElement.listMentions (offset + 4) elements).filterMap
        fun mention => if mention.use = .annotationType then some mention.index else none) = [] :=
      List.filterMap_eq_nil_iff.mpr fun m hm =>
        if_neg (AnnotationElement.use_ne_annotationType elements _ m hm)
    simp only [listMentions, mentions, List.filterMap_append, ih, List.filterMap_cons, if_true,
      helements, List.map_cons, List.cons_append, List.nil_append]

end AnnotationTree

/-- An index stands where its mention says. -/
theorem Layout.take_drop_of_mem {offset : Nat} {l : Layout} {m : Mention}
    (h : m ∈ mentionsAt offset l) :
    ((toBytes l).drop (m.offset - offset)).take 2 = BigEndian.bytes16 m.index := by
  induction l generalizing offset with
  | nil => cases h
  | cons part l ih =>
    obtain ⟨here, heq, hhere⟩ := mentionsAt_cons offset part l
    rw [heq, List.mem_append] at h
    rw [toBytes_cons]
    rcases h with h | h
    · obtain ⟨hoffset, rfl⟩ := hhere m h
      rw [hoffset, Nat.sub_self, List.drop_zero]
      rfl
    · have hle := le_offset_of_mem h
      rw [← ih h, ← Nat.sub_sub, List.drop_append, List.drop_eq_nil_of_le (by omega),
        List.nil_append]

/-! ## Attributes that apply annotations -/

namespace Attribute

theorem kind_of_mem {name : String} (h : name ∈ annotationAttributeNames) :
    AttributeKind.ofName? name = some .annotations := by
  unfold AttributeKind.ofName?
  exact if_pos (List.contains_iff_mem.mpr h)

theorem fitsWithin_size {list : List AnnotationTree} {rest : Bytes} {a : Attribute}
    (hfits : AnnotationTree.BodyFits list)
    (hbody : a.body.toList = AnnotationTree.bodyBytes list ++ rest) :
    list.length < 65536 ∧ ∀ t ∈ list, t.FitsWithin (a.body.size + 1) := by
  refine ⟨hfits.1, fun t ht => AnnotationTree.fitsWithin_of_fits (hfits.2 t ht) ?_⟩
  have hmem := length_le_of_mem_flatMap AnnotationTree.toBytes ht
  have hsize := congrArg List.length hbody
  rw [Array.length_toList, AnnotationTree.bodyBytes, countedBytes] at hsize
  simp only [List.length_append] at hsize
  omega

/-- Every list of annotations is cut, and the mentions found are its own. -/
theorem layout_of_body (pool : ConstantPool) {name : String} {a : Attribute}
    {list : List AnnotationTree} (hname : name ∈ annotationAttributeNames)
    (hfits : AnnotationTree.BodyFits list) (hbody : a.body.toList = AnnotationTree.bodyBytes list) :
    ∃ l, a.layout pool name = .ok l ∧ l.toBytes = a.body.toList ∧
      l.mentions = AnnotationTree.bodyMentions list := by
  have hwithin := fitsWithin_size hfits (hbody.trans (List.append_nil _).symm)
  obtain ⟨l, hwalk, hbytes, hmentions⟩ := (AnnotationTree.walks_body _).complete list hwithin 0 []
  rw [List.append_nil, ← hbody] at hwalk
  exact ⟨l, (cut_of_known (kind_of_mem hname)).mpr (runOn_eq_ok.mpr ⟨_, hwalk, rfl⟩),
    hbytes.trans hbody.symm, (mentions_eq l).trans (hmentions 0)⟩

/-- Every body that is cut is the written form of a list of annotations. -/
theorem body_of_layout {pool : ConstantPool} {name : String} {a : Attribute} {l : Layout}
    (hname : name ∈ annotationAttributeNames) (h : a.layout pool name = .ok l) :
    ∃ list, AnnotationTree.BodyFits list ∧ a.body.toList = AnnotationTree.bodyBytes list := by
  obtain ⟨c', hwalk, hend⟩ := runOn_eq_ok.mp ((cut_of_known (kind_of_mem hname)).mp h)
  obtain ⟨list, ⟨hlength, hwithin⟩, hbody, -⟩ := (AnnotationTree.walks_body _).sound _ _ _ hwalk
  rw [hend, List.append_nil] at hbody
  exact ⟨list, ⟨hlength, fun t ht => AnnotationTree.fits_of_fitsWithin (hwithin t ht)⟩, hbody⟩

end Attribute

/-- Bytes start with the written form of at most one list of annotations. -/
theorem AnnotationTree.bodyBytes_unique {list list' : List AnnotationTree} {rest rest' : Bytes}
    (hfits : BodyFits list) (hfits' : BodyFits list')
    (h : bodyBytes list ++ rest = bodyBytes list' ++ rest') : list = list' ∧ rest = rest' := by
  have hwithin : list.length < 65536 ∧
      ∀ t ∈ list, t.FitsWithin ((bodyBytes list ++ rest).length + 1) :=
    Attribute.fitsWithin_size (a := ⟨0, (bodyBytes list ++ rest).toArray⟩) hfits rfl
  have hwithin' : list'.length < 65536 ∧
      ∀ t ∈ list', t.FitsWithin ((bodyBytes list ++ rest).length + 1) :=
    Attribute.fitsWithin_size (a := ⟨0, (bodyBytes list ++ rest).toArray⟩) hfits' h
  exact (AnnotationTree.walks_body _).unique _ _ _ _ hwithin hwithin' h

/-- The types are those of the list of annotations that the body starts with. -/
theorem Attribute.annotationTypes_eq_ok_iff {a : Attribute} {types : List UInt16} :
    a.annotationTypes = .ok types ↔ ∃ list rest, AnnotationTree.BodyFits list ∧
      a.body.toList = AnnotationTree.bodyBytes list ++ rest ∧ types = list.map AnnotationTree.type := by
  -- the types that are found in what is cut off a written list
  have htypes {list : List AnnotationTree} {rest : Bytes} (hfits : AnnotationTree.BodyFits list)
      (hbody : a.body.toList = AnnotationTree.bodyBytes list ++ rest) :
      a.annotationTypes = .ok (list.map AnnotationTree.type) := by
    obtain ⟨l, hwalk, -, hmentions⟩ :=
      (AnnotationTree.walks_body _).complete list (fitsWithin_size hfits hbody) 0 rest
    rw [← hbody] at hwalk
    rw [annotationTypes, exceptBind_eq_ok]
    refine ⟨(l, rest), runOn_eq_ok.mpr ⟨_, hwalk, rfl⟩, ?_⟩
    simp only [mentions_eq, hmentions, AnnotationTree.types_of_mentions]
    rfl
  constructor
  · intro h
    obtain ⟨⟨l, rest⟩, hrun, -⟩ := exceptBind_eq_ok.mp h
    obtain ⟨c', hwalk, -⟩ := runOn_eq_ok.mp hrun
    obtain ⟨list, ⟨hlength, hwithin⟩, hbody, -⟩ := (AnnotationTree.walks_body _).sound _ _ _ hwalk
    have hfits : AnnotationTree.BodyFits list :=
      ⟨hlength, fun t ht => AnnotationTree.fits_of_fitsWithin (hwithin t ht)⟩
    exact ⟨list, c'.rest, hfits, hbody, Except.ok.inj (h.symm.trans (htypes hfits hbody))⟩
  · rintro ⟨list, rest, hfits, hbody, rfl⟩
    exact htypes hfits hbody

/-! ## Markers -/

/-- The index denotes the name of an attribute that applies annotations. -/
def ConstantPool.NamesAnnotations (pool : ConstantPool) (index : UInt16) : Prop :=
  ∃ name ∈ annotationAttributeNames, pool.utf8Bytes index = .ok (ModifiedUtf8.encode name)

theorem ModifiedUtf8.encode_inj {s t : String} : encode s = encode t ↔ s = t := by
  constructor
  · intro h
    have hdecode := congrArg decode h
    rwa [decode_encode, decode_encode, Option.some.injEq] at hdecode
  · rintro rfl
    rfl

/-- An attribute applies an annotation if its body starts with a list in which one of the
annotations has the type. -/
theorem Attribute.appliesAnnotation_iff {pool : ConstantPool} {type : Bytes} {a : Attribute} :
    a.appliesAnnotation pool type = true ↔ pool.NamesAnnotations a.nameIndex ∧
      ∃ list rest, AnnotationTree.BodyFits list ∧ a.body.toList = AnnotationTree.bodyBytes list ++ rest ∧
        ∃ t ∈ list, pool.utf8Bytes t.type = .ok type := by
  rw [ConstantPool.NamesAnnotations, appliesAnnotation]
  cases hname : pool.utf8Bytes a.nameIndex with
  | error e => simp
  | ok name =>
    simp only [Bool.and_eq_true, List.contains_iff_mem, List.mem_map, Except.ok.injEq]
    refine and_congr ⟨fun ⟨n, hn, heq⟩ => ⟨n, hn, heq.symm⟩, fun ⟨n, hn, heq⟩ => ⟨n, hn, heq.symm⟩⟩ ?_
    cases htypes : a.annotationTypes with
    | error e =>
      simp only [Bool.false_eq_true, false_iff]
      rintro ⟨list, rest, hfits, hbody, -⟩
      rw [annotationTypes_eq_ok_iff.mpr ⟨list, rest, hfits, hbody, rfl⟩] at htypes
      cases htypes
    | ok types =>
      obtain ⟨list, rest, hfits, hbody, rfl⟩ := annotationTypes_eq_ok_iff.mp htypes
      simp only [List.any_map, List.any_eq_true, Function.comp_apply]
      constructor
      · rintro ⟨t, ht, hbytes⟩
        split at hbytes
        case h_1 bytes hok => exact ⟨list, rest, hfits, hbody, t, ht, by rw [hok, eq_of_beq hbytes]⟩
        case h_2 => cases hbytes
      · rintro ⟨list', rest', hfits', hbody', t, ht, hbytes⟩
        obtain ⟨rfl, -⟩ := AnnotationTree.bodyBytes_unique hfits hfits' (hbody.symm.trans hbody')
        exact ⟨t, ht, by simp [hbytes]⟩

/-- A class carries an annotation if one of its attributes applies it. -/
theorem ClassFile.hasMarker_iff {c : ClassFile} {marker : String} : c.hasMarker marker = true ↔
    ∃ a ∈ c.attributes, c.pool.NamesAnnotations a.nameIndex ∧
      ∃ list rest, AnnotationTree.BodyFits list ∧ a.body.toList = AnnotationTree.bodyBytes list ++ rest ∧
        ∃ t ∈ list, c.pool.utf8Bytes t.type = .ok (ModifiedUtf8.encode marker) := by
  simp only [hasMarker, List.any_eq_true, Attribute.appliesAnnotation_iff, Array.mem_toList_iff]

/-- **Bodies that apply annotations are walked exactly, and markers are found at top level only.**
Every list of annotations is cut where it is written, with its own mentions at the places where
their indices stand, and whatever is cut is the written form of exactly one list. The types are told
whatever stands behind the list. So a class carries a marker exactly if one of its own attributes
with one of the two names starts with a list in which an annotation has the marker as its type, and
everything else in the class is without influence. -/
theorem walks_annotations_exactly :
    (∀ (pool : ConstantPool) (name : String) (a : Attribute), name ∈ annotationAttributeNames →
      (∀ list, AnnotationTree.BodyFits list → a.body.toList = AnnotationTree.bodyBytes list →
        ∃ l, a.layout pool name = .ok l ∧ l.toBytes = a.body.toList ∧
          l.mentions = AnnotationTree.bodyMentions list ∧
          ∀ m ∈ l.mentions, (a.body.toList.drop m.offset).take 2 = BigEndian.bytes16 m.index) ∧
      ∀ l, a.layout pool name = .ok l →
        ∃! list, AnnotationTree.BodyFits list ∧ a.body.toList = AnnotationTree.bodyBytes list) ∧
    (∀ (a : Attribute) (list : List AnnotationTree) (rest : Bytes), AnnotationTree.BodyFits list →
      a.body.toList = AnnotationTree.bodyBytes list ++ rest →
        a.annotationTypes = .ok (list.map AnnotationTree.type)) ∧
    (∀ (c : ClassFile) (marker : String), c.hasMarker marker = true ↔
      ∃ a ∈ c.attributes, c.pool.NamesAnnotations a.nameIndex ∧
        ∃ list rest, AnnotationTree.BodyFits list ∧
          a.body.toList = AnnotationTree.bodyBytes list ++ rest ∧
          ∃ t ∈ list, c.pool.utf8Bytes t.type = .ok (ModifiedUtf8.encode marker)) ∧
    ∀ (c c' : ClassFile) (marker : String), c.pool = c'.pool →
      (∀ a, c.pool.NamesAnnotations a.nameIndex → (a ∈ c.attributes ↔ a ∈ c'.attributes)) →
        c.hasMarker marker = c'.hasMarker marker := by
  refine ⟨fun pool name a hname => ⟨fun list hfits hbody => ?_, fun l h => ?_⟩,
    fun a list rest hfits hbody => ?_, fun c marker => ClassFile.hasMarker_iff,
    fun c c' marker hpool hsame => ?_⟩
  · obtain ⟨l, hlayout, hbytes, hmentions⟩ :=
      Attribute.layout_of_body pool hname hfits hbody
    refine ⟨l, hlayout, hbytes, hmentions, fun m hm => ?_⟩
    rw [mentions_eq] at hm
    rw [← hbytes]
    exact take_drop_of_mem hm
  · obtain ⟨list, hfits, hbody⟩ := Attribute.body_of_layout hname h
    refine ⟨list, ⟨hfits, hbody⟩, fun list' ⟨hfits', hbody'⟩ => ?_⟩
    exact (AnnotationTree.bodyBytes_unique hfits' hfits
      (congrArg (· ++ []) (hbody'.symm.trans hbody))).1
  · exact Attribute.annotationTypes_eq_ok_iff.mpr ⟨list, rest, hfits, hbody, rfl⟩
  · rw [Bool.eq_iff_iff, ClassFile.hasMarker_iff, ClassFile.hasMarker_iff, ← hpool]
    constructor
    · rintro ⟨a, ha, hname, hlist⟩
      exact ⟨a, (hsame a hname).mp ha, hname, hlist⟩
    · rintro ⟨a, ha, hname, hlist⟩
      exact ⟨a, (hsame a hname).mpr ha, hname, hlist⟩

/-- Two annotations, the first of which holds another one inside an array. -/
def nestedAnnotations : List AnnotationTree :=
  [⟨5, [⟨6, .array [.nested ⟨7, [⟨8, .constant .int 9⟩]⟩, .string 10]⟩,
      ⟨11, .enumConstant 12 13⟩]⟩,
    ⟨14, [⟨15, .classLiteral 16⟩]⟩]

theorem walks_annotations_exactly_nested :
    AnnotationTree.BodyFits nestedAnnotations ∧
      (∃ l, Attribute.layout ⟨#[]⟩ "RuntimeVisibleAnnotations"
          ⟨1, (AnnotationTree.bodyBytes nestedAnnotations).toArray⟩ = .ok l ∧
        l.mentions = [⟨2, 5, .annotationType⟩, ⟨6, 6, .pinned⟩, ⟨12, 7, .name .descriptor⟩,
          ⟨16, 8, .pinned⟩, ⟨22, 10, .pinned⟩, ⟨24, 11, .pinned⟩, ⟨27, 12, .name .descriptor⟩,
          ⟨29, 13, .pinned⟩, ⟨31, 14, .annotationType⟩, ⟨35, 15, .pinned⟩,
          ⟨38, 16, .name .descriptor⟩]) ∧
      Attribute.annotationTypes ⟨1, (AnnotationTree.bodyBytes nestedAnnotations ++ [1, 2]).toArray⟩ =
        .ok [5, 14] := by
  have hfits : AnnotationTree.BodyFits nestedAnnotations := by
    simp [AnnotationTree.BodyFits, nestedAnnotations, AnnotationTree.Fits, AnnotationElement.AllFit,
      ElementValue.Fits, ElementValue.AllFit]
  obtain ⟨hcut, htypes, -⟩ := walks_annotations_exactly
  obtain ⟨l, hlayout, -, hmentions, -⟩ := (hcut ⟨#[]⟩ "RuntimeVisibleAnnotations"
    ⟨1, (AnnotationTree.bodyBytes nestedAnnotations).toArray⟩ (by decide)).1 _ hfits rfl
  exact ⟨hfits, ⟨l, hlayout, hmentions.trans (by decide)⟩, htypes _ _ [1, 2] hfits rfl⟩

end JvmRelocation
