import JvmRelocation.ClassFile.Layout
import JvmRelocation.Proofs.Name.TaggedRenaming

/-!
# Texts under a tag

What the renamings of a relocation do to a text in any role: the classes that it mentions in the end
have no new names, and renaming one class first does not matter. Both hold of class names and
descriptors without more ado; for signatures they depend on its inner classes.
-/

namespace JvmRelocation

/-! ## Mappers under a tag keep names in form -/

theorem ProperLabel.relocatedName {tag name : String} (htag : ProperLabel tag)
    (hname : ProperLabel name) : ProperLabel (relocatedName tag name) := by
  intro c hc
  simp only [JvmRelocation.relocatedName, String.toList_append, List.mem_append] at hc
  obtain (hc | hc) | hc := hc
  · exact htag c hc
  · obtain rfl : c = '/' := by simpa using hc
    rfl
  · exact hname c hc

theorem ValidTag.properLabel {tag : String} (h : ValidTag tag) (hbracket : '<' ∉ tag.toList) :
    ProperLabel tag := by
  intro c hc
  have hdot : c ≠ '.' := by
    rintro rfl
    exact h.not_mem (by decide) hc
  have hsemicolon : c ≠ ';' := by
    rintro rfl
    exact h.not_mem (by decide) hc
  have hopen : c ≠ '<' := by
    rintro rfl
    exact hbracket hc
  simp [SignatureReader.endsName, hdot, hsemicolon, hopen]

theorem Tags.keepsLabels {tag : String} {m : NameMapper} (hm : Tags tag m) (htag : ProperLabel tag) :
    KeepsLabels m := by
  intro name target htarget hname
  rw [hm _ _ htarget]
  exact htag.relocatedName hname

theorem Tags.keepsNames {tag : String} {m : NameMapper} (hm : Tags tag m) (htag : ValidTag tag) :
    Descriptor.KeepsNames m := by
  intro name target htarget hname hmem
  rw [hm _ _ htarget] at hmem
  simp only [relocatedName, String.toList_append, List.mem_append] at hmem
  obtain (hmem | hmem) | hmem := hmem
  · exact htag.not_mem (by decide) hmem
  · exact absurd hmem (by decide)
  · exact hname hmem

theorem Staged.tags_first {tag : String} {m₁ m : NameMapper} (h : Staged tag m₁ m) : Tags tag m₁ :=
  fun _ _ htarget => h.tags _ _ (h.sub _ _ htarget)

namespace NameRole

/-! ## One class first -/

/-- The inner classes in a text, which only a signature has. -/
def innerSegments (text : String) : NameRole → List InnerSegment
  | signature => ((Signature.parse text).map Signature.innerSegments).getD []
  | _ => []

section Staged

variable {tag : String} {m₁ m : NameMapper} {text : String}

theorem isArray_rename (hm : Tags tag m) (htag : ValidTag tag) (h : isArray text = false) :
    isArray (m.rename text) = false := by
  rw [NameMapper.rename]
  cases htarget : m text with
  | none => exact h
  | some target =>
    rw [hm _ _ htarget]
    exact isArray_relocatedName htag text

/-- **One class first.** A text becomes the same whether or not one class is renamed first, if the
simple names of inner classes come out as they were. -/
theorem renamed_single {first : String} {role : NameRole}
    (hm : Staged tag (.single first (relocatedName tag first)) m) (htag : ValidTag tag)
    (hbracket : '<' ∉ tag.toList) (h : ∀ s ∈ role.innerSegments text, s.Stable tag first m) :
    role.renamed m (role.renamed (.single first (relocatedName tag first)) text) =
      role.renamed m text := by
  have hnames := hm.tags_first.keepsNames htag
  cases role with
  | className =>
    cases harray : isArray text with
    | true =>
      rw [renamed_of_isArray (isArray_renamed harray _), renamed_of_isArray harray,
        renamed_of_isArray harray, Descriptor.renamed_renamed hnames hm.rename_rename]
    | false =>
      have hplain := isArray_rename hm.tags_first htag harray
      rw [renamed_of_not_isArray harray, renamed_of_not_isArray hplain, renamed_of_not_isArray harray,
        hm.rename_rename]
  | descriptor => exact Descriptor.renamed_renamed hnames hm.rename_rename text
  | signature =>
    cases hparse : Signature.parse text with
    | none => rw [renamed_of_parse_none hparse]
    | some s =>
      have hparse₁ :=
        parse_renamed (hm.tags_first.keepsLabels (htag.properLabel hbracket)) hparse
      rw [renamed_signature hparse₁, renamed_signature hparse]
      have hsegments : ∀ s' ∈ s.innerSegments, s'.Stable tag first m := by
        simpa [innerSegments, hparse] using h
      rw [Signature.rename_rename fun t ht => TypeSignature.rename_single hm fun s' hs' =>
        hsegments s' (List.mem_flatMap.mpr ⟨t, ht, hs'⟩)]

/-! ## What is left of old names -/

/-- A text that can be read to its end: every object type of a descriptor closes, and a signature is
one. -/
def Legible (text : String) : NameRole → Prop
  | className => isArray text = true → (Descriptor.ofText text.toList).isClosed = true
  | descriptor => (Descriptor.ofText text.toList).isClosed = true
  | signature => ∃ s, Signature.parse text = some s

instance (text : String) (role : NameRole) : Decidable (role.Legible text) :=
  match role with
  | className => inferInstanceAs (Decidable (_ → _))
  | descriptor => inferInstanceAs (Decidable (_ = _))
  | signature => decidable_of_iff ((Signature.parse text).isSome = true) Option.isSome_iff_exists

theorem isClosed_renamed (hm : Descriptor.KeepsNames m)
    (h : (Descriptor.ofText text.toList).isClosed = true) :
    (Descriptor.ofText (Descriptor.renamed m text).toList).isClosed = true := by
  rw [Descriptor.ofText_renamed hm h, Descriptor.isClosed_rename, h]

theorem namesIn_renamed_renamed (hm : Staged tag m₁ m) (htag : ValidTag tag)
    (h : (Descriptor.ofText text.toList).isClosed = true) :
    ∀ name ∈ Descriptor.namesIn (Descriptor.renamed m (Descriptor.renamed m₁ text)), m name = none := by
  have hnames₁ := hm.tags_first.keepsNames htag
  rw [Descriptor.namesIn_renamed (hm.tags.keepsNames htag) (isClosed_renamed hnames₁ h),
    Descriptor.namesIn_renamed hnames₁ h, List.map_map]
  intro name hname
  obtain ⟨old, -, rfl⟩ := List.mem_map.mp hname
  exact hm.rename_eq_none (m₁.rename old)

/-- **What is left of old names.** After both renamings a text that can be read mentions no class
that has a new name. -/
theorem names_renamed_renamed {role : NameRole} (hm : Staged tag m₁ m) (htag : ValidTag tag)
    (hbracket : '<' ∉ tag.toList) (hlegible : role.Legible text)
    (h : ∀ s ∈ role.innerSegments text, s.Settled tag m) :
    ∀ name ∈ role.names (role.renamed m (role.renamed m₁ text)), m name = none := by
  cases role with
  | className =>
    cases harray : isArray text with
    | true =>
      have harray₁ := isArray_renamed harray m₁
      rw [names, if_pos (isArray_renamed harray₁ m), renamed_of_isArray harray₁,
        renamed_of_isArray harray]
      exact namesIn_renamed_renamed hm htag (hlegible harray)
    | false =>
      have hplain₁ := isArray_rename hm.tags_first htag harray
      have hplain := isArray_rename hm.tags htag hplain₁
      rw [renamed_of_not_isArray harray, renamed_of_not_isArray hplain₁, names, hplain,
        if_neg Bool.false_ne_true, List.forall_mem_singleton]
      exact hm.rename_eq_none _
  | descriptor => exact namesIn_renamed_renamed hm htag hlegible
  | signature =>
    obtain ⟨s, hparse⟩ := hlegible
    have hlabel := htag.properLabel hbracket
    have hparse₁ := parse_renamed (hm.tags_first.keepsLabels hlabel) hparse
    have hsegments : ∀ s' ∈ s.innerSegments, s'.Settled tag m := by
      simpa [innerSegments, hparse] using h
    rw [names_signature (parse_renamed (hm.tags.keepsLabels hlabel) hparse₁), Signature.names,
      Signature.types_rename, Signature.types_rename]
    intro name hname
    obtain ⟨t', ht', hname⟩ := List.mem_flatMap.mp hname
    rw [List.map_map] at ht'
    obtain ⟨t, ht, rfl⟩ := List.mem_map.mp ht'
    exact TypeSignature.names_rename_rename hm
      (fun s' hs' => hsegments s' (List.mem_flatMap.mpr ⟨t, ht, hs'⟩)) name hname

end Staged

end NameRole

/-! ## Written texts and the names of attributes -/

/-- The names of the attributes that are known. -/
def knownAttributeNames : List String :=
  annotationAttributeNames ++ ["Code", "Signature", "LocalVariableTable", "LocalVariableTypeTable",
    "RuntimeVisibleParameterAnnotations", "RuntimeInvisibleParameterAnnotations",
    "RuntimeVisibleTypeAnnotations", "RuntimeInvisibleTypeAnnotations", "AnnotationDefault", "Record",
    "SourceFile", "InnerClasses", "MethodParameters"]

theorem mem_knownAttributeNames {name : String} (h : AttributeKind.ofName? name ≠ none) :
    name ∈ knownAttributeNames := by
  rw [knownAttributeNames, List.mem_append]
  unfold AttributeKind.ofName? at h
  split at h
  case isTrue hannotations => exact .inl (by simpa using hannotations)
  case isFalse =>
    right
    split at h
    case h_14 => exact absurd rfl h
    all_goals simp

/-- The names of known attributes mention no class and lie in no package. -/
theorem knownAttributeNames_plain : ∀ name ∈ knownAttributeNames, '/' ∉ name.toList ∧
    Descriptor.namesIn name = [] ∧ ∀ s, Signature.parse name = some s → s.labels = [] := by
  have hcheck : (knownAttributeNames.all fun name => !name.toList.contains '/' &&
      (Descriptor.namesIn name).isEmpty &&
        (Signature.parse name).all fun s => s.labels.isEmpty) = true := by
    decide +kernel
  intro name hname
  have := List.all_eq_true.mp hcheck name hname
  simp only [Bool.and_eq_true, List.isEmpty_iff] at this
  obtain ⟨⟨hslash, hnames⟩, hlabels⟩ := this
  refine ⟨by simpa using hslash, hnames, fun s hs => ?_⟩
  rw [hs] at hlabels
  simpa using hlabels

theorem namesIn_of_remap {m : NameMapper} (hm : Descriptor.KeepsNames m) {text w : String}
    (h : Descriptor.remap m text = some w) : Descriptor.namesIn w ≠ [] := by
  have hw : Descriptor.renamed m text = w := by rw [Descriptor.renamed, h, Option.getD_some]
  rw [Descriptor.remap] at h
  split at h
  case isFalse => cases h
  case isTrue hdiffers =>
    simp only [Bool.and_eq_true, bne_iff_ne] at hdiffers
    obtain ⟨hclosed, hnames⟩ := hdiffers
    rw [← hw, Descriptor.namesIn_renamed hm hclosed]
    intro hnil
    rw [Descriptor.names_rename] at hnames
    rw [List.map_eq_nil_iff, Descriptor.namesIn] at hnil
    rw [hnil] at hnames
    exact hnames rfl

theorem labels_of_remap {m : NameMapper} (hm : KeepsLabels m) {text w : String}
    (h : NameRole.signature.remap m text = some w) :
    ∃ s, Signature.parse w = some s ∧ s.labels ≠ [] := by
  have hw : NameRole.signature.renamed m text = w := by
    rw [NameRole.renamed, h, Option.getD_some]
  cases hparse : Signature.parse text with
  | none =>
    rw [NameRole.remap_of_parse_none hparse] at h
    cases h
  | some s =>
    refine ⟨s.rename m, hw ▸ NameRole.parse_renamed hm hparse, fun hnil => ?_⟩
    obtain ⟨c, hread⟩ := Signature.read_eq_ok hparse
    have hlabels : (s.rename m).labels ≠ s.labels := by
      intro heq
      rw [NameRole.remap, Signature.remap, hread] at h
      simp [heq] at h
    have hlength := s.length_labels_rename m
    rw [hnil, List.length_nil] at hlength
    exact hlabels (hnil.trans (List.length_eq_zero_iff.mp hlength.symm).symm)

/-- No text that is written under a tag is the name of a known attribute. -/
theorem ofName?_of_remap {tag : String} {m : NameMapper} (hm : Tags tag m) (htag : ValidTag tag)
    (hbracket : '<' ∉ tag.toList) {role : NameRole} {text w : String}
    (h : role.remap m text = some w) : AttributeKind.ofName? w = none := by
  by_contra hknown
  obtain ⟨hslash, hnames, hlabels⟩ := knownAttributeNames_plain w (mem_knownAttributeNames hknown)
  cases role with
  | className =>
    rw [NameRole.remap] at h
    split at h
    case isTrue => exact namesIn_of_remap (hm.keepsNames htag) h hnames
    case isFalse =>
      obtain ⟨htarget, -⟩ := Option.filter_eq_some_iff.mp h
      rw [hm _ _ htarget] at hslash
      exact hslash (by simp [relocatedName, String.toList_append])
  | descriptor => exact namesIn_of_remap (hm.keepsNames htag) h hnames
  | signature =>
    obtain ⟨s, hparse, hne⟩ := labels_of_remap (hm.keepsLabels (htag.properLabel hbracket)) h
    exact hne (hlabels s hparse)

end JvmRelocation
