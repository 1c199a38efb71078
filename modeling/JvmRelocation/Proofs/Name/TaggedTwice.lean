import JvmRelocation.Proofs.Name.StagedTexts

/-!
# Renaming the same texts twice

Where every class goes to its old name below a tag, and no new name is an old one, a second renaming
has nothing left to do: not in a class name, not in a descriptor, and not in a signature whose inner
classes keep their simple names. An inner class whose simple name is cut may be taken for another
class the second time.
-/

namespace JvmRelocation

/-! ## Inner classes -/

/-- The simple name that is written for an inner class which gets a new name while the class around
it keeps its own. -/
def InnerSegment.rewritten (tag : String) (s : InnerSegment) : String :=
  simpleName s.enclosing (relocatedName tag s.full)

/-- An inner class is left alone by a second renaming. -/
structure InnerSegment.Lasting (tag : String) (m : NameMapper) (s : InnerSegment) : Prop where
  /-- If the inner class has a new name and no class around it is known to have one, its simple name
  comes out as it was, or it is not taken for the beginning of a name that has a new one. -/
  unmarked : m s.outermost = none → m s.enclosing = none → (m s.full).isSome = true →
    s.rewritten tag = s.simple ∨ ∀ rest, m (innerName s.enclosing (s.rewritten tag) ++ rest) = none
  /-- If the outermost class has a new name, and so has what the inner class is called below it, the
  simple name comes out as it was. -/
  marked : (m s.outermost).isSome = true → m (relocatedName tag s.enclosing) = none →
    (m (relocatedName tag s.full)).isSome = true → s.rewritten tag = s.simple

section Twice

variable {tag : String} {m : NameMapper}

/-- Why a second renaming keeps the labels of inner classes. The class around is `outer` at first and
`between` after the first renaming; the second one turns it into `target`. -/
inductive KeepsInner (tag : String) (m : NameMapper) (outermost outer between target : String) : Prop
  /-- It is put below the tag. -/
  | below (htarget : target = relocatedName tag between)
  /-- It stays below the tag, where it came with its outermost class. -/
  | marked (hmarked : (m outermost).isSome = true) (hbetween : between = relocatedName tag outer)
      (hnone : m between = none) (htarget : target = between)
  /-- No class inside it has a new name. -/
  | clear (hclear : ∀ name, m (innerName between name) = none)

/-- What is known of the class around is known of an inner class again. -/
theorem KeepsInner.inner (hm : Tags tag m) {outermost outer between target name : String}
    (h : KeepsInner tag m outermost outer between target)
    (hlasting : InnerSegment.Lasting tag m ⟨outermost, outer, name⟩) (list : List TypeSuffix) :
    ∃ next, KeepsInner tag m outermost (innerName outer name) (innerName between name) next ∧
      TypeSuffix.renameList m between target (.inner name :: list) =
        .inner name :: TypeSuffix.renameList m (innerName between name) next list := by
  cases h with
  | below htarget =>
    rw [htarget]
    exact ⟨_, .below rfl, TypeSuffix.renameList_inner_below hm between name list⟩
  | marked hmarked hbetween hnone htarget =>
    subst hbetween
    rw [htarget]
    have hfull := relocatedName_innerName tag outer name
    cases hreplaced : m (relocatedName tag (innerName outer name)) with
    | none =>
      rw [TypeSuffix.renameList_inner_none (hfull ▸ hreplaced), ← hfull]
      exact ⟨_, .marked hmarked rfl hreplaced rfl, rfl⟩
    | some replaced =>
      obtain rfl := hm _ _ hreplaced
      have hlabel := hlasting.marked hmarked hnone (by rw [InnerSegment.full, hreplaced]; rfl)
      rw [TypeSuffix.renameList_inner_some (hfull ▸ hreplaced), ← hfull, simpleName_below_tag hlabel]
      exact ⟨_, .below rfl, rfl⟩
  | clear hclear =>
    rw [TypeSuffix.renameList_inner_none (hclear name)]
    exact ⟨_, .clear fun inner => by rw [innerName_innerName, hclear], rfl⟩

mutual

theorem TypeSignature.rename_twice (hm : Staged tag m m) {t : TypeSignature}
    (h : ∀ s ∈ t.innerSegments, s.Lasting tag m) : (t.rename m).rename m = t.rename m := by
  match t with
  | .base letter => rfl
  | .array element =>
    rw [TypeSignature.rename, TypeSignature.rename, TypeSignature.rename_twice hm (t := element) h]
  | .typeVariable name => rfl
  | .classType name suffixes =>
    rw [TypeSignature.innerSegments] at h
    rw [TypeSignature.rename, TypeSignature.rename, hm.rename_rename]
    cases hname : m name with
    | none =>
      have hkept : m.rename name = name := by rw [NameMapper.rename, hname, Option.getD_none]
      rw [hkept, TypeSuffix.renameList_twice_unmarked hm hname hname h]
    | some target =>
      have hmarked : (m name).isSome = true := by rw [hname]; rfl
      have hnew : m.rename name = relocatedName tag name := by
        rw [NameMapper.rename, hname, Option.getD_some, hm.tags _ _ hname]
      rw [hnew, TypeSuffix.renameList_twice_below hm
        (.marked hmarked rfl (hm.fresh name hmarked) rfl) h]

/-- Where no class around an inner one has a new name, the second renaming looks up what the first
one has looked up, until it comes to an inner class that has a new name. -/
theorem TypeSuffix.renameList_twice_unmarked (hm : Staged tag m m) {list : List TypeSuffix}
    {outermost outer : String} (houtermost : m outermost = none) (houter : m outer = none)
    (h : ∀ s ∈ TypeSuffix.listInnerSegments outermost outer list, s.Lasting tag m) :
    TypeSuffix.renameList m outer outer (TypeSuffix.renameList m outer outer list) =
      TypeSuffix.renameList m outer outer list := by
  match list with
  | [] => rfl
  | .arguments inside :: list =>
    rw [TypeSuffix.listInnerSegments, List.forall_mem_append] at h
    rw [TypeSuffix.renameList, TypeSuffix.renameList, TypeArgument.renameList_twice hm h.1,
      TypeSuffix.renameList_twice_unmarked hm houtermost houter h.2]
  | .inner name :: list =>
    rw [TypeSuffix.listInnerSegments, List.forall_mem_cons] at h
    cases hfull : m (innerName outer name) with
    | none =>
      rw [TypeSuffix.renameList_inner_none hfull, TypeSuffix.renameList_inner_none hfull,
        TypeSuffix.renameList_twice_unmarked hm houtermost hfull h.2]
    | some replaced =>
      obtain rfl := hm.tags _ _ hfull
      rw [TypeSuffix.renameList_inner_some hfull]
      have hlabel := h.1.unmarked houtermost houter (by rw [InnerSegment.full, hfull]; rfl)
      rw [InnerSegment.rewritten, InnerSegment.full] at hlabel
      dsimp only at hlabel
      rcases hlabel with hsame | hclear
      · rw [hsame, TypeSuffix.renameList_inner_some hfull, hsame,
          TypeSuffix.renameList_twice_below hm (.below rfl) h.2]
      · have hnone : m (innerName outer (simpleName outer
            (relocatedName tag (innerName outer name)))) = none := by
          simpa using hclear ""
        rw [TypeSuffix.renameList_inner_none hnone, TypeSuffix.renameList_twice_below hm
          (.clear fun inner => ?_) h.2]
        simpa [innerName, String.append_assoc] using hclear ("$" ++ inner)

/-- Where the first renaming keeps the labels of inner classes, so does the second one. -/
theorem TypeSuffix.renameList_twice_below (hm : Staged tag m m) {list : List TypeSuffix}
    {outermost outer between target : String}
    (hkeeps : KeepsInner tag m outermost outer between target)
    (h : ∀ s ∈ TypeSuffix.listInnerSegments outermost outer list, s.Lasting tag m) :
    TypeSuffix.renameList m between target
        (TypeSuffix.renameList m outer (relocatedName tag outer) list) =
      TypeSuffix.renameList m outer (relocatedName tag outer) list := by
  match list with
  | [] => rfl
  | .arguments inside :: list =>
    rw [TypeSuffix.listInnerSegments, List.forall_mem_append] at h
    rw [TypeSuffix.renameList, TypeSuffix.renameList, TypeArgument.renameList_twice hm h.1,
      TypeSuffix.renameList_twice_below hm hkeeps h.2]
  | .inner name :: list =>
    rw [TypeSuffix.listInnerSegments, List.forall_mem_cons] at h
    rw [TypeSuffix.renameList_inner_below hm.tags]
    obtain ⟨next, hnext, hkept⟩ := hkeeps.inner hm.tags h.1
      (TypeSuffix.renameList m (innerName outer name) (relocatedName tag (innerName outer name)) list)
    rw [hkept, TypeSuffix.renameList_twice_below hm hnext h.2]

theorem TypeArgument.renameList_twice (hm : Staged tag m m) {list : List TypeArgument}
    (h : ∀ s ∈ TypeArgument.listInnerSegments list, s.Lasting tag m) :
    TypeArgument.renameList m (TypeArgument.renameList m list) = TypeArgument.renameList m list := by
  match list with
  | [] => rfl
  | .wildcard :: list =>
    rw [TypeArgument.listInnerSegments] at h
    rw [TypeArgument.renameList, TypeArgument.renameList, TypeArgument.renameList_twice hm h]
  | .subtypeOf bound :: list | .supertypeOf bound :: list | .exactly bound :: list =>
    rw [TypeArgument.listInnerSegments, List.forall_mem_append] at h
    rw [TypeArgument.renameList, TypeArgument.renameList, TypeSignature.rename_twice hm h.1,
      TypeArgument.renameList_twice hm h.2]

end

end Twice

/-! ## Texts -/

/-- A descriptor whose names are renamed already stays as it is. -/
theorem Descriptor.remap_renamed {m : NameMapper} (hm : KeepsNames m)
    (h : ∀ name, m.rename (m.rename name) = m.rename name) (text : String) :
    remap m (renamed m text) = none := by
  rw [remap]
  cases hclosed : (ofText text.toList).isClosed with
  | false =>
    rw [renamed_of_open hclosed]
    simp [hclosed]
  | true =>
    rw [ofText_renamed hm hclosed]
    simp [names_rename, h, Function.comp_def]

namespace NameRole

variable {tag : String} {m : NameMapper} {text : String}

/-- A signature stays as it is where the mapper keeps its tree. -/
theorem remap_of_rename {s : Signature} (h : Signature.parse text = some s)
    (hkept : s.rename m = s) : signature.remap m text = none := by
  obtain ⟨c, hread⟩ := Signature.read_eq_ok h
  rw [remap, Signature.remap, hread]
  simp [hkept]

/-- **A renamed text stays.** A second renaming does nothing to a text in any role, if its inner
classes are left alone. -/
theorem remap_renamed {role : NameRole} (hm : Staged tag m m) (htag : ValidTag tag)
    (hbracket : '<' ∉ tag.toList) (h : ∀ s ∈ role.innerSegments text, s.Lasting tag m) :
    role.remap m (role.renamed m text) = none := by
  have hdescriptor := Descriptor.remap_renamed (hm.tags.keepsNames htag) hm.rename_rename text
  cases role with
  | className =>
    cases harray : isArray text with
    | true =>
      rw [remap, if_pos (isArray_renamed harray m), renamed_of_isArray harray]
      exact hdescriptor
    | false =>
      have hplain := isArray_rename hm.tags htag harray
      rw [renamed_of_not_isArray harray, remap, hplain, if_neg Bool.false_ne_true, hm.rename_eq_none,
        Option.filter_none]
  | descriptor => exact hdescriptor
  | signature =>
    cases hparse : Signature.parse text with
    | none =>
      rw [renamed_of_parse_none hparse]
      exact remap_of_parse_none hparse
    | some s =>
      have hsegments : ∀ s' ∈ s.innerSegments, s'.Lasting tag m := by
        simpa [innerSegments, hparse] using h
      refine remap_of_rename
        (parse_renamed (hm.tags.keepsLabels (htag.properLabel hbracket)) hparse)
        (Signature.rename_rename fun t ht => TypeSignature.rename_twice hm fun s' hs' => ?_)
      exact hsegments s' (List.mem_flatMap.mpr ⟨t, ht, hs'⟩)

end NameRole

end JvmRelocation
