import JvmRelocation.Proofs.Name.SignatureRenaming

/-!
# Which names a renaming looks up

A mapper is asked about whole class names only: those between `L` and `;` of a descriptor, and the
outer and full inner names of a signature. These are the names that a text is said to mention, even
where reading it stops early. So two mappers that agree on them rename the text to the same one.
-/

namespace JvmRelocation

variable {m m' : NameMapper}

theorem NameMapper.rename_congr {name : String} (h : m name = m' name) :
    m.rename name = m'.rename name := by
  rw [rename, rename, h]

/-! ## Descriptors -/

theorem Descriptor.rename_congr {d : Descriptor} (h : ∀ name ∈ d.names, m name = m' name) :
    d.rename m = d.rename m' := by
  have hobjects : d.objects.map (fun t => { t with name := m.rename t.name }) =
      d.objects.map fun t => { t with name := m'.rename t.name } := by
    refine List.map_congr_left fun o ho => ?_
    rw [NameMapper.rename_congr (h o.name (List.mem_map_of_mem ho))]
  rw [rename, rename, hobjects]

theorem Descriptor.remap_congr {text : String} (h : ∀ name ∈ namesIn text, m name = m' name) :
    remap m text = remap m' text := by
  rw [remap, remap, rename_congr h]

/-! ## Signatures -/

mutual

theorem TypeSignature.rename_congr {t : TypeSignature} (h : ∀ name ∈ t.names, m name = m' name) :
    t.rename m = t.rename m' := by
  match t with
  | .base letter => rfl
  | .array element =>
    rw [TypeSignature.rename, TypeSignature.rename, TypeSignature.rename_congr (t := element) h]
  | .typeVariable name => rfl
  | .classType name suffixes =>
    rw [TypeSignature.names, List.forall_mem_cons] at h
    rw [TypeSignature.rename, TypeSignature.rename, NameMapper.rename_congr h.1,
      TypeSuffix.renameList_congr h.2]

/-- The full name of an inner class, which its mapper is asked about, does not depend on the
mapper. -/
theorem TypeSuffix.renameList_congr {list : List TypeSuffix} {outer target : String}
    (h : ∀ name ∈ TypeSuffix.listNames outer list, m name = m' name) :
    TypeSuffix.renameList m outer target list = TypeSuffix.renameList m' outer target list := by
  match list with
  | [] => rfl
  | .arguments inside :: list =>
    rw [TypeSuffix.listNames, List.forall_mem_append] at h
    rw [TypeSuffix.renameList, TypeSuffix.renameList, TypeArgument.renameList_congr h.1,
      TypeSuffix.renameList_congr h.2]
  | .inner name :: list =>
    rw [TypeSuffix.listNames, List.forall_mem_cons] at h
    rw [TypeSuffix.renameList, TypeSuffix.renameList, h.1]
    cases m' (innerName outer name) with
    | none => exact congrArg _ (TypeSuffix.renameList_congr h.2)
    | some replaced => exact congrArg _ (TypeSuffix.renameList_congr h.2)

theorem TypeArgument.renameList_congr {list : List TypeArgument}
    (h : ∀ name ∈ TypeArgument.listNames list, m name = m' name) :
    TypeArgument.renameList m list = TypeArgument.renameList m' list := by
  match list with
  | [] => rfl
  | .wildcard :: list =>
    rw [TypeArgument.listNames] at h
    rw [TypeArgument.renameList, TypeArgument.renameList, TypeArgument.renameList_congr h]
  | .subtypeOf bound :: list | .supertypeOf bound :: list | .exactly bound :: list =>
    rw [TypeArgument.listNames, List.forall_mem_append] at h
    rw [TypeArgument.renameList, TypeArgument.renameList, TypeSignature.rename_congr h.1,
      TypeArgument.renameList_congr h.2]

end

theorem Signature.rename_congr {s : Signature} (h : ∀ name ∈ s.names, m name = m' name) :
    s.rename m = s.rename m' := by
  rw [rename_eq_mapTypes, rename_eq_mapTypes]
  refine mapTypes_congr fun t ht => TypeSignature.rename_congr fun name hname => ?_
  exact h name (List.mem_flatMap.mpr ⟨t, ht, hname⟩)

/-- A text that is no signature stays, whatever the mapper says. -/
theorem Signature.remap_congr {text : String} (h : ∀ name ∈ namesIn text, m name = m' name) :
    remap m text = remap m' text := by
  rw [namesIn] at h
  rw [remap, remap]
  cases hread : read text.toList with
  | error e c => rfl
  | ok s c =>
    rw [hread] at h
    have hrenamed : s.rename m = s.rename m' := rename_congr h
    simp only [hrenamed]

/-! ## Texts in their roles -/

/-- **A renaming looks up mentioned names only.** Mappers that agree on the class names that a text
mentions in a role make the same of it. -/
theorem NameRole.remap_congr {role : NameRole} {text : String}
    (h : ∀ name ∈ role.names text, m name = m' name) : role.remap m text = role.remap m' text := by
  cases role with
  | className =>
    rw [names] at h
    rw [remap, remap]
    split
    case isTrue harray =>
      rw [if_pos harray] at h
      exact Descriptor.remap_congr h
    case isFalse harray =>
      rw [if_neg harray, List.forall_mem_singleton] at h
      rw [h]
  | descriptor => exact Descriptor.remap_congr h
  | signature =>
    rw [remap, remap, Signature.remap_congr h]

end JvmRelocation
