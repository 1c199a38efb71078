import JvmRelocation.Proofs.Name.StagedTexts

/-!
# Mappers that respect nesting

A signature writes the name of a class in front and, for the classes nested in it, only their simple
names. A mapper that takes an inner class to the class of the same simple name inside the new class
around it therefore needs to change the names in front and nothing else. This holds at every depth,
because the name that the renaming builds up segment by segment is the new name of the class it has
reached, whether the mapper names that class or leaves it to the class around it.
-/

namespace JvmRelocation

/-! ## The names in front of class types -/

section Leading

variable (f : String → String)

mutual

/-- The type with the name in front of every class type replaced, and all else as it was. -/
def TypeSignature.mapLeading : TypeSignature → TypeSignature
  | .base letter => .base letter
  | .array element => .array element.mapLeading
  | .typeVariable name => .typeVariable name
  | .classType name suffixes => .classType (f name) (TypeSuffix.listMapLeading suffixes)

/-- What follows the name of a class: inner classes keep their simple names. -/
def TypeSuffix.listMapLeading : List TypeSuffix → List TypeSuffix
  | [] => []
  | .arguments list :: rest =>
    .arguments (TypeArgument.listMapLeading list) :: TypeSuffix.listMapLeading rest
  | .inner name :: rest => .inner name :: TypeSuffix.listMapLeading rest

/-- Type arguments with the name in front of every class type replaced. -/
def TypeArgument.listMapLeading : List TypeArgument → List TypeArgument
  | [] => []
  | .wildcard :: rest => .wildcard :: TypeArgument.listMapLeading rest
  | .subtypeOf bound :: rest => .subtypeOf bound.mapLeading :: TypeArgument.listMapLeading rest
  | .supertypeOf bound :: rest => .supertypeOf bound.mapLeading :: TypeArgument.listMapLeading rest
  | .exactly type :: rest => .exactly type.mapLeading :: TypeArgument.listMapLeading rest

end

end Leading

mutual

/-- The names in front of the class types of a type, from left to right. -/
def TypeSignature.leadingNames : TypeSignature → List String
  | .base _ => []
  | .array element => element.leadingNames
  | .typeVariable _ => []
  | .classType name suffixes => name :: TypeSuffix.listLeadingNames suffixes

/-- The names in front of the class types in what follows the name of a class. -/
def TypeSuffix.listLeadingNames : List TypeSuffix → List String
  | [] => []
  | .arguments list :: rest =>
    TypeArgument.listLeadingNames list ++ TypeSuffix.listLeadingNames rest
  | .inner _ :: rest => TypeSuffix.listLeadingNames rest

/-- The names in front of the class types of type arguments. -/
def TypeArgument.listLeadingNames : List TypeArgument → List String
  | [] => []
  | .wildcard :: rest => TypeArgument.listLeadingNames rest
  | .subtypeOf bound :: rest => bound.leadingNames ++ TypeArgument.listLeadingNames rest
  | .supertypeOf bound :: rest => bound.leadingNames ++ TypeArgument.listLeadingNames rest
  | .exactly type :: rest => type.leadingNames ++ TypeArgument.listLeadingNames rest

end

/-- The signature with the name in front of every class type replaced. -/
def Signature.mapLeading (f : String → String) (s : Signature) : Signature :=
  s.mapTypes (TypeSignature.mapLeading f)

/-- The names in front of the class types of a signature, from left to right. -/
def Signature.leadingNames (s : Signature) : List String :=
  s.types.flatMap TypeSignature.leadingNames

section Names

variable {f : String → String}

mutual

theorem TypeSignature.leadingNames_mapLeading (t : TypeSignature) :
    (t.mapLeading f).leadingNames = t.leadingNames.map f := by
  match t with
  | .base letter => rfl
  | .array element =>
    rw [TypeSignature.mapLeading, TypeSignature.leadingNames, TypeSignature.leadingNames]
    exact element.leadingNames_mapLeading
  | .typeVariable name => rfl
  | .classType name suffixes =>
    rw [TypeSignature.mapLeading, TypeSignature.leadingNames, TypeSignature.leadingNames,
      List.map_cons, TypeSuffix.listLeadingNames_mapLeading suffixes]

theorem TypeSuffix.listLeadingNames_mapLeading (list : List TypeSuffix) :
    TypeSuffix.listLeadingNames (TypeSuffix.listMapLeading f list) =
      (TypeSuffix.listLeadingNames list).map f := by
  match list with
  | [] => rfl
  | .arguments inside :: list =>
    rw [TypeSuffix.listMapLeading, TypeSuffix.listLeadingNames, TypeSuffix.listLeadingNames,
      List.map_append, TypeArgument.listLeadingNames_mapLeading inside,
      TypeSuffix.listLeadingNames_mapLeading list]
  | .inner name :: list =>
    rw [TypeSuffix.listMapLeading, TypeSuffix.listLeadingNames, TypeSuffix.listLeadingNames]
    exact TypeSuffix.listLeadingNames_mapLeading list

theorem TypeArgument.listLeadingNames_mapLeading (list : List TypeArgument) :
    TypeArgument.listLeadingNames (TypeArgument.listMapLeading f list) =
      (TypeArgument.listLeadingNames list).map f := by
  match list with
  | [] => rfl
  | .wildcard :: list =>
    rw [TypeArgument.listMapLeading, TypeArgument.listLeadingNames, TypeArgument.listLeadingNames]
    exact TypeArgument.listLeadingNames_mapLeading list
  | .subtypeOf bound :: list | .supertypeOf bound :: list | .exactly bound :: list =>
    rw [TypeArgument.listMapLeading, TypeArgument.listLeadingNames, TypeArgument.listLeadingNames,
      List.map_append, bound.leadingNames_mapLeading, TypeArgument.listLeadingNames_mapLeading list]

end

mutual

theorem TypeSignature.mapLeading_of_fixed {t : TypeSignature}
    (h : ∀ name ∈ t.leadingNames, f name = name) : t.mapLeading f = t := by
  match t with
  | .base letter => rfl
  | .array element =>
    rw [TypeSignature.mapLeading, TypeSignature.mapLeading_of_fixed (t := element) h]
  | .typeVariable name => rfl
  | .classType name suffixes =>
    rw [TypeSignature.leadingNames, List.forall_mem_cons] at h
    rw [TypeSignature.mapLeading, h.1, TypeSuffix.listMapLeading_of_fixed h.2]

theorem TypeSuffix.listMapLeading_of_fixed {list : List TypeSuffix}
    (h : ∀ name ∈ TypeSuffix.listLeadingNames list, f name = name) :
    TypeSuffix.listMapLeading f list = list := by
  match list with
  | [] => rfl
  | .arguments inside :: list =>
    rw [TypeSuffix.listLeadingNames, List.forall_mem_append] at h
    rw [TypeSuffix.listMapLeading, TypeArgument.listMapLeading_of_fixed h.1,
      TypeSuffix.listMapLeading_of_fixed h.2]
  | .inner name :: list =>
    rw [TypeSuffix.listLeadingNames] at h
    rw [TypeSuffix.listMapLeading, TypeSuffix.listMapLeading_of_fixed h]

theorem TypeArgument.listMapLeading_of_fixed {list : List TypeArgument}
    (h : ∀ name ∈ TypeArgument.listLeadingNames list, f name = name) :
    TypeArgument.listMapLeading f list = list := by
  match list with
  | [] => rfl
  | .wildcard :: list =>
    rw [TypeArgument.listLeadingNames] at h
    rw [TypeArgument.listMapLeading, TypeArgument.listMapLeading_of_fixed h]
  | .subtypeOf bound :: list | .supertypeOf bound :: list | .exactly bound :: list =>
    rw [TypeArgument.listLeadingNames, List.forall_mem_append] at h
    rw [TypeArgument.listMapLeading, TypeSignature.mapLeading_of_fixed h.1,
      TypeArgument.listMapLeading_of_fixed h.2]

end

namespace Signature

theorem leadingNames_mapLeading (s : Signature) :
    (s.mapLeading f).leadingNames = s.leadingNames.map f := by
  rw [leadingNames, mapLeading, types_mapTypes, List.flatMap_map, leadingNames, List.map_flatMap]
  exact List.flatMap_congr fun t _ => t.leadingNames_mapLeading

/-- Replacing the names in front keeps a signature exactly if it keeps each of them. -/
theorem mapLeading_eq_self_iff {s : Signature} :
    s.mapLeading f = s ↔ ∀ name ∈ s.leadingNames, f name = name := by
  constructor
  · intro heq
    have hnames := s.leadingNames_mapLeading (f := f)
    rw [heq] at hnames
    conv at hnames => lhs; rw [← List.map_id s.leadingNames]
    intro name hname
    exact (List.map_inj_left.mp hnames name hname).symm
  · intro hfixed
    have heach : ∀ t ∈ s.types, t.mapLeading f = t := fun t ht =>
      TypeSignature.mapLeading_of_fixed fun name hname =>
        hfixed name (List.mem_flatMap.mpr ⟨t, ht, hname⟩)
    rw [mapLeading, mapTypes_congr heach, mapTypes_id]

end Signature

end Names

/-! ## Renaming where nesting is respected -/

/-- The new name of an inner class is its simple name inside the new name of the class around it. -/
def InnerSegment.RespectedBy (m : NameMapper) (s : InnerSegment) : Prop :=
  m.rename s.full = innerName (m.rename s.enclosing) s.simple

instance (m : NameMapper) (s : InnerSegment) : Decidable (s.RespectedBy m) :=
  inferInstanceAs (Decidable (_ = _))

section Respected

variable {m : NameMapper}

/-- An inner class whose nesting is respected keeps its simple name, and the renaming goes on below
its new name. -/
theorem TypeSuffix.renameList_inner_of_respected {outermost outer name : String}
    (h : InnerSegment.RespectedBy m ⟨outermost, outer, name⟩) (list : List TypeSuffix) :
    TypeSuffix.renameList m outer (m.rename outer) (.inner name :: list) =
      .inner name :: TypeSuffix.renameList m (innerName outer name)
        (m.rename (innerName outer name)) list := by
  have hfull : m.rename (innerName outer name) = innerName (m.rename outer) name := h
  cases hreplaced : m (innerName outer name) with
  | none => rw [renameList_inner_none hreplaced, hfull]
  | some replaced =>
    have hnew : m.rename (innerName outer name) = replaced := by
      rw [NameMapper.rename, hreplaced, Option.getD_some]
    rw [renameList_inner_some hreplaced, hnew, ← hnew, hfull, simpleName_innerName]

mutual

theorem TypeSignature.rename_of_respected {t : TypeSignature}
    (h : ∀ s ∈ t.innerSegments, s.RespectedBy m) : t.rename m = t.mapLeading m.rename := by
  match t with
  | .base letter => rfl
  | .array element =>
    rw [TypeSignature.rename, TypeSignature.mapLeading,
      TypeSignature.rename_of_respected (t := element) h]
  | .typeVariable name => rfl
  | .classType name suffixes =>
    rw [TypeSignature.innerSegments] at h
    rw [TypeSignature.rename, TypeSignature.mapLeading, TypeSuffix.renameList_of_respected h]

/-- The invariant is in the target: it is the new name of the class that the list follows. -/
theorem TypeSuffix.renameList_of_respected {list : List TypeSuffix} {outermost outer : String}
    (h : ∀ s ∈ TypeSuffix.listInnerSegments outermost outer list, s.RespectedBy m) :
    TypeSuffix.renameList m outer (m.rename outer) list =
      TypeSuffix.listMapLeading m.rename list := by
  match list with
  | [] => rfl
  | .arguments inside :: list =>
    rw [TypeSuffix.listInnerSegments, List.forall_mem_append] at h
    rw [TypeSuffix.renameList, TypeSuffix.listMapLeading, TypeArgument.renameList_of_respected h.1,
      TypeSuffix.renameList_of_respected h.2]
  | .inner name :: list =>
    rw [TypeSuffix.listInnerSegments, List.forall_mem_cons] at h
    rw [TypeSuffix.renameList_inner_of_respected h.1, TypeSuffix.listMapLeading,
      TypeSuffix.renameList_of_respected h.2]

theorem TypeArgument.renameList_of_respected {list : List TypeArgument}
    (h : ∀ s ∈ TypeArgument.listInnerSegments list, s.RespectedBy m) :
    TypeArgument.renameList m list = TypeArgument.listMapLeading m.rename list := by
  match list with
  | [] => rfl
  | .wildcard :: list =>
    rw [TypeArgument.listInnerSegments] at h
    rw [TypeArgument.renameList, TypeArgument.listMapLeading,
      TypeArgument.renameList_of_respected h]
  | .subtypeOf bound :: list | .supertypeOf bound :: list | .exactly bound :: list =>
    rw [TypeArgument.listInnerSegments, List.forall_mem_append] at h
    rw [TypeArgument.renameList, TypeArgument.listMapLeading,
      TypeSignature.rename_of_respected h.1, TypeArgument.renameList_of_respected h.2]

end

mutual

theorem TypeSignature.names_mapLeading {t : TypeSignature}
    (h : ∀ s ∈ t.innerSegments, s.RespectedBy m) :
    (t.mapLeading m.rename).names = t.names.map m.rename := by
  match t with
  | .base letter => rfl
  | .array element =>
    rw [TypeSignature.mapLeading, TypeSignature.names, TypeSignature.names]
    exact TypeSignature.names_mapLeading (t := element) h
  | .typeVariable name => rfl
  | .classType name suffixes =>
    rw [TypeSignature.innerSegments] at h
    rw [TypeSignature.mapLeading, TypeSignature.names, TypeSignature.names, List.map_cons,
      TypeSuffix.listNames_mapLeading h]

theorem TypeSuffix.listNames_mapLeading {list : List TypeSuffix} {outermost outer : String}
    (h : ∀ s ∈ TypeSuffix.listInnerSegments outermost outer list, s.RespectedBy m) :
    TypeSuffix.listNames (m.rename outer) (TypeSuffix.listMapLeading m.rename list) =
      (TypeSuffix.listNames outer list).map m.rename := by
  match list with
  | [] => rfl
  | .arguments inside :: list =>
    rw [TypeSuffix.listInnerSegments, List.forall_mem_append] at h
    rw [TypeSuffix.listMapLeading, TypeSuffix.listNames, TypeSuffix.listNames, List.map_append,
      TypeArgument.listNames_mapLeading h.1, TypeSuffix.listNames_mapLeading h.2]
  | .inner name :: list =>
    rw [TypeSuffix.listInnerSegments, List.forall_mem_cons] at h
    have hfull : m.rename (innerName outer name) = innerName (m.rename outer) name := h.1
    rw [TypeSuffix.listMapLeading, TypeSuffix.listNames, TypeSuffix.listNames, List.map_cons,
      ← hfull, TypeSuffix.listNames_mapLeading h.2]

theorem TypeArgument.listNames_mapLeading {list : List TypeArgument}
    (h : ∀ s ∈ TypeArgument.listInnerSegments list, s.RespectedBy m) :
    TypeArgument.listNames (TypeArgument.listMapLeading m.rename list) =
      (TypeArgument.listNames list).map m.rename := by
  match list with
  | [] => rfl
  | .wildcard :: list =>
    rw [TypeArgument.listInnerSegments] at h
    rw [TypeArgument.listMapLeading, TypeArgument.listNames, TypeArgument.listNames]
    exact TypeArgument.listNames_mapLeading h
  | .subtypeOf bound :: list | .supertypeOf bound :: list | .exactly bound :: list =>
    rw [TypeArgument.listInnerSegments, List.forall_mem_append] at h
    rw [TypeArgument.listMapLeading, TypeArgument.listNames, TypeArgument.listNames,
      List.map_append, TypeSignature.names_mapLeading h.1, TypeArgument.listNames_mapLeading h.2]

end

namespace Signature

variable {s : Signature}

/-- The inner classes of each type are among those of the signature. -/
theorem forall_types_of_respected (h : ∀ i ∈ s.innerSegments, i.RespectedBy m) :
    ∀ t ∈ s.types, ∀ i ∈ t.innerSegments, i.RespectedBy m :=
  fun t ht i hi => h i (List.mem_flatMap.mpr ⟨t, ht, hi⟩)

theorem rename_of_respected (h : ∀ i ∈ s.innerSegments, i.RespectedBy m) :
    s.rename m = s.mapLeading m.rename := by
  rw [rename_eq_mapTypes, mapLeading]
  exact mapTypes_congr fun t ht =>
    TypeSignature.rename_of_respected (forall_types_of_respected h t ht)

theorem names_mapLeading (h : ∀ i ∈ s.innerSegments, i.RespectedBy m) :
    (s.mapLeading m.rename).names = s.names.map m.rename := by
  rw [names, mapLeading, types_mapTypes, List.flatMap_map, names, List.map_flatMap]
  exact List.flatMap_congr fun t ht =>
    TypeSignature.names_mapLeading (forall_types_of_respected h t ht)

/-- A renaming answers with a text exactly if it changes the tree. -/
theorem isSome_of_remap {text : String} {answer : Option String} (hs : parse text = some s)
    (h : remap m text = .ok answer) : answer.isSome = true ↔ s.rename m ≠ s := by
  obtain ⟨c, hread⟩ := read_eq_ok hs
  rw [remap, hread] at h
  obtain rfl := Except.ok.inj h
  by_cases hlabels : (s.rename m).labels = s.labels
  · simp [rename_of_labels hlabels]
  · simpa [hlabels] using fun heq : s.rename m = s => hlabels (congrArg labels heq)

/-- **Where nesting is respected, renaming replaces the names in front.** If a signature is accepted
and the mapper gives names that can stand in one, what the text is afterwards is the signature with
every name in front of a class type replaced and all else as it was. It is accepted again, the answer
is a text exactly if one of those names changes, and the classes it names are the new names of those
named before. -/
theorem remap_maps_leading_names {text : String} {answer : Option String} (hm : KeepsLabels m)
    (haccepted : remap m text = .ok answer)
    (hnesting : ∀ i ∈ NameRole.signature.innerSegments text, i.RespectedBy m) :
    ∃ s, parse text = some s ∧
      answer.getD text = String.ofList (s.mapLeading m.rename).toText ∧
      parse (answer.getD text) = some (s.mapLeading m.rename) ∧
      (∀ m', ∃ again, remap m' (answer.getD text) = .ok again) ∧
      (answer.isSome = true ↔ ∃ name ∈ s.leadingNames, m.rename name ≠ name) ∧
      NameRole.signature.names (answer.getD text) =
        (NameRole.signature.names text).map m.rename := by
  obtain ⟨s, hs⟩ := exists_remap_iff.mp ⟨answer, haccepted⟩
  have hrespected : ∀ i ∈ s.innerSegments, i.RespectedBy m := by
    simpa [NameRole.innerSegments, hs] using hnesting
  have htree : s.rename m = s.mapLeading m.rename := rename_of_respected hrespected
  have hanswer : answer.getD text = NameRole.signature.renamed m text := by
    rw [NameRole.renamed, NameRole.remap, haccepted]
  have hparse : parse (answer.getD text) = some (s.mapLeading m.rename) := by
    rw [hanswer, NameRole.parse_renamed hm hs, htree]
  refine ⟨s, hs, ?_, hparse, fun m' => exists_remap_iff.mpr ⟨_, hparse⟩, ?_, ?_⟩
  · rw [hanswer, NameRole.renamed_signature hs, htree]
  · rw [isSome_of_remap hs haccepted, htree, Ne, mapLeading_eq_self_iff]
    simp
  · rw [NameRole.names_signature hparse, names_mapLeading hrespected, NameRole.names_signature hs]

/-- A mapper that names an inner class as well, inside the new name of its outer class. -/
def nestedSample : NameMapper := fun name =>
  if name = "p/Outer" then some "t/p/Outer"
  else if name = "p/Outer$Inner" then some "t/p/Outer$Inner"
  else none

theorem keepsLabels_nestedSample : KeepsLabels nestedSample := by
  have hproper {name : String}
      (h : name.toList.all (fun c => !SignatureReader.endsName c) = true) : ProperLabel name := by
    simpa [ProperLabel] using h
  intro name target htarget _
  unfold nestedSample at htarget
  split at htarget
  · obtain rfl := Option.some.inj htarget
    exact hproper (by decide)
  · split at htarget
    · obtain rfl := Option.some.inj htarget
      exact hproper (by decide)
    · cases htarget

theorem remap_maps_leading_names_nestedSample :
    remap nestedSample "<T:Lp/Base;>Lp/Outer<TT;>.Inner<*>;" =
        .ok (some "<T:Lp/Base;>Lt/p/Outer<TT;>.Inner<*>;") ∧
      (∀ i ∈ NameRole.signature.innerSegments "<T:Lp/Base;>Lp/Outer<TT;>.Inner<*>;",
        i.RespectedBy nestedSample) ∧
      ∃ s, parse "<T:Lp/Base;>Lp/Outer<TT;>.Inner<*>;" = some s ∧
        parse "<T:Lp/Base;>Lt/p/Outer<TT;>.Inner<*>;" =
          some (s.mapLeading nestedSample.rename) := by
  have haccepted : remap nestedSample "<T:Lp/Base;>Lp/Outer<TT;>.Inner<*>;" =
      .ok (some "<T:Lp/Base;>Lt/p/Outer<TT;>.Inner<*>;") := by
    decide +kernel
  have hnesting : ∀ i ∈ NameRole.signature.innerSegments
      "<T:Lp/Base;>Lp/Outer<TT;>.Inner<*>;", i.RespectedBy nestedSample := by
    decide +kernel
  obtain ⟨s, hs, -, hparse, -⟩ :=
    remap_maps_leading_names keepsLabels_nestedSample haccepted hnesting
  rw [Option.getD_some] at hparse
  exact ⟨haccepted, hnesting, s, hs, hparse⟩

end Signature

end Respected

end JvmRelocation
