import JvmRelocation.Name.Role
import JvmRelocation.Proofs.Name.Role
import JvmRelocation.Proofs.Name.SignatureReading

/-!
# Renaming the classes of a signature

A renaming works on the tree of a signature and keeps its shape. If it keeps the labels it keeps the
tree, and the renamed tree is proper where new names are. So the text of a signature after a renaming
is read as the renamed tree, and what a second renaming does to the text is what it does to that
tree.
-/

namespace JvmRelocation

/-! ## Renamed trees are proper -/

/-- A mapper that gives a name that can stand in a signature a new name that can. -/
def KeepsLabels (m : NameMapper) : Prop :=
  ∀ name target, m name = some target → ProperLabel name → ProperLabel target

theorem KeepsLabels.rename {m : NameMapper} (hm : KeepsLabels m) {name : String}
    (h : ProperLabel name) : ProperLabel (m.rename name) := by
  rw [NameMapper.rename]
  cases htarget : m name with
  | none => exact h
  | some target => exact hm _ _ htarget h

theorem properLabel_innerName {outer name : String} (houter : ProperLabel outer)
    (hname : ProperLabel name) : ProperLabel (innerName outer name) := by
  intro c hc
  simp only [innerName, String.toList_append, List.mem_append] at hc
  obtain (hc | hc) | hc := hc
  · exact houter c hc
  · obtain rfl : c = '$' := by simpa using hc
    rfl
  · exact hname c hc

/-- The simple name of a class is a part of its name. -/
theorem properLabel_simpleName {outer target : String} (h : ProperLabel target) :
    ProperLabel (simpleName outer target) := by
  intro c hc
  rw [simpleName] at hc
  split at hc
  · rw [String.toList_ofList] at hc
    exact h c (List.mem_of_mem_drop hc)
  · rw [String.toList_ofList, afterLastDollar, List.mem_reverse] at hc
    exact h c (List.mem_reverse.mp ((List.takeWhile_sublist _).mem hc))

section Proper

variable {m : NameMapper}

mutual

theorem TypeSignature.Proper.rename (hm : KeepsLabels m) {t : TypeSignature} (h : t.Proper) :
    (t.rename m).Proper := by
  match t with
  | .base letter => exact h
  | .array element =>
    rw [TypeSignature.rename, TypeSignature.Proper]
    exact TypeSignature.Proper.rename hm (t := element) h
  | .typeVariable name => exact h
  | .classType name suffixes =>
    rw [TypeSignature.Proper] at h
    rw [TypeSignature.rename, TypeSignature.Proper]
    exact ⟨hm.rename h.1, TypeSuffix.ListProper.renameList hm h.1 h.2⟩

theorem TypeSuffix.ListProper.renameList (hm : KeepsLabels m) {outer target : String}
    (houter : ProperLabel outer) {list : List TypeSuffix} (h : TypeSuffix.ListProper list) :
    TypeSuffix.ListProper (TypeSuffix.renameList m outer target list) := by
  match list with
  | [] => trivial
  | .arguments inside :: list =>
    rw [TypeSuffix.ListProper] at h
    rw [TypeSuffix.renameList, TypeSuffix.ListProper]
    exact ⟨TypeArgument.ListProper.renameList hm h.1, TypeSuffix.ListProper.renameList hm houter h.2⟩
  | .inner name :: list =>
    rw [TypeSuffix.ListProper] at h
    have hfull := properLabel_innerName houter h.1
    rw [TypeSuffix.renameList]
    cases htarget : m (innerName outer name) with
    | none => exact ⟨h.1, TypeSuffix.ListProper.renameList hm hfull h.2⟩
    | some replaced =>
      exact ⟨properLabel_simpleName (hm _ _ htarget hfull),
        TypeSuffix.ListProper.renameList hm hfull h.2⟩

theorem TypeArgument.ListProper.renameList (hm : KeepsLabels m) {list : List TypeArgument}
    (h : TypeArgument.ListProper list) :
    TypeArgument.ListProper (TypeArgument.renameList m list) := by
  match list with
  | [] => trivial
  | .wildcard :: list =>
    rw [TypeArgument.ListProper] at h
    rw [TypeArgument.renameList, TypeArgument.ListProper]
    exact TypeArgument.ListProper.renameList hm h
  | .subtypeOf bound :: list | .supertypeOf bound :: list | .exactly bound :: list =>
    rw [TypeArgument.ListProper] at h
    rw [TypeArgument.renameList, TypeArgument.ListProper]
    exact ⟨TypeSignature.Proper.rename hm h.1, TypeArgument.ListProper.renameList hm h.2⟩

end

theorem TypeSignature.isBound_rename (t : TypeSignature) : (t.rename m).isBound = t.isBound := by
  cases t with
  | base letter => rfl
  | array element => rw [TypeSignature.rename]; rfl
  | typeVariable name => rfl
  | classType name suffixes => rw [TypeSignature.rename]; rfl

theorem FormalParameter.Proper.rename (hm : KeepsLabels m) {p : FormalParameter} (h : p.Proper) :
    (p.rename m).Proper := by
  refine ⟨h.ne_nil, h.head, h.colon, ?_, fun t ht => ?_⟩
  · simpa [FormalParameter.rename] using h.bounds_ne_nil
  · obtain ⟨bound, hbound, heq⟩ := List.mem_map.mp ht
    obtain ⟨t', rfl, rfl⟩ := Option.map_eq_some_iff.mp heq
    obtain ⟨hproper, hisBound⟩ := h.bounds t' hbound
    exact ⟨hproper.rename hm, by rw [TypeSignature.isBound_rename, hisBound]⟩

theorem FormalParameter.ListProper.rename (hm : KeepsLabels m) {list : List FormalParameter}
    (h : FormalParameter.ListProper list) :
    FormalParameter.ListProper (list.map (FormalParameter.rename m)) := by
  induction list with
  | nil => trivial
  | cons p list ih =>
    rw [FormalParameter.ListProper] at h
    obtain ⟨hp, hempty, hlist⟩ := h
    rw [List.map_cons, FormalParameter.ListProper]
    refine ⟨hp.rename hm, fun hlast q hq => ?_, ih hlist⟩
    rw [List.head?_map] at hq
    obtain ⟨q', hq', rfl⟩ := Option.map_eq_some_iff.mp hq
    refine hempty ?_ q' hq'
    rw [FormalParameter.rename, List.getLast?_map] at hlast
    obtain ⟨bound, hbound, heq⟩ := Option.map_eq_some_iff.mp hlast
    rw [hbound, Option.map_eq_none_iff.mp heq]

theorem Signature.Proper.rename (hm : KeepsLabels m) {s : Signature} (h : s.Proper) :
    (s.rename m).Proper := by
  obtain ⟨formals, body⟩ := s
  obtain ⟨hformals, hbody⟩ := h
  constructor
  · intro list heq
    obtain ⟨list', hlist', rfl⟩ := Option.map_eq_some_iff.mp heq
    exact (hformals list' hlist').rename hm
  · show (body.rename m).Proper
    cases body with
    | method list result exceptions =>
      obtain ⟨hlist, hresult, hexceptions⟩ := hbody
      refine ⟨?_, hresult.rename hm, ?_⟩
      · exact List.forall_mem_map.mpr fun t ht => (hlist t ht).rename hm
      · exact List.forall_mem_map.mpr fun t ht => (hexceptions t ht).rename hm
    | types list =>
      obtain ⟨hne, hlist⟩ := hbody
      exact ⟨by simpa using hne, List.forall_mem_map.mpr fun t ht => (hlist t ht).rename hm⟩

end Proper

/-! ## Labels tell what is renamed -/

section Labels

variable {m : NameMapper}

mutual

theorem TypeSignature.length_labels_rename (t : TypeSignature) :
    (t.rename m).labels.length = t.labels.length := by
  match t with
  | .base letter => rfl
  | .array element =>
    rw [TypeSignature.rename, TypeSignature.labels, TypeSignature.labels]
    exact element.length_labels_rename
  | .typeVariable name => rfl
  | .classType name suffixes =>
    rw [TypeSignature.rename, TypeSignature.labels, TypeSignature.labels, List.length_cons,
      List.length_cons, TypeSuffix.length_listLabels_rename suffixes]

theorem TypeSuffix.length_listLabels_rename (list : List TypeSuffix) {outer target : String} :
    (TypeSuffix.listLabels (TypeSuffix.renameList m outer target list)).length =
      (TypeSuffix.listLabels list).length := by
  match list with
  | [] => rfl
  | .arguments inside :: list =>
    rw [TypeSuffix.renameList, TypeSuffix.listLabels, TypeSuffix.listLabels, List.length_append,
      List.length_append, TypeArgument.length_listLabels_rename inside,
      TypeSuffix.length_listLabels_rename list]
  | .inner name :: list =>
    rw [TypeSuffix.renameList]
    cases m (innerName outer name) <;>
      rw [TypeSuffix.listLabels, TypeSuffix.listLabels, List.length_cons, List.length_cons,
        TypeSuffix.length_listLabels_rename list]

theorem TypeArgument.length_listLabels_rename (list : List TypeArgument) :
    (TypeArgument.listLabels (TypeArgument.renameList m list)).length =
      (TypeArgument.listLabels list).length := by
  match list with
  | [] => rfl
  | .wildcard :: list =>
    rw [TypeArgument.renameList, TypeArgument.listLabels, TypeArgument.listLabels]
    exact TypeArgument.length_listLabels_rename list
  | .subtypeOf bound :: list | .supertypeOf bound :: list | .exactly bound :: list =>
    rw [TypeArgument.renameList, TypeArgument.listLabels, TypeArgument.listLabels,
      List.length_append, List.length_append, bound.length_labels_rename,
      TypeArgument.length_listLabels_rename list]

end

mutual

theorem TypeSignature.rename_of_labels {t : TypeSignature} (h : (t.rename m).labels = t.labels) :
    t.rename m = t := by
  match t with
  | .base letter => rfl
  | .array element =>
    rw [TypeSignature.rename] at h ⊢
    rw [TypeSignature.labels, TypeSignature.labels] at h
    rw [TypeSignature.rename_of_labels h]
  | .typeVariable name => rfl
  | .classType name suffixes =>
    rw [TypeSignature.rename] at h ⊢
    rw [TypeSignature.labels, TypeSignature.labels] at h
    obtain ⟨hname, hsuffixes⟩ := List.cons.inj h
    rw [TypeSuffix.renameList_of_labels hsuffixes, hname]

theorem TypeSuffix.renameList_of_labels {list : List TypeSuffix} {outer target : String}
    (h : TypeSuffix.listLabels (TypeSuffix.renameList m outer target list) =
      TypeSuffix.listLabels list) : TypeSuffix.renameList m outer target list = list := by
  match list with
  | [] => rfl
  | .arguments inside :: list =>
    rw [TypeSuffix.renameList] at h ⊢
    rw [TypeSuffix.listLabels, TypeSuffix.listLabels] at h
    obtain ⟨hinside, hlist⟩ := List.append_inj h (TypeArgument.length_listLabels_rename inside)
    rw [TypeArgument.renameList_of_labels hinside, TypeSuffix.renameList_of_labels hlist]
  | .inner name :: list =>
    rw [TypeSuffix.renameList] at h ⊢
    cases htarget : m (innerName outer name) with
    | none =>
      rw [htarget] at h
      obtain ⟨-, hlist⟩ := List.cons.inj h
      exact congrArg _ (TypeSuffix.renameList_of_labels hlist)
    | some replaced =>
      rw [htarget] at h
      obtain ⟨hlabel, hlist⟩ := List.cons.inj h
      exact congrArg₂ (fun label list => .inner label :: list) hlabel
        (TypeSuffix.renameList_of_labels hlist)

theorem TypeArgument.renameList_of_labels {list : List TypeArgument}
    (h : TypeArgument.listLabels (TypeArgument.renameList m list) = TypeArgument.listLabels list) :
    TypeArgument.renameList m list = list := by
  match list with
  | [] => rfl
  | .wildcard :: list =>
    rw [TypeArgument.renameList] at h ⊢
    rw [TypeArgument.listLabels, TypeArgument.listLabels] at h
    rw [TypeArgument.renameList_of_labels h]
  | .subtypeOf bound :: list | .supertypeOf bound :: list | .exactly bound :: list =>
    rw [TypeArgument.renameList] at h ⊢
    rw [TypeArgument.listLabels, TypeArgument.listLabels] at h
    obtain ⟨hbound, hlist⟩ := List.append_inj h bound.length_labels_rename
    rw [TypeSignature.rename_of_labels hbound, TypeArgument.renameList_of_labels hlist]

end

end Labels

/-! ## No renaming -/

mutual

/-- The mapper that renames no class keeps every type. -/
theorem TypeSignature.rename_none (t : TypeSignature) : t.rename (fun _ => none) = t := by
  match t with
  | .base letter => rfl
  | .array element => rw [TypeSignature.rename, element.rename_none]
  | .typeVariable name => rfl
  | .classType name suffixes =>
    rw [TypeSignature.rename, TypeSuffix.renameList_none suffixes]
    rfl

theorem TypeSuffix.renameList_none (list : List TypeSuffix) {outer target : String} :
    TypeSuffix.renameList (fun _ => none) outer target list = list := by
  match list with
  | [] => rfl
  | .arguments inside :: list =>
    rw [TypeSuffix.renameList, TypeArgument.renameList_none inside, TypeSuffix.renameList_none list]
  | .inner name :: list => rw [TypeSuffix.renameList, TypeSuffix.renameList_none list]

theorem TypeArgument.renameList_none (list : List TypeArgument) :
    TypeArgument.renameList (fun _ => none) list = list := by
  match list with
  | [] => rfl
  | .wildcard :: list => rw [TypeArgument.renameList, TypeArgument.renameList_none list]
  | .subtypeOf bound :: list | .supertypeOf bound :: list | .exactly bound :: list =>
    rw [TypeArgument.renameList, bound.rename_none, TypeArgument.renameList_none list]

end

/-! ## From types to signatures -/

namespace Signature

/-- The signature with a function applied to every type. -/
def mapTypes (f : TypeSignature → TypeSignature) (s : Signature) : Signature where
  formals := s.formals.map (List.map fun p => { p with bounds := p.bounds.map (Option.map f) })
  body := match s.body with
    | .method parameters result thrown => .method (parameters.map f) (f result) (thrown.map f)
    | .types list => .types (list.map f)

theorem rename_eq_mapTypes (m : NameMapper) (s : Signature) :
    s.rename m = s.mapTypes (TypeSignature.rename m) := by
  obtain ⟨formals, body⟩ := s
  cases body <;> rfl

theorem mapTypes_mapTypes (f g : TypeSignature → TypeSignature) (s : Signature) :
    (s.mapTypes f).mapTypes g = s.mapTypes fun t => g (f t) := by
  obtain ⟨formals, body⟩ := s
  cases formals <;> cases body <;> simp [mapTypes, Function.comp_def]

theorem types_mapTypes (f : TypeSignature → TypeSignature) (s : Signature) :
    (s.mapTypes f).types = s.types.map f := by
  obtain ⟨formals, body⟩ := s
  have hformals : ((formals.map (List.map fun p : FormalParameter =>
        { p with bounds := p.bounds.map (Option.map f) })).getD []).flatMap
          (fun p => p.bounds.filterMap id) =
      ((formals.getD []).flatMap fun p => p.bounds.filterMap id).map f := by
    cases formals with
    | none => rfl
    | some list =>
      simp only [Option.map_some, Option.getD_some, List.flatMap_map, List.map_flatMap,
        List.filterMap_map, List.map_filterMap, Function.comp_def, id]
  simp only [types, mapTypes, hformals, List.map_append]
  cases body with
  | method list result exceptions => simp
  | types list => rfl

/-- What is done to every type decides what is done to the signature. -/
theorem mapTypes_congr {f g : TypeSignature → TypeSignature} {s : Signature}
    (h : ∀ t ∈ s.types, f t = g t) : s.mapTypes f = s.mapTypes g := by
  obtain ⟨formals, body⟩ := s
  simp only [types, List.mem_append] at h
  have hformals : formals.map (List.map fun p : FormalParameter =>
        { p with bounds := p.bounds.map (Option.map f) }) =
      formals.map (List.map fun p : FormalParameter =>
        { p with bounds := p.bounds.map (Option.map g) }) := by
    cases formals with
    | none => rfl
    | some list =>
      refine congrArg some (List.map_congr_left fun p hp => ?_)
      refine congrArg (FormalParameter.mk p.name) (List.map_congr_left fun bound hbound => ?_)
      cases bound with
      | none => rfl
      | some t =>
        refine congrArg some (h t (.inl (List.mem_flatMap.mpr ⟨p, hp, ?_⟩)))
        exact List.mem_filterMap.mpr ⟨some t, hbound, rfl⟩
  rw [mapTypes, mapTypes, hformals]
  congr 1
  cases body with
  | method list result exceptions =>
    have hlist : list.map f = list.map g :=
      List.map_congr_left fun t ht => h t (.inr (List.mem_append_left _ ht))
    have hexceptions : exceptions.map f = exceptions.map g :=
      List.map_congr_left fun t ht => h t (.inr (by simp [ht]))
    have hresult : f result = g result := h result (.inr (by simp))
    simp only [hlist, hresult, hexceptions]
  | types list => exact congrArg _ (List.map_congr_left fun t ht => h t (.inr ht))

theorem mapTypes_id (s : Signature) : s.mapTypes (fun t => t) = s := by
  obtain ⟨formals, body⟩ := s
  cases formals <;> cases body <;> simp [mapTypes]

theorem types_rename (m : NameMapper) (s : Signature) :
    (s.rename m).types = s.types.map (TypeSignature.rename m) := by
  rw [rename_eq_mapTypes, types_mapTypes]

theorem length_labels_rename (m : NameMapper) (s : Signature) :
    (s.rename m).labels.length = s.labels.length := by
  rw [labels, labels, types_rename, List.flatMap_map, List.length_flatMap, List.length_flatMap]
  simp only [TypeSignature.length_labels_rename]

/-- A signature that keeps its labels is kept. -/
theorem rename_of_labels {m : NameMapper} {s : Signature} (h : (s.rename m).labels = s.labels) :
    s.rename m = s := by
  have heach : ∀ t ∈ s.types, t.rename m = t := by
    rw [labels, labels, types_rename, List.flatMap_map] at h
    intro t ht
    refine TypeSignature.rename_of_labels ?_
    generalize s.types = list at h ht
    induction list with
    | nil => cases ht
    | cons first list ih =>
      rw [List.flatMap_cons, List.flatMap_cons] at h
      obtain ⟨hfirst, hlist⟩ := List.append_inj h first.length_labels_rename
      rcases List.mem_cons.mp ht with rfl | ht
      · exact hfirst
      · exact ih hlist ht
  rw [rename_eq_mapTypes, mapTypes_congr heach, mapTypes_id]

/-- Two renamings do what a third one does if they do so to every type. -/
theorem rename_rename {m₁ m₂ m : NameMapper} {s : Signature}
    (h : ∀ t ∈ s.types, (t.rename m₁).rename m₂ = t.rename m) :
    (s.rename m₁).rename m₂ = s.rename m := by
  rw [rename_eq_mapTypes m₁, rename_eq_mapTypes m₂, rename_eq_mapTypes m, mapTypes_mapTypes]
  exact mapTypes_congr h

theorem rename_none (s : Signature) : s.rename (fun _ => none) = s := by
  rw [rename_eq_mapTypes, mapTypes_congr fun t _ => t.rename_none, mapTypes_id]

/-! ## Texts of signatures -/

theorem read_eq_ok {text : String} {s : Signature} (h : parse text = some s) :
    ∃ c, read text.toList = .ok s c := by
  rw [parse] at h
  split at h
  case h_1 s' c hread =>
    obtain rfl := Option.some.inj h
    exact ⟨c, hread⟩
  case h_2 => cases h

/-- Whether a text is accepted does not depend on the mapper. -/
theorem exists_remap_iff {m : NameMapper} {text : String} :
    (∃ result, remap m text = .ok result) ↔ ∃ s, parse text = some s := by
  rw [remap, parse]
  cases read text.toList with
  | ok s c => simp
  | error e c => simp

/-- What a renaming answers is the text of the renamed signature. -/
theorem parse_of_remap {m : NameMapper} {text renamed : String}
    (h : remap m text = .ok (some renamed)) :
    ∃ s, parse text = some s ∧ renamed = String.ofList (s.rename m).toText := by
  rw [remap] at h
  rw [parse]
  split at h
  case h_1 s c hread =>
    dsimp only at h
    split at h
    case isTrue => cases h
    case isFalse => exact ⟨s, rfl, (Option.some.inj (Except.ok.inj h)).symm⟩
  case h_2 => cases h

end Signature

namespace NameRole

variable {m : NameMapper} {text : String} {s : Signature}

/-- The text of a signature is the text of the renamed signature afterwards. -/
theorem renamed_signature (h : Signature.parse text = some s) :
    signature.renamed m text = String.ofList (s.rename m).toText := by
  obtain ⟨c, hread⟩ := Signature.read_eq_ok h
  obtain ⟨-, htext⟩ := Signature.parse_eq_some.mp h
  rw [renamed, remap, Signature.remap, hread]
  by_cases hlabels : (s.rename m).labels = s.labels
  · simp only [hlabels, if_true, Option.getD_none]
    rw [Signature.rename_of_labels hlabels, ← htext]
  · simp only [hlabels, if_false, Option.getD_some]

/-- Nothing becomes of a text that is no signature. -/
theorem remap_of_parse_none (h : Signature.parse text = none) : signature.remap m text = none := by
  rw [Signature.parse] at h
  split at h
  case h_1 => cases h
  case h_2 hread => rw [remap, Signature.remap, hread]

/-- A text that is no signature stays. -/
theorem renamed_of_parse_none (h : Signature.parse text = none) :
    signature.renamed m text = text := by
  rw [renamed, remap_of_parse_none h, Option.getD_none]

/-- A renamed text is read as the renamed signature. -/
theorem parse_renamed (hm : KeepsLabels m) (h : Signature.parse text = some s) :
    Signature.parse (signature.renamed m text) = some (s.rename m) := by
  obtain ⟨hproper, -⟩ := Signature.parse_eq_some.mp h
  exact Signature.parse_eq_some.mpr ⟨hproper.rename hm, renamed_signature h⟩

/-- The mapper that renames no class keeps every text. -/
theorem renamed_none (role : NameRole) (text : String) :
    role.renamed (fun _ => none) text = text := by
  have hdescriptor : Descriptor.renamed (fun _ => none) text = text := by
    have hnames : ((Descriptor.ofText text.toList).rename fun _ => none).names =
        (Descriptor.ofText text.toList).names := by
      rw [Descriptor.names_rename]
      exact List.map_id _
    rw [Descriptor.renamed, Descriptor.remap]
    simp [hnames]
  cases role with
  | className =>
    cases harray : isArray text with
    | true => rw [renamed_of_isArray harray, hdescriptor]
    | false => rw [renamed_of_not_isArray harray, NameMapper.rename, Option.getD_none]
  | descriptor => exact hdescriptor
  | signature =>
    cases hparse : Signature.parse text with
    | none => exact renamed_of_parse_none hparse
    | some s =>
      rw [renamed_signature hparse, Signature.rename_none, ← (Signature.parse_eq_some.mp hparse).2]

theorem names_signature (h : Signature.parse text = some s) : signature.names text = s.names := by
  obtain ⟨c, hread⟩ := Signature.read_eq_ok h
  rw [names, Signature.namesIn, hread]

end NameRole

end JvmRelocation
