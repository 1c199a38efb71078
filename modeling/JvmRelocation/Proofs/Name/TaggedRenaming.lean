import JvmRelocation.Proofs.Name.SignatureRenaming
import JvmRelocation.Proofs.Relocation.Naming

/-!
# Renaming signatures under a tag

A relocation renames every class to its old name below the tag. In a signature this changes the
outermost name of a class type and nothing else, as long as the simple names of inner classes come
out as they were. They may not: an inner class whose outermost class keeps its name is written by
what stands behind the last dollar sign of its new name.
-/

namespace JvmRelocation

/-! ## Inner classes of a signature -/

/-- An inner class in a class type: the outermost class, the class right around it, and its simple
name. -/
structure InnerSegment where
  outermost : String
  enclosing : String
  simple : String
deriving DecidableEq, Repr

/-- The full name of an inner class. -/
def InnerSegment.full (s : InnerSegment) : String :=
  innerName s.enclosing s.simple

mutual

/-- The inner classes in a type, from left to right. -/
def TypeSignature.innerSegments : TypeSignature → List InnerSegment
  | .base _ => []
  | .array element => element.innerSegments
  | .typeVariable _ => []
  | .classType name suffixes => TypeSuffix.listInnerSegments name name suffixes

/-- The inner classes in what follows the class `enclosing`. -/
def TypeSuffix.listInnerSegments (outermost enclosing : String) : List TypeSuffix → List InnerSegment
  | [] => []
  | .arguments list :: rest =>
    TypeArgument.listInnerSegments list ++ TypeSuffix.listInnerSegments outermost enclosing rest
  | .inner name :: rest => ⟨outermost, enclosing, name⟩ ::
    TypeSuffix.listInnerSegments outermost (innerName enclosing name) rest

/-- The inner classes in type arguments. -/
def TypeArgument.listInnerSegments : List TypeArgument → List InnerSegment
  | [] => []
  | .wildcard :: rest => TypeArgument.listInnerSegments rest
  | .subtypeOf bound :: rest => bound.innerSegments ++ TypeArgument.listInnerSegments rest
  | .supertypeOf bound :: rest => bound.innerSegments ++ TypeArgument.listInnerSegments rest
  | .exactly type :: rest => type.innerSegments ++ TypeArgument.listInnerSegments rest

end

/-- The inner classes in a signature. -/
def Signature.innerSegments (s : Signature) : List InnerSegment :=
  s.types.flatMap TypeSignature.innerSegments

/-! ## Simple names -/

/-- An inner class is written by its simple name inside the class right around it. -/
theorem simpleName_innerName (outer name : String) :
    simpleName outer (innerName outer name) = name := by
  have hlist : (innerName outer name).toList = (outer.toList ++ ['$']) ++ name.toList := by
    simp [innerName, String.toList_append]
  rw [simpleName, hlist, if_pos (by rw [List.isPrefixOf_iff_prefix]; exact List.prefix_append _ _),
    List.drop_left, String.ofList_toList]

theorem relocatedName_innerName (tag outer name : String) :
    relocatedName tag (innerName outer name) = innerName (relocatedName tag outer) name := by
  simp only [relocatedName, innerName, String.append_assoc]

theorem innerName_innerName (outer name inner : String) :
    innerName (innerName outer name) inner = innerName outer (innerName name inner) := by
  simp only [innerName, String.append_assoc]

theorem afterLastDollar_append {name : List Char} (h : '$' ∈ name) (front : List Char) :
    afterLastDollar (front ++ name) = afterLastDollar name := by
  -- read from behind, the search ends before it leaves `name`
  have hstops : (name.reverse.takeWhile (· != '$')).length ≠ name.reverse.length := by
    intro heq
    have hall : name.reverse.takeWhile (· != '$') = name.reverse :=
      (List.takeWhile_sublist _).eq_of_length heq
    have := List.mem_takeWhile_imp (hall ▸ List.mem_reverse.mpr h)
    simp at this
  rw [afterLastDollar, afterLastDollar, List.reverse_append, List.takeWhile_append, if_neg hstops]

/-- Below a tag nothing changes for the simple names of inner classes. -/
theorem simpleName_relocatedName (tag : String) {outer target : String} (h : '$' ∈ target.toList) :
    simpleName (relocatedName tag outer) (relocatedName tag target) = simpleName outer target := by
  have hlist (name : String) :
      (relocatedName tag name).toList = (tag.toList ++ ['/']) ++ name.toList := by
    simp [relocatedName, String.toList_append]
  have hstarts : List.isPrefixOf ((tag.toList ++ ['/']) ++ outer.toList ++ ['$'])
      ((tag.toList ++ ['/']) ++ target.toList) =
      List.isPrefixOf (outer.toList ++ ['$']) target.toList := by
    rw [Bool.eq_iff_iff, List.isPrefixOf_iff_prefix, List.isPrefixOf_iff_prefix, List.append_assoc,
      List.prefix_append_right_inj]
  rw [simpleName, simpleName, hlist, hlist]
  simp only [hstarts]
  split
  · rw [List.append_assoc (tag.toList ++ ['/']), List.length_append, List.drop_length_add_append]
  · rw [afterLastDollar_append h]

/-- A simple name that comes out as it was inside a class with its old name does so inside that class
below the tag. -/
theorem simpleName_below_tag {tag outer name : String}
    (h : simpleName outer (relocatedName tag (innerName outer name)) = name) :
    simpleName (relocatedName tag outer) (relocatedName tag (relocatedName tag (innerName outer name))) =
      name := by
  have hdollar : '$' ∈ (relocatedName tag (innerName outer name)).toList := by
    simp [relocatedName, innerName, String.toList_append]
  rw [simpleName_relocatedName tag hdollar, h]

/-! ## Mappers that put names below a tag -/

/-- Every new name is the old one below the tag. -/
def Tags (tag : String) (m : NameMapper) : Prop :=
  ∀ name target, m name = some target → target = relocatedName tag name

theorem single_eq_none {source target name : String} (h : name ≠ source) :
    NameMapper.single source target name = none := if_neg h

theorem single_self (source target : String) :
    NameMapper.single source target source = some target := if_pos rfl

theorem length_innerName (outer name : String) :
    (innerName outer name).length = outer.length + 1 + name.length := by
  rw [innerName, String.length_append, String.length_append]
  rfl

theorem TypeSuffix.renameList_inner_some {m : NameMapper} {outer target name replaced : String}
    (h : m (innerName outer name) = some replaced) (list : List TypeSuffix) :
    TypeSuffix.renameList m outer target (.inner name :: list) =
      .inner (simpleName target replaced) ::
        TypeSuffix.renameList m (innerName outer name) replaced list := by
  rw [renameList, h]

theorem TypeSuffix.renameList_inner_none {m : NameMapper} {outer target name : String}
    (h : m (innerName outer name) = none) (list : List TypeSuffix) :
    TypeSuffix.renameList m outer target (.inner name :: list) =
      .inner name :: TypeSuffix.renameList m (innerName outer name) (innerName target name) list := by
  rw [renameList, h]

/-- Right inside a class with a new name, an inner class keeps its label, and the name that is built up
is the old one below the tag. -/
theorem TypeSuffix.renameList_inner_below {tag : String} {m : NameMapper} (hm : Tags tag m)
    (outer name : String) (list : List TypeSuffix) :
    TypeSuffix.renameList m outer (relocatedName tag outer) (.inner name :: list) =
      .inner name :: TypeSuffix.renameList m (innerName outer name)
        (relocatedName tag (innerName outer name)) list := by
  cases hreplaced : m (innerName outer name) with
  | none => rw [renameList_inner_none hreplaced, ← relocatedName_innerName]
  | some replaced =>
    obtain rfl := hm _ _ hreplaced
    rw [renameList_inner_some hreplaced, relocatedName_innerName, simpleName_innerName]

/-- Two renamings one after the other: the second one puts names below a tag, where none of them is
renamed again, and the first one does a part of that. -/
structure Staged (tag : String) (m₁ m : NameMapper) : Prop where
  sub : ∀ name target, m₁ name = some target → m name = some target
  tags : Tags tag m
  fresh : ∀ name, (m name).isSome = true → m (relocatedName tag name) = none

namespace Staged

variable {tag : String} {m₁ m : NameMapper}

theorem eq_none (h : Staged tag m₁ m) {name : String} (hname : m name = none) : m₁ name = none := by
  cases hone : m₁ name with
  | none => rfl
  | some target =>
    rw [h.sub _ _ hone] at hname
    cases hname

/-- A class that has a new name has it after both renamings. -/
theorem rename_rename_of_isSome (h : Staged tag m₁ m) {name : String}
    (hname : (m name).isSome = true) : m.rename (m₁.rename name) = relocatedName tag name := by
  obtain ⟨target, htarget⟩ := Option.isSome_iff_exists.mp hname
  obtain rfl := h.tags _ _ htarget
  cases hone : m₁ name with
  | none => rw [NameMapper.rename, NameMapper.rename, hone, Option.getD_none, htarget, Option.getD_some]
  | some target' =>
    obtain rfl := Option.some.inj ((h.sub _ _ hone).symm.trans htarget)
    rw [NameMapper.rename, NameMapper.rename, hone, Option.getD_some, h.fresh _ hname, Option.getD_none]

theorem rename_rename_of_none (h : Staged tag m₁ m) {name : String} (hname : m name = none) :
    m.rename (m₁.rename name) = name := by
  rw [NameMapper.rename, NameMapper.rename, h.eq_none hname, Option.getD_none, hname, Option.getD_none]

/-- For one name both renamings do what the second one does by itself. -/
theorem rename_rename (h : Staged tag m₁ m) (name : String) :
    m.rename (m₁.rename name) = m.rename name := by
  cases hname : m name with
  | none => rw [h.rename_rename_of_none hname, NameMapper.rename, hname, Option.getD_none]
  | some target =>
    rw [h.rename_rename_of_isSome (by rw [hname]; rfl), NameMapper.rename, hname, Option.getD_some,
      h.tags _ _ hname]

/-- No name that is left is renamed any more. -/
theorem rename_eq_none (h : Staged tag m₁ m) (name : String) : m (m.rename name) = none := by
  cases hname : m name with
  | none => rw [NameMapper.rename, hname, Option.getD_none, hname]
  | some target =>
    rw [NameMapper.rename, hname, Option.getD_some, h.tags _ _ hname]
    exact h.fresh _ (by rw [hname]; rfl)

end Staged

/-! ### One class first and all of them later -/

/-- The simple name of an inner class comes out as it was, if it is the class that is renamed first
or if that is the outermost class and the inner class has a new name below the tag. -/
def InnerSegment.Stable (tag first : String) (m : NameMapper) (s : InnerSegment) : Prop :=
  s.full = first ∨ s.outermost = first ∧ (m (relocatedName tag s.full)).isSome = true →
    simpleName s.enclosing (relocatedName tag s.full) = s.simple

instance (tag first : String) (m : NameMapper) (s : InnerSegment) :
    Decidable (s.Stable tag first m) :=
  inferInstanceAs (Decidable (_ → _))

section Twice

variable {tag first : String} {m : NameMapper}

theorem innerName_ne_of_length_le {outer name : String} (h : first.length ≤ outer.length) :
    innerName outer name ≠ first := by
  rintro rfl
  rw [length_innerName] at h
  omega

/-- Below another class, the first renaming keeps the label of an inner class, whether or not this is
the class that it renames. -/
theorem TypeSuffix.renameList_inner_single {outermost outer name target : String}
    (htarget : target = outer ∨ first.length ≤ outer.length)
    (hstable : InnerSegment.Stable tag first m ⟨outermost, outer, name⟩) (list : List TypeSuffix) :
    ∃ next, (next = innerName outer name ∨ first.length ≤ (innerName outer name).length) ∧
      TypeSuffix.renameList (.single first (relocatedName tag first)) outer target
        (.inner name :: list) = .inner name ::
          TypeSuffix.renameList (.single first (relocatedName tag first)) (innerName outer name) next
            list := by
  by_cases hfull : innerName outer name = first
  · have hlabel : simpleName outer (relocatedName tag (innerName outer name)) = name :=
      hstable (.inl hfull)
    have hreplaced : NameMapper.single first (relocatedName tag first) (innerName outer name) =
        some (relocatedName tag (innerName outer name)) := by
      rw [hfull, single_self]
    rw [renameList_inner_some hreplaced]
    obtain rfl | hlength := htarget
    · exact ⟨_, .inr (by rw [hfull]), by rw [hlabel]⟩
    · exact absurd hfull (innerName_ne_of_length_le hlength)
  · rw [renameList_inner_none (single_eq_none hfull)]
    refine ⟨innerName target name, ?_, rfl⟩
    obtain rfl | hlength := htarget
    · exact .inl rfl
    · rw [length_innerName]
      exact .inr (by omega)

mutual

theorem TypeSignature.rename_single
    (hm : Staged tag (.single first (relocatedName tag first)) m) {t : TypeSignature}
    (h : ∀ s ∈ t.innerSegments, s.Stable tag first m) :
    (t.rename (.single first (relocatedName tag first))).rename m = t.rename m := by
  match t with
  | .base letter => rfl
  | .array element =>
    rw [TypeSignature.rename, TypeSignature.rename, TypeSignature.rename,
      TypeSignature.rename_single hm (t := element) h]
  | .typeVariable name => rfl
  | .classType name suffixes =>
    rw [TypeSignature.innerSegments] at h
    rw [TypeSignature.rename, TypeSignature.rename, TypeSignature.rename]
    by_cases hname : name = first
    -- the outermost class is renamed first, and the second renaming leaves its new name alone
    · rw [hname] at h ⊢
      have htarget := hm.sub _ _ (single_self first (relocatedName tag first))
      have hone : NameMapper.rename (.single first (relocatedName tag first)) first =
          relocatedName tag first := by rw [NameMapper.rename, single_self, Option.getD_some]
      have htwo : m.rename (relocatedName tag first) = relocatedName tag first := by
        rw [NameMapper.rename, hm.fresh first (by rw [htarget]; rfl), Option.getD_none]
      have hdirect : m.rename first = relocatedName tag first := by
        rw [NameMapper.rename, htarget, Option.getD_some]
      rw [hone, htwo, hdirect, TypeSuffix.renameList_below_first hm (Nat.le_refl _)
        (.inl rfl) h]
    · have hone : NameMapper.rename (.single first (relocatedName tag first)) name = name := by
        rw [NameMapper.rename, single_eq_none hname, Option.getD_none]
      rw [hone, TypeSuffix.renameList_below_other hm (.inl rfl) h]

/-- Below the class that is renamed first, the labels of inner classes are kept in either way. -/
theorem TypeSuffix.renameList_below_first
    (hm : Staged tag (.single first (relocatedName tag first)) m)
    {list : List TypeSuffix} {outer target₁ target₂ : String}
    (hlength : first.length ≤ outer.length)
    (htarget : target₂ = relocatedName tag outer ∨
      target₂ = relocatedName tag (relocatedName tag outer))
    (h : ∀ s ∈ TypeSuffix.listInnerSegments first outer list, s.Stable tag first m) :
    TypeSuffix.renameList m (relocatedName tag outer) target₂
        (TypeSuffix.renameList (.single first (relocatedName tag first)) outer target₁ list) =
      TypeSuffix.renameList m outer (relocatedName tag outer) list := by
  match list with
  | [] => rfl
  | .arguments inside :: list =>
    rw [TypeSuffix.listInnerSegments, List.forall_mem_append] at h
    rw [TypeSuffix.renameList, TypeSuffix.renameList, TypeSuffix.renameList,
      TypeArgument.renameList_single hm h.1,
      TypeSuffix.renameList_below_first hm hlength htarget h.2]
  | .inner name :: list =>
    rw [TypeSuffix.listInnerSegments, List.forall_mem_cons] at h
    obtain ⟨hstable, hlist⟩ := h
    have hlength' : first.length ≤ (innerName outer name).length := by
      rw [length_innerName]
      omega
    rw [TypeSuffix.renameList_inner_below hm.tags,
      TypeSuffix.renameList_inner_none (single_eq_none (innerName_ne_of_length_le hlength))]
    have hfull := relocatedName_innerName tag outer name
    -- in two steps, the second renaming looks the name up below the tag, where it is not the old one
    cases hreplaced : m (relocatedName tag (innerName outer name)) with
    | none =>
      rw [TypeSuffix.renameList_inner_none (hfull ▸ hreplaced), ← hfull]
      refine congrArg _ (TypeSuffix.renameList_below_first hm hlength' ?_ hlist)
      obtain rfl | rfl := htarget
      · exact .inl hfull.symm
      · exact .inr (by rw [← relocatedName_innerName, hfull])
    | some replaced =>
      obtain rfl := hm.tags _ _ hreplaced
      have hlabel : simpleName target₂ (relocatedName tag (relocatedName tag (innerName outer name))) =
          name := by
        obtain rfl | rfl := htarget
        · exact simpleName_below_tag
            (hstable (.inr ⟨rfl, by rw [InnerSegment.full, hreplaced]; rfl⟩))
        · rw [relocatedName_innerName, relocatedName_innerName, simpleName_innerName]
      rw [TypeSuffix.renameList_inner_some (hfull ▸ hreplaced), ← hfull, hlabel]
      exact congrArg _ (TypeSuffix.renameList_below_first hm hlength' (.inr rfl) hlist)

/-- Below another class, the first renaming keeps the labels of inner classes. -/
theorem TypeSuffix.renameList_below_other
    (hm : Staged tag (.single first (relocatedName tag first)) m)
    {list : List TypeSuffix} {outermost outer target₁ target : String}
    (htarget : target₁ = outer ∨ first.length ≤ outer.length)
    (h : ∀ s ∈ TypeSuffix.listInnerSegments outermost outer list, s.Stable tag first m) :
    TypeSuffix.renameList m outer target
        (TypeSuffix.renameList (.single first (relocatedName tag first)) outer target₁ list) =
      TypeSuffix.renameList m outer target list := by
  match list with
  | [] => rfl
  | .arguments inside :: list =>
    rw [TypeSuffix.listInnerSegments, List.forall_mem_append] at h
    rw [TypeSuffix.renameList, TypeSuffix.renameList, TypeSuffix.renameList,
      TypeArgument.renameList_single hm h.1,
      TypeSuffix.renameList_below_other hm htarget h.2]
  | .inner name :: list =>
    rw [TypeSuffix.listInnerSegments, List.forall_mem_cons] at h
    obtain ⟨hstable, hlist⟩ := h
    obtain ⟨next, hnext, hkept⟩ := TypeSuffix.renameList_inner_single htarget hstable list
    rw [hkept]
    cases hreplaced : m (innerName outer name) with
    | none =>
      rw [TypeSuffix.renameList_inner_none hreplaced, TypeSuffix.renameList_inner_none hreplaced]
      exact congrArg _ (TypeSuffix.renameList_below_other hm hnext hlist)
    | some replaced =>
      rw [TypeSuffix.renameList_inner_some hreplaced, TypeSuffix.renameList_inner_some hreplaced]
      exact congrArg _ (TypeSuffix.renameList_below_other hm hnext hlist)

theorem TypeArgument.renameList_single
    (hm : Staged tag (.single first (relocatedName tag first)) m)
    {list : List TypeArgument}
    (h : ∀ s ∈ TypeArgument.listInnerSegments list, s.Stable tag first m) :
    TypeArgument.renameList m
        (TypeArgument.renameList (.single first (relocatedName tag first)) list) =
      TypeArgument.renameList m list := by
  match list with
  | [] => rfl
  | .wildcard :: list =>
    rw [TypeArgument.listInnerSegments] at h
    rw [TypeArgument.renameList, TypeArgument.renameList, TypeArgument.renameList,
      TypeArgument.renameList_single hm h]
  | .subtypeOf bound :: list | .supertypeOf bound :: list | .exactly bound :: list =>
    rw [TypeArgument.listInnerSegments, List.forall_mem_append] at h
    rw [TypeArgument.renameList, TypeArgument.renameList, TypeArgument.renameList,
      TypeSignature.rename_single hm h.1,
      TypeArgument.renameList_single hm h.2]

end

end Twice

/-! ### What is left of old names -/

/-- An inner class with a new name is inside an outermost class with one, and below the new name of
the outermost class no class with a new name is an inner class. -/
structure InnerSegment.Settled (tag : String) (m : NameMapper) (s : InnerSegment) : Prop where
  outermost : (m s.full).isSome = true → (m s.outermost).isSome = true
  below : (m s.outermost).isSome = true →
    ∀ name, m (innerName (relocatedName tag s.outermost) name) = none

/-- A renaming writes an inner class as one, under some label. -/
theorem TypeSuffix.exists_renameList_inner (m : NameMapper) (outer target name : String)
    (list : List TypeSuffix) : ∃ label full next, TypeSuffix.renameList m outer target
      (.inner name :: list) = .inner label :: TypeSuffix.renameList m full next list := by
  cases hreplaced : m (innerName outer name) with
  | none => exact ⟨_, _, _, renameList_inner_none hreplaced list⟩
  | some replaced => exact ⟨_, _, _, renameList_inner_some hreplaced list⟩

theorem exists_innerSegment {list : List TypeSuffix} {name : String} (h : .inner name ∈ list)
    (outermost enclosing : String) :
    ∃ s ∈ TypeSuffix.listInnerSegments outermost enclosing list, s.outermost = outermost := by
  induction list generalizing enclosing with
  | nil => cases h
  | cons suffix list ih =>
    cases suffix with
    | arguments inside =>
      obtain ⟨s, hs, houtermost⟩ := ih (by simpa using h) enclosing
      rw [TypeSuffix.listInnerSegments]
      exact ⟨s, List.mem_append_right _ hs, houtermost⟩
    | inner simple =>
      rw [TypeSuffix.listInnerSegments]
      exact ⟨_, List.mem_cons_self, rfl⟩

section Left

variable {tag : String} {m₁ m : NameMapper}

mutual

theorem TypeSignature.names_rename_rename (hm : Staged tag m₁ m)
    {t : TypeSignature} (h : ∀ s ∈ t.innerSegments, s.Settled tag m) :
    ∀ name ∈ ((t.rename m₁).rename m).names, m name = none := by
  match t with
  | .base letter => exact fun name hname => by cases hname
  | .array element =>
    rw [TypeSignature.rename, TypeSignature.rename, TypeSignature.names]
    exact TypeSignature.names_rename_rename hm (t := element) h
  | .typeVariable variableName => exact fun name hname => by cases hname
  | .classType outermost suffixes =>
    rw [TypeSignature.innerSegments] at h
    rw [TypeSignature.rename, TypeSignature.rename, TypeSignature.names, List.forall_mem_cons]
    cases hmarked : m outermost with
    | none =>
      have hone : m₁.rename outermost = outermost := by
        rw [NameMapper.rename, hm.eq_none hmarked, Option.getD_none]
      rw [hm.rename_rename_of_none hmarked, hone]
      exact ⟨hmarked, TypeSuffix.listNames_of_unmarked hm hmarked h⟩
    | some target =>
      have hsome : (m outermost).isSome = true := by rw [hmarked]; rfl
      rw [hm.rename_rename_of_isSome hsome]
      refine ⟨hm.fresh _ hsome, TypeSuffix.listNames_of_clear hm h ?_⟩
      rintro ⟨name, hinner⟩
      obtain ⟨s, hs, rfl⟩ := exists_innerSegment hinner outermost outermost
      exact (h s hs).below hsome

theorem TypeSuffix.listNames_of_unmarked (hm : Staged tag m₁ m)
    {list : List TypeSuffix} {outermost outer target₁ target₂ : String} (hmarked : m outermost = none)
    (h : ∀ s ∈ TypeSuffix.listInnerSegments outermost outer list, s.Settled tag m) :
    ∀ name ∈ TypeSuffix.listNames outer
      (TypeSuffix.renameList m outer target₂ (TypeSuffix.renameList m₁ outer target₁ list)),
      m name = none := by
  match list with
  | [] => exact fun name hname => by cases hname
  | .arguments inside :: list =>
    rw [TypeSuffix.listInnerSegments, List.forall_mem_append] at h
    rw [TypeSuffix.renameList, TypeSuffix.renameList, TypeSuffix.listNames, List.forall_mem_append]
    exact ⟨TypeArgument.listNames_rename_rename hm h.1,
      TypeSuffix.listNames_of_unmarked hm hmarked h.2⟩
  | .inner simple :: list =>
    rw [TypeSuffix.listInnerSegments, List.forall_mem_cons] at h
    -- a marked inner class would have a marked outermost class
    have hfull : m (innerName outer simple) = none := by
      rw [← Option.not_isSome_iff_eq_none]
      intro hsome
      have houtermost := h.1.outermost hsome
      rw [hmarked] at houtermost
      cases houtermost
    rw [TypeSuffix.renameList_inner_none (hm.eq_none hfull),
      TypeSuffix.renameList_inner_none hfull, TypeSuffix.listNames, List.forall_mem_cons]
    exact ⟨hfull, TypeSuffix.listNames_of_unmarked hm hmarked h.2⟩

theorem TypeSuffix.listNames_of_clear (hm : Staged tag m₁ m)
    {list : List TypeSuffix} {outermost enclosing outer₁ outer₂ outer target₁ target₂ : String}
    (h : ∀ s ∈ TypeSuffix.listInnerSegments outermost enclosing list, s.Settled tag m)
    (hclear : (∃ name, .inner name ∈ list) → ∀ name, m (innerName outer name) = none) :
    ∀ name ∈ TypeSuffix.listNames outer
      (TypeSuffix.renameList m outer₂ target₂ (TypeSuffix.renameList m₁ outer₁ target₁ list)),
      m name = none := by
  match list with
  | [] => exact fun name hname => by cases hname
  | .arguments inside :: list =>
    rw [TypeSuffix.listInnerSegments, List.forall_mem_append] at h
    rw [TypeSuffix.renameList, TypeSuffix.renameList, TypeSuffix.listNames, List.forall_mem_append]
    refine ⟨TypeArgument.listNames_rename_rename hm h.1,
      TypeSuffix.listNames_of_clear hm h.2 ?_⟩
    rintro ⟨name, hname⟩
    exact hclear ⟨name, List.mem_cons_of_mem _ hname⟩
  | .inner simple :: list =>
    rw [TypeSuffix.listInnerSegments, List.forall_mem_cons] at h
    have hnone := hclear ⟨simple, List.mem_cons_self⟩
    -- a class further inside is an inner class of the outermost one too, with a longer label
    have hdeeper (label name : String) : m (innerName (innerName outer label) name) = none := by
      rw [innerName_innerName]
      exact hnone _
    -- whatever label either renaming writes, the name that is read here has no new name
    obtain ⟨label₁, full₁, next₁, hone⟩ :=
      TypeSuffix.exists_renameList_inner m₁ outer₁ target₁ simple list
    obtain ⟨label₂, full₂, next₂, htwo⟩ := TypeSuffix.exists_renameList_inner m outer₂ target₂ label₁
      (TypeSuffix.renameList m₁ full₁ next₁ list)
    rw [hone, htwo, TypeSuffix.listNames, List.forall_mem_cons]
    exact ⟨hnone label₂, TypeSuffix.listNames_of_clear hm h.2 fun _ => hdeeper label₂⟩

theorem TypeArgument.listNames_rename_rename (hm : Staged tag m₁ m)
    {list : List TypeArgument}
    (h : ∀ s ∈ TypeArgument.listInnerSegments list, s.Settled tag m) :
    ∀ name ∈ TypeArgument.listNames (TypeArgument.renameList m (TypeArgument.renameList m₁ list)),
      m name = none := by
  match list with
  | [] => exact fun name hname => by cases hname
  | .wildcard :: list =>
    rw [TypeArgument.listInnerSegments] at h
    rw [TypeArgument.renameList, TypeArgument.renameList, TypeArgument.listNames]
    exact TypeArgument.listNames_rename_rename hm h
  | .subtypeOf bound :: list | .supertypeOf bound :: list | .exactly bound :: list =>
    rw [TypeArgument.listInnerSegments, List.forall_mem_append] at h
    rw [TypeArgument.renameList, TypeArgument.renameList, TypeArgument.listNames,
      List.forall_mem_append]
    exact ⟨TypeSignature.names_rename_rename hm h.1,
      TypeArgument.listNames_rename_rename hm h.2⟩

end

end Left

end JvmRelocation
