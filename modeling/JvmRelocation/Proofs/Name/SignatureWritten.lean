import JvmRelocation.Proofs.Name.SignatureBytes
import JvmRelocation.Proofs.Name.SignatureGrammar
import JvmRelocation.Proofs.Name.TaggedRenaming

/-!
# What is written while a signature is read

What the reader of bytes has written behind a part of a signature, told from the tree of that part: the
text of the renamed tree, and whether a label differs. It is put together from the parts of the part in
the order in which they are read.
-/

namespace JvmRelocation

/-! ## What is written -/

namespace Written

theorem append_assoc (a b c : Written) : a ++ b ++ c = a ++ (b ++ c) := by
  ext1
  · exact List.append_assoc ..
  · exact Bool.or_assoc ..

theorem append_nothing (a : Written) : a ++ nothing = a := by
  ext1
  · exact List.append_nil _
  · exact Bool.or_false _

theorem nothing_append (a : Written) : nothing ++ a = a := by
  ext1
  · rfl
  · exact Bool.false_or _

/-- A text that is written with new labels in the place of old ones. -/
def of (text : List Char) (old new : List String) : Written := ⟨text, decide (new ≠ old)⟩

theorem of_self (text : List Char) (labels : List String) : of text labels labels = copied text := by
  simp [of, copied]

theorem answer_of (text : List Char) (old new : List String) :
    (of text old new).answer = if new = old then none else some (String.ofList text) := by
  by_cases h : new = old <;> simp [answer, of, h]

theorem of_singleton (old new : String) : of new.toList [old] [new] = label old new := by
  simp [of, label]

/-- Labels differ where one of them does. -/
theorem of_append {text text' : List Char} {old old' new new' : List String}
    (h : new.length = old.length) :
    of (text ++ text') (old ++ old') (new ++ new') = of text old new ++ of text' old' new' := by
  ext1
  · rfl
  · show decide _ = (decide _ || decide _)
    rw [← Bool.decide_or, decide_eq_decide, ← not_and_or, Ne, not_iff_not]
    constructor
    · intro heq
      exact List.append_inj heq h
    · rintro ⟨rfl, rfl⟩
      rfl

theorem copied_append_of (text text' : List Char) (old new : List String) :
    copied text ++ of text' old new = of (text ++ text') old new := by
  have hnone : ([] : List String).length = ([] : List String).length := rfl
  exact (of_append hnone).symm

theorem of_append_copied (text text' : List Char) (old new : List String) :
    of text old new ++ copied text' = of (text ++ text') old new := by
  ext1
  · rfl
  · exact Bool.or_false _

theorem label_append_of (old new : String) (text : List Char) (labels renamed : List String) :
    label old new ++ of text labels renamed =
      of (new.toList ++ text) (old :: labels) (new :: renamed) := by
  have hone : [new].length = [old].length := rfl
  rw [← of_singleton]
  exact (of_append hone).symm

section Each

variable {α : Type} (written : α → Written)

/-- What is written of several parts, one after another. -/
def each (list : List α) : Written :=
  list.foldr (fun a w => written a ++ w) nothing

theorem each_cons (a : α) (list : List α) :
    each written (a :: list) = written a ++ each written list := rfl

theorem length_flatMap_map {labels : α → List String} {rename : α → α}
    (h : ∀ a, (labels (rename a)).length = (labels a).length) (list : List α) :
    ((list.map rename).flatMap labels).length = (list.flatMap labels).length := by
  rw [List.flatMap_map, List.length_flatMap, List.length_flatMap]
  simp only [h]

variable {written}

theorem each_eq_of {textBefore : α → List Char → List Char} {labels : α → List String} {rename : α → α}
    (hwritten : ∀ a, written a = of (textBefore (rename a) []) (labels a) (labels (rename a)))
    (htext : ∀ a rest, textBefore a rest = textBefore a [] ++ rest)
    (hlabels : ∀ a, (labels (rename a)).length = (labels a).length) (list : List α) :
    each written list = of ((list.map rename).foldr textBefore []) (list.flatMap labels)
      ((list.map rename).flatMap labels) := by
  induction list with
  | nil => rfl
  | cons a list ih =>
    rw [each_cons, ih, hwritten, ← of_append (hlabels a), ← htext]
    rfl

end Each

end Written

section

variable (m : NameMapper)

/-- What is written of a type. -/
def TypeSignature.written (t : TypeSignature) : Written :=
  .of ((t.rename m).textBefore []) t.labels (t.rename m).labels

/-- What is written of what follows the class `outer`, now called `target`. -/
def TypeSuffix.written (outer target : String) (list : List TypeSuffix) : Written :=
  .of (TypeSuffix.listTextBefore (TypeSuffix.renameList m outer target list) [])
    (TypeSuffix.listLabels list) (TypeSuffix.listLabels (TypeSuffix.renameList m outer target list))

/-- What is written of type arguments. -/
def TypeArgument.written (list : List TypeArgument) : Written :=
  .of (TypeArgument.listTextBefore (TypeArgument.renameList m list) [])
    (TypeArgument.listLabels list) (TypeArgument.listLabels (TypeArgument.renameList m list))

variable {m}

theorem TypeSignature.written_array (element : TypeSignature) :
    written m (.array element) = .copied ['['] ++ written m element := by
  rw [written, written, Written.copied_append_of]
  simp only [rename, textBefore, labels, List.singleton_append]

theorem TypeSignature.written_typeVariable (name : String) :
    written m (.typeVariable name) = .copied ['T'] ++ (.copied name.toList ++ .copied [';']) := by
  rw [← Written.of_self [';'] [], Written.copied_append_of, Written.copied_append_of]
  rfl

theorem TypeSignature.written_classType (name : String) (suffixes : List TypeSuffix) :
    written m (.classType name suffixes) = .copied ['L'] ++ (.label name (m.rename name) ++
      (TypeSuffix.written m name (m.rename name) suffixes ++ .copied [';'])) := by
  rw [written, TypeSuffix.written, Written.of_append_copied, Written.label_append_of,
    Written.copied_append_of, ← TypeSuffix.listTextBefore_eq_append]
  simp only [rename, textBefore, labels, List.singleton_append]

section Suffixes

variable (outer target : String) (list : List TypeSuffix)

theorem TypeSuffix.written_arguments (inside : List TypeArgument) :
    written m outer target (.arguments inside :: list) = .copied ['<'] ++
      (TypeArgument.written m inside ++ (.copied ['>'] ++ written m outer target list)) := by
  rw [written, written, TypeArgument.written, Written.copied_append_of,
    ← Written.of_append (TypeArgument.length_listLabels_rename inside), Written.copied_append_of]
  simp only [renameList, listTextBefore, listLabels, List.singleton_append]
  rw [TypeArgument.listTextBefore_eq_append]

theorem TypeSuffix.written_inner_none {name : String} (h : m (innerName outer name) = none) :
    written m outer target (.inner name :: list) = .copied ['.'] ++ (.copied name.toList ++
      written m (innerName outer name) (innerName target name) list) := by
  have hsame : Written.copied name.toList = .label name name := by simp [Written.copied, Written.label]
  rw [written, renameList_inner_none h, written, hsame, Written.label_append_of,
    Written.copied_append_of]
  simp only [listTextBefore, listLabels, List.singleton_append]

theorem TypeSuffix.written_inner_some {name replaced : String}
    (h : m (innerName outer name) = some replaced) :
    written m outer target (.inner name :: list) = .copied ['.'] ++
      (.label name (simpleName target replaced) ++
        written m (innerName outer name) replaced list) := by
  rw [written, renameList_inner_some h, written, Written.label_append_of, Written.copied_append_of]
  simp only [listTextBefore, listLabels, List.singleton_append]

end Suffixes

section Arguments

variable (list : List TypeArgument)

theorem TypeArgument.written_wildcard :
    written m (.wildcard :: list) = .copied ['*'] ++ written m list := by
  rw [written, written, Written.copied_append_of]
  simp only [renameList, listTextBefore, listLabels, List.singleton_append]

theorem TypeArgument.written_exactly (type : TypeSignature) :
    written m (.exactly type :: list) = type.written m ++ written m list := by
  rw [written, written, TypeSignature.written, ← Written.of_append type.length_labels_rename,
    ← TypeSignature.textBefore_eq_append]
  simp only [renameList, listTextBefore, listLabels]

theorem TypeArgument.written_subtypeOf (bound : TypeSignature) :
    written m (.subtypeOf bound :: list) = .copied ['+'] ++ (bound.written m ++ written m list) := by
  rw [← written_exactly, written, written, Written.copied_append_of]
  simp only [renameList, listTextBefore, listLabels, List.singleton_append]

theorem TypeArgument.written_supertypeOf (bound : TypeSignature) :
    written m (.supertypeOf bound :: list) =
      .copied ['-'] ++ (bound.written m ++ written m list) := by
  rw [← written_exactly, written, written, Written.copied_append_of]
  simp only [renameList, listTextBefore, listLabels, List.singleton_append]

end Arguments

end

/-! ## Bodies and formal type parameters -/

section

variable (m : NameMapper)

/-- What is written of a bound. -/
def FormalParameter.boundWritten (bound : Option TypeSignature) : Written :=
  match bound with
  | some type => .copied [':'] ++ type.written m
  | none => .copied [':']

/-- What is written of a formal type parameter. -/
def FormalParameter.written (p : FormalParameter) : Written :=
  .copied p.name.toList ++ .each (boundWritten m) p.bounds

/-- What is written of an exception that a method throws. -/
def TypeSignature.thrownWritten (t : TypeSignature) : Written :=
  .copied ['^'] ++ t.written m

/-- What is written of what follows the formal type parameters. -/
def SignatureBody.written (b : SignatureBody) : Written :=
  match b with
  | .method parameters result thrown => .copied ['('] ++ (.each (TypeSignature.written m) parameters ++
      (.copied [')'] ++ (result.written m ++ .each (TypeSignature.thrownWritten m) thrown)))
  | .types list => .each (TypeSignature.written m) list

/-- What is written of a signature. -/
def Signature.written (s : Signature) : Written :=
  match s.formals with
  | some list => .copied ['<'] ++ (.each (FormalParameter.written m) list ++
      (.copied ['>'] ++ s.body.written m))
  | none => s.body.written m

end

/-! ## Signatures -/

section Signatures

variable {m : NameMapper}

/-- The labels of a formal type parameter, from left to right. -/
def FormalParameter.labels (p : FormalParameter) : List String :=
  (p.bounds.filterMap id).flatMap TypeSignature.labels

/-- The labels of a bound. -/
def FormalParameter.boundLabels (bound : Option TypeSignature) : List String :=
  match bound with
  | some type => type.labels
  | none => []

theorem FormalParameter.labels_eq (p : FormalParameter) : p.labels = p.bounds.flatMap boundLabels := by
  rw [labels, List.filterMap_eq_flatMap_toList, List.flatMap_assoc]
  refine List.flatMap_congr fun bound _ => ?_
  cases bound with
  | none => rfl
  | some t => exact List.append_nil _

theorem FormalParameter.length_boundLabels_map (bound : Option TypeSignature) :
    (boundLabels (bound.map (TypeSignature.rename m))).length = (boundLabels bound).length := by
  cases bound with
  | none => rfl
  | some t => exact t.length_labels_rename

theorem FormalParameter.length_labels_rename (p : FormalParameter) :
    (p.rename m).labels.length = p.labels.length := by
  rw [labels_eq, labels_eq]
  exact Written.length_flatMap_map length_boundLabels_map p.bounds

theorem Signature.labels_method (parameters : List TypeSignature) (result : TypeSignature)
    (thrown : List TypeSignature) :
    (⟨none, .method parameters result thrown⟩ : Signature).labels =
      parameters.flatMap TypeSignature.labels ++
        (result.labels ++ thrown.flatMap TypeSignature.labels) := by
  simp [labels, types]

theorem Signature.labels_types (list : List TypeSignature) :
    (⟨none, .types list⟩ : Signature).labels = list.flatMap TypeSignature.labels := by
  simp [labels, types]

theorem Signature.labels_some (list : List FormalParameter) (b : SignatureBody) :
    (⟨some list, b⟩ : Signature).labels =
      list.flatMap FormalParameter.labels ++ (⟨none, b⟩ : Signature).labels := by
  have hlist : list.flatMap FormalParameter.labels =
      (list.flatMap fun p => p.bounds.filterMap id).flatMap TypeSignature.labels :=
    List.flatMap_assoc.symm
  rw [hlist, labels, labels, types, types, List.flatMap_append]
  rfl

theorem TypeSignature.each_written (list : List TypeSignature) :
    Written.each (written m) list = .of (listTextBefore (list.map (rename m)) [])
      (list.flatMap labels) ((list.map (rename m)).flatMap labels) :=
  Written.each_eq_of (fun _ => rfl) textBefore_eq_append length_labels_rename list

theorem TypeSignature.each_thrownWritten (list : List TypeSignature) :
    Written.each (thrownWritten m) list =
      .of ((list.map (rename m)).foldr (fun t rest => '^' :: t.textBefore rest) [])
        (list.flatMap labels) ((list.map (rename m)).flatMap labels) := by
  refine Written.each_eq_of (fun t => ?_) (fun t rest => ?_) length_labels_rename list
  · rw [thrownWritten, written, Written.copied_append_of]
    rfl
  · rw [t.textBefore_eq_append]
    rfl

theorem FormalParameter.written_eq (p : FormalParameter) :
    p.written m = .of ((p.rename m).textBefore []) p.labels (p.rename m).labels := by
  have hbound (bound : Option TypeSignature) : boundWritten m bound =
      .of (boundTextBefore (bound.map (TypeSignature.rename m)) []) (boundLabels bound)
        (boundLabels (bound.map (TypeSignature.rename m))) := by
    cases bound with
    | none => rfl
    | some t =>
      rw [boundWritten, TypeSignature.written, Written.copied_append_of]
      rfl
  rw [written, labels_eq, labels_eq,
    Written.each_eq_of hbound boundTextBefore_eq_append length_boundLabels_map,
    Written.copied_append_of]
  rfl

theorem SignatureBody.written_eq (b : SignatureBody) :
    b.written m = .of ((b.rename m).textBefore []) (⟨none, b⟩ : Signature).labels
      (⟨none, b.rename m⟩ : Signature).labels := by
  cases b with
  | method parameters result thrown =>
    rw [rename, Signature.labels_method, Signature.labels_method, textBefore,
      TypeSignature.listTextBefore_eq_append _ (')' :: _), TypeSignature.textBefore_eq_append, written,
      TypeSignature.each_written, TypeSignature.written, TypeSignature.each_thrownWritten,
      ← Written.of_append result.length_labels_rename, Written.copied_append_of,
      ← Written.of_append (Written.length_flatMap_map TypeSignature.length_labels_rename parameters),
      Written.copied_append_of]
    rfl
  | types list =>
    rw [rename, Signature.labels_types, Signature.labels_types, written, TypeSignature.each_written]
    rfl

/-- What is written of a signature is the text of the renamed one, with the labels of that one in the
place of its own. -/
theorem Signature.written_eq (s : Signature) :
    s.written m = .of (s.rename m).toText s.labels (s.rename m).labels := by
  obtain ⟨formals, b⟩ := s
  cases formals with
  | none => exact b.written_eq
  | some list =>
    have hlist : Written.each (FormalParameter.written m) list =
        .of ((list.map (FormalParameter.rename m)).foldr FormalParameter.textBefore [])
          (list.flatMap FormalParameter.labels)
          ((list.map (FormalParameter.rename m)).flatMap FormalParameter.labels) :=
      Written.each_eq_of FormalParameter.written_eq FormalParameter.textBefore_eq_append
        FormalParameter.length_labels_rename list
    have hlength := Written.length_flatMap_map (FormalParameter.length_labels_rename (m := m)) list
    have htext : (rename m ⟨some list, b⟩).toText = ['<'] ++
        ((list.map (FormalParameter.rename m)).foldr FormalParameter.textBefore [] ++
          (['>'] ++ (b.rename m).textBefore [])) := by
      show '<' :: (list.map (FormalParameter.rename m)).foldr FormalParameter.textBefore
        ('>' :: (b.rename m).textBefore []) = _
      rw [foldr_textBefore FormalParameter.textBefore_eq_append,
        foldr_textBefore FormalParameter.textBefore_eq_append _ [], List.append_nil]
      rfl
    have hlabels : (rename m ⟨some list, b⟩).labels =
        (list.map (FormalParameter.rename m)).flatMap FormalParameter.labels ++
          (⟨none, b.rename m⟩ : Signature).labels := labels_some _ _
    rw [htext, hlabels, labels_some]
    show Written.copied ['<'] ++ (.each (FormalParameter.written m) list ++
      (.copied ['>'] ++ b.written m)) = _
    rw [hlist, b.written_eq, Written.copied_append_of, ← Written.of_append hlength,
      Written.copied_append_of]

end Signatures

end JvmRelocation
