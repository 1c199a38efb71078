import JvmRelocation.Proofs.Name.DescriptorTokens
import JvmRelocation.Proofs.Name.SignatureRenaming
import JvmRelocation.Proofs.Name.TaggedRenaming

/-!
# What becomes of a text is another text

In no role does a renaming answer with the text it was given, whatever the names of the mapper hold,
and it answers only where it renames a class that the text mentions. For a signature the first part
is told by the characters that end the name of a class. Renaming keeps all of them that stand around
labels, and labels that were read hold none. So a text that comes out as it was has new labels
without any, and these are cut off where the old ones were.
-/

namespace JvmRelocation

open SignatureReader (endsName)

/-! ## Names that stay -/

section Fixed

variable {m : NameMapper}

mutual

theorem TypeSignature.rename_of_fixed {t : TypeSignature}
    (h : ∀ name ∈ t.names, m.rename name = name) : t.rename m = t := by
  match t with
  | .base letter => rfl
  | .array element => rw [TypeSignature.rename, TypeSignature.rename_of_fixed (t := element) h]
  | .typeVariable name => rfl
  | .classType name suffixes =>
    rw [TypeSignature.names, List.forall_mem_cons] at h
    rw [TypeSignature.rename, h.1, TypeSuffix.renameList_of_fixed h.2]

/-- Inside a class that keeps its name, classes that keep theirs keep their simple names. -/
theorem TypeSuffix.renameList_of_fixed {list : List TypeSuffix} {outer : String}
    (h : ∀ name ∈ TypeSuffix.listNames outer list, m.rename name = name) :
    TypeSuffix.renameList m outer outer list = list := by
  match list with
  | [] => rfl
  | .arguments inside :: list =>
    rw [TypeSuffix.listNames, List.forall_mem_append] at h
    rw [TypeSuffix.renameList, TypeArgument.renameList_of_fixed h.1,
      TypeSuffix.renameList_of_fixed h.2]
  | .inner name :: list =>
    rw [TypeSuffix.listNames, List.forall_mem_cons] at h
    obtain ⟨hfull, hlist⟩ := h
    cases hreplaced : m (innerName outer name) with
    | none => rw [TypeSuffix.renameList_inner_none hreplaced, TypeSuffix.renameList_of_fixed hlist]
    | some replaced =>
      obtain rfl : replaced = innerName outer name := by
        rw [← hfull, NameMapper.rename, hreplaced, Option.getD_some]
      rw [TypeSuffix.renameList_inner_some hreplaced, simpleName_innerName,
        TypeSuffix.renameList_of_fixed hlist]

theorem TypeArgument.renameList_of_fixed {list : List TypeArgument}
    (h : ∀ name ∈ TypeArgument.listNames list, m.rename name = name) :
    TypeArgument.renameList m list = list := by
  match list with
  | [] => rfl
  | .wildcard :: list =>
    rw [TypeArgument.listNames] at h
    rw [TypeArgument.renameList, TypeArgument.renameList_of_fixed h]
  | .subtypeOf bound :: list | .supertypeOf bound :: list | .exactly bound :: list =>
    rw [TypeArgument.listNames, List.forall_mem_append] at h
    rw [TypeArgument.renameList, TypeSignature.rename_of_fixed h.1,
      TypeArgument.renameList_of_fixed h.2]

end

theorem Signature.rename_of_fixed {s : Signature} (h : ∀ name ∈ s.names, m.rename name = name) :
    s.rename m = s := by
  have heach : ∀ t ∈ s.types, t.rename m = t := fun t ht =>
    TypeSignature.rename_of_fixed fun name hname => h name (List.mem_flatMap.mpr ⟨t, ht, hname⟩)
  rw [rename_eq_mapTypes, mapTypes_congr heach, mapTypes_id]

end Fixed

/-! ## Characters that end a name -/

/-- How many characters of a text end the name of a class. -/
def ends (text : List Char) : Nat := text.countP endsName

/-- How many characters of the labels end the name of a class. -/
def labelEnds (labels : List String) : Nat := ends (labels.flatMap String.toList)

theorem ends_append (a b : List Char) : ends (a ++ b) = ends a + ends b := List.countP_append

theorem ends_cons (c : Char) (rest : List Char) :
    ends (c :: rest) = ends rest + if endsName c then 1 else 0 := List.countP_cons

theorem labelEnds_append (a b : List String) : labelEnds (a ++ b) = labelEnds a + labelEnds b := by
  rw [labelEnds, List.flatMap_append, ends_append]
  rfl

theorem labelEnds_cons (label : String) (rest : List String) :
    labelEnds (label :: rest) = ends label.toList + labelEnds rest := by
  rw [labelEnds, List.flatMap_cons, ends_append]
  rfl

theorem labelEnds_eq_zero_iff {labels : List String} :
    labelEnds labels = 0 ↔ ∀ label ∈ labels, ProperLabel label := by
  rw [labelEnds, ends, List.countP_eq_zero]
  simp only [List.mem_flatMap, ProperLabel]
  constructor
  · intro h label hlabel c hc
    simpa using h c ⟨label, hlabel, hc⟩
  · rintro h c ⟨label, hlabel, hc⟩
    simpa using h label hlabel c hc

section Counting

variable {m : NameMapper}

mutual

/-- A renaming adds the ends in the new labels and takes away those in the old ones. -/
theorem TypeSignature.ends_rename (t : TypeSignature) (rest rest' : List Char) :
    ends ((t.rename m).textBefore rest') + labelEnds t.labels + ends rest =
      ends (t.textBefore rest) + labelEnds (t.rename m).labels + ends rest' := by
  match t with
  | .base letter =>
    simp only [TypeSignature.rename, TypeSignature.textBefore, TypeSignature.labels, ends_cons]
    omega
  | .array element =>
    have helement := element.ends_rename rest rest'
    simp only [TypeSignature.rename, TypeSignature.textBefore, TypeSignature.labels, ends_cons]
    omega
  | .typeVariable name =>
    simp only [TypeSignature.rename, TypeSignature.textBefore, TypeSignature.labels, ends_cons,
      ends_append]
    omega
  | .classType name suffixes =>
    have hsuffixes := TypeSuffix.ends_renameList suffixes name (m.rename name) (';' :: rest)
      (';' :: rest')
    simp only [TypeSignature.rename, TypeSignature.textBefore, TypeSignature.labels, ends_cons,
      ends_append, labelEnds_cons] at hsuffixes ⊢
    omega

theorem TypeSuffix.ends_renameList (list : List TypeSuffix) (outer target : String)
    (rest rest' : List Char) :
    ends (TypeSuffix.listTextBefore (TypeSuffix.renameList m outer target list) rest') +
        labelEnds (TypeSuffix.listLabels list) + ends rest =
      ends (TypeSuffix.listTextBefore list rest) +
        labelEnds (TypeSuffix.listLabels (TypeSuffix.renameList m outer target list)) +
        ends rest' := by
  match list with
  | [] =>
    simp only [TypeSuffix.renameList, TypeSuffix.listTextBefore, TypeSuffix.listLabels]
    omega
  | .arguments inside :: list =>
    have hlist := TypeSuffix.ends_renameList list outer target rest rest'
    have hinside := TypeArgument.ends_renameList inside ('>' :: TypeSuffix.listTextBefore list rest)
      ('>' :: TypeSuffix.listTextBefore (TypeSuffix.renameList m outer target list) rest')
    simp only [TypeSuffix.renameList, TypeSuffix.listTextBefore, TypeSuffix.listLabels, ends_cons,
      labelEnds_append] at hinside ⊢
    omega
  | .inner name :: list =>
    cases hreplaced : m (innerName outer name) with
    | none =>
      have hlist := TypeSuffix.ends_renameList list (innerName outer name) (innerName target name)
        rest rest'
      simp only [TypeSuffix.renameList_inner_none hreplaced, TypeSuffix.listTextBefore,
        TypeSuffix.listLabels, ends_cons, ends_append, labelEnds_cons]
      omega
    | some replaced =>
      have hlist := TypeSuffix.ends_renameList list (innerName outer name) replaced rest rest'
      simp only [TypeSuffix.renameList_inner_some hreplaced, TypeSuffix.listTextBefore,
        TypeSuffix.listLabels, ends_cons, ends_append, labelEnds_cons]
      omega

theorem TypeArgument.ends_renameList (list : List TypeArgument) (rest rest' : List Char) :
    ends (TypeArgument.listTextBefore (TypeArgument.renameList m list) rest') +
        labelEnds (TypeArgument.listLabels list) + ends rest =
      ends (TypeArgument.listTextBefore list rest) +
        labelEnds (TypeArgument.listLabels (TypeArgument.renameList m list)) + ends rest' := by
  match list with
  | [] =>
    simp only [TypeArgument.renameList, TypeArgument.listTextBefore, TypeArgument.listLabels]
    omega
  | .wildcard :: list =>
    have hlist := TypeArgument.ends_renameList list rest rest'
    simp only [TypeArgument.renameList, TypeArgument.listTextBefore, TypeArgument.listLabels,
      ends_cons]
    omega
  | .subtypeOf bound :: list | .supertypeOf bound :: list | .exactly bound :: list =>
    have hlist := TypeArgument.ends_renameList list rest rest'
    have hbound := bound.ends_rename (TypeArgument.listTextBefore list rest)
      (TypeArgument.listTextBefore (TypeArgument.renameList m list) rest')
    simp only [TypeArgument.renameList, TypeArgument.listTextBefore, TypeArgument.listLabels,
      labelEnds_append, ends_cons]
    omega

end

end Counting

/-! ## Labels are cut off where the old ones were -/

/-- Two texts without ends, each in front of an end, are equal if they start one text. -/
theorem eq_of_append_end {name name' : List Char} {c c' : Char} {rest rest' : List Char}
    (h : name' ++ c' :: rest' = name ++ c :: rest) (hname : ∀ x ∈ name, endsName x = false)
    (hname' : ∀ x ∈ name', endsName x = false) (hc : endsName c = true) (hc' : endsName c' = true) :
    name' = name ∧ c' :: rest' = c :: rest := by
  have hfront (front : List Char) (d : Char) (behind : List Char)
      (hnone : ∀ x ∈ front, endsName x = false) (hd : endsName d = true) :
      (front ++ d :: behind).takeWhile (fun x => !endsName x) = front := by
    rw [List.takeWhile_append_of_pos fun x hx => by rw [hnone x hx]; rfl,
      List.takeWhile_cons_of_neg (by simp [hd]), List.append_nil]
  have heq : name' = name := by
    rw [← hfront name' c' rest' hname' hc', h, hfront name c rest hname hc]
  subst heq
  exact ⟨rfl, List.append_cancel_left h⟩

section Cutting

variable {m : NameMapper}

mutual

/-- A type whose new labels hold no ends and that starts the text it started before has its old
labels, and leaves the same text behind it. -/
theorem TypeSignature.labels_of_textBefore {t : TypeSignature} (h : t.Proper)
    (hlabels : ∀ label ∈ (t.rename m).labels, ProperLabel label) {rest rest' : List Char}
    (htext : (t.rename m).textBefore rest' = t.textBefore rest) :
    (t.rename m).labels = t.labels ∧ rest' = rest := by
  match t with
  | .base letter => exact ⟨rfl, (List.cons.inj htext).2⟩
  | .array element =>
    simp only [TypeSignature.rename, TypeSignature.textBefore, TypeSignature.labels]
      at hlabels htext ⊢
    exact TypeSignature.labels_of_textBefore (t := element) h hlabels (List.cons.inj htext).2
  | .typeVariable name =>
    have hrest := List.append_cancel_left (List.cons.inj htext).2
    exact ⟨rfl, (List.cons.inj hrest).2⟩
  | .classType name suffixes =>
    rw [TypeSignature.Proper] at h
    simp only [TypeSignature.rename, TypeSignature.textBefore, TypeSignature.labels,
      List.forall_mem_cons] at hlabels htext ⊢
    have htext := (List.cons.inj htext).2
    obtain ⟨c, text, hstart, hc⟩ := TypeSuffix.listTextBefore_cons suffixes rest
    obtain ⟨c', text', hstart', hc'⟩ := TypeSuffix.listTextBefore_cons
      (TypeSuffix.renameList m name (m.rename name) suffixes) rest'
    rw [hstart, hstart'] at htext
    obtain ⟨hname, hbehind⟩ := eq_of_append_end htext h.1 hlabels.1 hc hc'
    rw [← hstart, ← hstart'] at hbehind
    obtain ⟨hrest, heq⟩ := TypeSuffix.labels_of_listTextBefore h.2 hlabels.2 hbehind
    rw [hrest, String.toList_inj.mp hname]
    exact ⟨rfl, heq⟩

theorem TypeSuffix.labels_of_listTextBefore {list : List TypeSuffix}
    (h : TypeSuffix.ListProper list) {outer target : String}
    (hlabels : ∀ label ∈ TypeSuffix.listLabels (TypeSuffix.renameList m outer target list),
      ProperLabel label) {rest rest' : List Char}
    (htext : TypeSuffix.listTextBefore (TypeSuffix.renameList m outer target list) (';' :: rest') =
      TypeSuffix.listTextBefore list (';' :: rest)) :
    TypeSuffix.listLabels (TypeSuffix.renameList m outer target list) =
      TypeSuffix.listLabels list ∧ rest' = rest := by
  match list with
  | [] => exact ⟨rfl, (List.cons.inj htext).2⟩
  | .arguments inside :: list =>
    rw [TypeSuffix.ListProper] at h
    simp only [TypeSuffix.renameList, TypeSuffix.listTextBefore, TypeSuffix.listLabels,
      List.forall_mem_append] at hlabels htext ⊢
    obtain ⟨hinside, hbehind⟩ :=
      TypeArgument.labels_of_listTextBefore h.1 hlabels.1 (List.cons.inj htext).2
    obtain ⟨hlist, heq⟩ := TypeSuffix.labels_of_listTextBefore h.2 hlabels.2 hbehind
    exact ⟨by rw [hinside, hlist], heq⟩
  | .inner name :: list =>
    rw [TypeSuffix.ListProper] at h
    -- whatever the inner class is called now, its label ends in front of what follows it
    obtain ⟨label, full, next, hrename⟩ :=
      TypeSuffix.exists_renameList_inner m outer target name list
    rw [hrename] at hlabels htext ⊢
    simp only [TypeSuffix.listTextBefore, TypeSuffix.listLabels, List.forall_mem_cons]
      at hlabels htext ⊢
    have htext := (List.cons.inj htext).2
    obtain ⟨c, text, hstart, hc⟩ := TypeSuffix.listTextBefore_cons list rest
    obtain ⟨c', text', hstart', hc'⟩ := TypeSuffix.listTextBefore_cons
      (TypeSuffix.renameList m full next list) rest'
    rw [hstart, hstart'] at htext
    obtain ⟨hname, hbehind⟩ := eq_of_append_end htext h.1 hlabels.1 hc hc'
    rw [← hstart, ← hstart'] at hbehind
    obtain ⟨hlist, heq⟩ := TypeSuffix.labels_of_listTextBefore h.2 hlabels.2 hbehind
    rw [hlist, String.toList_inj.mp hname]
    exact ⟨rfl, heq⟩

theorem TypeArgument.labels_of_listTextBefore {list : List TypeArgument}
    (h : TypeArgument.ListProper list)
    (hlabels : ∀ label ∈ TypeArgument.listLabels (TypeArgument.renameList m list),
      ProperLabel label) {rest rest' : List Char}
    (htext : TypeArgument.listTextBefore (TypeArgument.renameList m list) ('>' :: rest') =
      TypeArgument.listTextBefore list ('>' :: rest)) :
    TypeArgument.listLabels (TypeArgument.renameList m list) = TypeArgument.listLabels list ∧
      rest' = rest := by
  match list with
  | [] => exact ⟨rfl, (List.cons.inj htext).2⟩
  | .wildcard :: list =>
    rw [TypeArgument.ListProper] at h
    simp only [TypeArgument.renameList, TypeArgument.listTextBefore, TypeArgument.listLabels]
      at hlabels htext ⊢
    exact TypeArgument.labels_of_listTextBefore h hlabels (List.cons.inj htext).2
  | .subtypeOf bound :: list | .supertypeOf bound :: list =>
    rw [TypeArgument.ListProper] at h
    simp only [TypeArgument.renameList, TypeArgument.listTextBefore, TypeArgument.listLabels,
      List.forall_mem_append] at hlabels htext ⊢
    obtain ⟨hbound, hbehind⟩ :=
      TypeSignature.labels_of_textBefore h.1 hlabels.1 (List.cons.inj htext).2
    obtain ⟨hlist, heq⟩ := TypeArgument.labels_of_listTextBefore h.2 hlabels.2 hbehind
    exact ⟨by rw [hbound, hlist], heq⟩
  | .exactly type :: list =>
    rw [TypeArgument.ListProper] at h
    simp only [TypeArgument.renameList, TypeArgument.listTextBefore, TypeArgument.listLabels,
      List.forall_mem_append] at hlabels htext ⊢
    obtain ⟨htype, hbehind⟩ := TypeSignature.labels_of_textBefore h.1 hlabels.1 htext
    obtain ⟨hlist, heq⟩ := TypeArgument.labels_of_listTextBefore h.2 hlabels.2 hbehind
    exact ⟨by rw [htype, hlist], heq⟩

end

end Cutting

/-! ## Names of a proper tree -/

mutual

theorem TypeSignature.Proper.labels {t : TypeSignature} (h : t.Proper) :
    ∀ label ∈ t.labels, ProperLabel label := by
  match t with
  | .base letter => exact List.forall_mem_nil _
  | .array element => exact TypeSignature.Proper.labels (t := element) h
  | .typeVariable name => exact List.forall_mem_nil _
  | .classType name suffixes =>
    rw [TypeSignature.Proper] at h
    rw [TypeSignature.labels, List.forall_mem_cons]
    exact ⟨h.1, TypeSuffix.ListProper.labels h.2⟩

theorem TypeSuffix.ListProper.labels {list : List TypeSuffix} (h : TypeSuffix.ListProper list) :
    ∀ label ∈ TypeSuffix.listLabels list, ProperLabel label := by
  match list with
  | [] => exact List.forall_mem_nil _
  | .arguments inside :: list =>
    rw [TypeSuffix.ListProper] at h
    rw [TypeSuffix.listLabels, List.forall_mem_append]
    exact ⟨TypeArgument.ListProper.labels h.1, TypeSuffix.ListProper.labels h.2⟩
  | .inner name :: list =>
    rw [TypeSuffix.ListProper] at h
    rw [TypeSuffix.listLabels, List.forall_mem_cons]
    exact ⟨h.1, TypeSuffix.ListProper.labels h.2⟩

theorem TypeArgument.ListProper.labels {list : List TypeArgument}
    (h : TypeArgument.ListProper list) :
    ∀ label ∈ TypeArgument.listLabels list, ProperLabel label := by
  match list with
  | [] => exact List.forall_mem_nil _
  | .wildcard :: list =>
    rw [TypeArgument.ListProper] at h
    rw [TypeArgument.listLabels]
    exact TypeArgument.ListProper.labels h
  | .subtypeOf bound :: list | .supertypeOf bound :: list | .exactly bound :: list =>
    rw [TypeArgument.ListProper] at h
    rw [TypeArgument.listLabels, List.forall_mem_append]
    exact ⟨TypeSignature.Proper.labels h.1, TypeArgument.ListProper.labels h.2⟩

end

theorem FormalParameter.ListProper.forall_mem {list : List FormalParameter}
    (h : FormalParameter.ListProper list) : ∀ p ∈ list, p.Proper := by
  induction list with
  | nil => exact List.forall_mem_nil _
  | cons p list ih =>
    rw [FormalParameter.ListProper] at h
    exact List.forall_mem_cons.mpr ⟨h.1, ih h.2.2⟩

theorem Signature.Proper.types {s : Signature} (h : s.Proper) : ∀ t ∈ s.types, t.Proper := by
  obtain ⟨formals, body⟩ := s
  rw [Signature.types, List.forall_mem_append]
  constructor
  · intro t ht
    obtain ⟨p, hp, hbound⟩ := List.mem_flatMap.mp ht
    cases formals with
    | none => cases hp
    | some list =>
      have hbounds := ((h.formals list rfl).forall_mem p hp).bounds
      exact (hbounds t (by simpa using hbound)).1
  · have hbody := h.body
    cases body with
    | method parameters result thrown =>
      obtain ⟨hparameters, hresult, hthrown⟩ := hbody
      rw [List.forall_mem_append, List.forall_mem_cons]
      exact ⟨hparameters, hresult, hthrown⟩
    | types list => exact hbody.2

theorem Signature.Proper.labels {s : Signature} (h : s.Proper) :
    ∀ label ∈ s.labels, ProperLabel label := by
  intro label hlabel
  obtain ⟨t, ht, hlabel⟩ := List.mem_flatMap.mp hlabel
  exact (h.types t ht).labels label hlabel

/-! ## Whole signatures -/

/-- A part of the text of a signature: a type, or what stands around types and is never renamed. -/
inductive SignaturePart where
  | plain (text : List Char)
  | type (t : TypeSignature)

namespace SignaturePart

def textBefore : SignaturePart → List Char → List Char
  | plain text, rest => text ++ rest
  | type t, rest => t.textBefore rest

def map (f : TypeSignature → TypeSignature) : SignaturePart → SignaturePart
  | plain text => plain text
  | type t => type (f t)

def types : SignaturePart → List TypeSignature
  | plain _ => []
  | type t => [t]

def labels (part : SignaturePart) : List String :=
  part.types.flatMap TypeSignature.labels

end SignaturePart

open SignaturePart

def FormalParameter.boundParts (bound : Option TypeSignature) : List SignaturePart :=
  plain [':'] :: bound.toList.map type

def FormalParameter.parts (p : FormalParameter) : List SignaturePart :=
  plain p.name.toList :: p.bounds.flatMap boundParts

def TypeSignature.thrownParts (t : TypeSignature) : List SignaturePart :=
  [plain ['^'], type t]

def SignatureBody.parts : SignatureBody → List SignaturePart
  | .method parameters result thrown =>
    plain ['('] :: (parameters.map type ++ plain [')'] :: type result ::
      thrown.flatMap TypeSignature.thrownParts)
  | .types list => list.map type

namespace Signature

/-- The parts of a signature, from left to right. -/
def parts (s : Signature) : List SignaturePart :=
  match s.formals with
  | some list => plain ['<'] :: (list.flatMap FormalParameter.parts ++ plain ['>'] :: s.body.parts)
  | none => s.body.parts

theorem foldr_boundParts (bound : Option TypeSignature) (rest : List Char) :
    (FormalParameter.boundParts bound).foldr textBefore rest =
      FormalParameter.boundTextBefore bound rest := by
  cases bound <;> rfl

theorem foldr_formalParts (p : FormalParameter) (rest : List Char) :
    p.parts.foldr textBefore rest = p.textBefore rest := by
  simp only [FormalParameter.parts, List.foldr_cons, List.foldr_flatMap, foldr_boundParts]
  rfl

theorem foldr_bodyParts (b : SignatureBody) (rest : List Char) :
    b.parts.foldr textBefore rest = b.textBefore rest := by
  cases b with
  | method parameters result thrown =>
    simp only [SignatureBody.parts, List.foldr_cons, List.foldr_append, List.foldr_map,
      List.foldr_flatMap]
    rfl
  | types list =>
    rw [SignatureBody.parts, List.foldr_map]
    rfl

/-- The text of a signature is that of its parts. -/
theorem foldr_parts (s : Signature) : s.parts.foldr textBefore [] = s.toText := by
  obtain ⟨formals, body⟩ := s
  cases formals with
  | none => exact foldr_bodyParts body []
  | some list =>
    simp only [parts, List.foldr_cons, List.foldr_append, List.foldr_flatMap, foldr_formalParts,
      foldr_bodyParts]
    rfl

theorem parts_mapTypes (f : TypeSignature → TypeSignature) (s : Signature) :
    (s.mapTypes f).parts = s.parts.map (SignaturePart.map f) := by
  have hbound (bound : Option TypeSignature) : FormalParameter.boundParts (bound.map f) =
      (FormalParameter.boundParts bound).map (SignaturePart.map f) := by
    cases bound <;> rfl
  obtain ⟨formals, body⟩ := s
  cases formals <;> cases body <;>
    simp [parts, mapTypes, SignatureBody.parts, FormalParameter.parts, TypeSignature.thrownParts,
      SignaturePart.map, hbound, Function.comp_def, List.flatMap_map, List.map_flatMap]

theorem flatMap_types_parts (s : Signature) : s.parts.flatMap SignaturePart.types = s.types := by
  have hbound (bound : Option TypeSignature) :
      (FormalParameter.boundParts bound).flatMap SignaturePart.types = bound.toList := by
    cases bound <;> rfl
  obtain ⟨formals, body⟩ := s
  cases formals <;> cases body <;>
    simp [parts, Signature.types, SignatureBody.parts, FormalParameter.parts,
      TypeSignature.thrownParts, SignaturePart.types, hbound, List.flatMap_assoc, List.flatMap_map,
      List.filterMap_eq_flatMap_toList]

theorem parts_rename (m : NameMapper) (s : Signature) :
    (s.rename m).parts = s.parts.map (SignaturePart.map (TypeSignature.rename m)) := by
  rw [rename_eq_mapTypes, parts_mapTypes]

theorem labels_eq_parts (s : Signature) : s.labels = s.parts.flatMap SignaturePart.labels := by
  rw [labels, ← flatMap_types_parts, List.flatMap_assoc]
  rfl

end Signature

namespace SignaturePart

variable {m : NameMapper}

theorem ends_map_rename (parts : List SignaturePart) :
    ends ((parts.map (map (TypeSignature.rename m))).foldr textBefore []) +
        labelEnds (parts.flatMap labels) =
      ends (parts.foldr textBefore []) +
        labelEnds ((parts.map (map (TypeSignature.rename m))).flatMap labels) := by
  induction parts with
  | nil => rfl
  | cons part parts ih =>
    simp only [List.map_cons, List.foldr_cons, List.flatMap_cons, labelEnds_append]
    cases part with
    | plain text =>
      simp only [map, textBefore, labels, types, List.flatMap_nil, ends_append]
      omega
    | type t =>
      have ht := t.ends_rename (m := m) (parts.foldr textBefore [])
        ((parts.map (map (TypeSignature.rename m))).foldr textBefore [])
      simp only [map, textBefore, labels, types, List.flatMap_singleton]
      omega

theorem labels_of_foldr {parts : List SignaturePart}
    (h : ∀ t ∈ parts.flatMap SignaturePart.types, t.Proper)
    (hlabels : ∀ label ∈ (parts.map (map (TypeSignature.rename m))).flatMap labels,
      ProperLabel label)
    (htext : (parts.map (map (TypeSignature.rename m))).foldr textBefore [] =
      parts.foldr textBefore []) :
    (parts.map (map (TypeSignature.rename m))).flatMap labels = parts.flatMap labels := by
  induction parts with
  | nil => rfl
  | cons part parts ih =>
    simp only [List.map_cons, List.foldr_cons, List.flatMap_cons, List.forall_mem_append]
      at h hlabels htext ⊢
    cases part with
    | plain text =>
      rw [ih h.2 hlabels.2 (List.append_cancel_left htext)]
      rfl
    | type t =>
      simp only [map, labels, types, List.flatMap_singleton, List.forall_mem_singleton]
        at h hlabels ⊢
      obtain ⟨ht, hrest⟩ := TypeSignature.labels_of_textBefore h.1 hlabels.1 htext
      rw [ht, ih h.2 hlabels.2 hrest]

end SignaturePart

/-- **A renaming that leaves the text leaves the labels**, whatever the new names hold. -/
theorem Signature.labels_of_toText_rename {m : NameMapper} {s : Signature} (h : s.Proper)
    (htext : (s.rename m).toText = s.toText) : (s.rename m).labels = s.labels := by
  have hold : labelEnds s.labels = 0 := labelEnds_eq_zero_iff.mpr h.labels
  have htypes := h.types
  rw [← flatMap_types_parts] at htypes
  rw [labels_eq_parts] at hold
  rw [← foldr_parts, ← foldr_parts, parts_rename] at htext
  rw [labels_eq_parts, labels_eq_parts, parts_rename]
  have hcount := SignaturePart.ends_map_rename (m := m) s.parts
  rw [htext, hold] at hcount
  exact SignaturePart.labels_of_foldr htypes (labelEnds_eq_zero_iff.mp (by omega)) htext

/-- A text that becomes another one is read as a signature, and a label of it changes. -/
theorem Signature.exists_of_remap {m : NameMapper} {text renamed : String}
    (h : remap m text = .ok (some renamed)) :
    ∃ s, parse text = some s ∧ (s.rename m).labels ≠ s.labels ∧
      renamed = String.ofList (s.rename m).toText := by
  obtain ⟨s, hparse, htext⟩ := parse_of_remap h
  refine ⟨s, hparse, fun hlabels => ?_, htext⟩
  obtain ⟨c, hread⟩ := read_eq_ok hparse
  rw [remap, hread] at h
  simp [hlabels] at h

/-! ## Texts in their roles -/

namespace NameRole

variable {m : NameMapper} {role : NameRole} {text renamed : String}

theorem remap_signature_eq_some (h : signature.remap m text = some renamed) :
    Signature.remap m text = .ok (some renamed) := by
  rw [remap] at h
  split at h
  case h_1 hok => rw [hok, h]
  case h_2 => cases h

/-- **What becomes of a text is another text.** -/
theorem ne_of_remap (h : role.remap m text = some renamed) : renamed ≠ text := by
  cases role with
  | className =>
    rw [remap] at h
    split at h
    case isTrue => exact Descriptor.ne_of_remap h
    case isFalse => simpa using (Option.filter_eq_some_iff.mp h).2
  | descriptor => exact Descriptor.ne_of_remap h
  | signature =>
    obtain ⟨s, hparse, hlabels, rfl⟩ := Signature.exists_of_remap (remap_signature_eq_some h)
    obtain ⟨hproper, htext⟩ := Signature.parse_eq_some.mp hparse
    intro heq
    refine hlabels (Signature.labels_of_toText_rename hproper ?_)
    rw [htext] at heq
    exact String.ofList_injective heq

/-- **Where a text becomes another one, a class that it mentions gets another name.** -/
theorem exists_renamed_of_remap (h : role.remap m text = some renamed) :
    ∃ name ∈ role.names text, m.rename name ≠ name := by
  cases role with
  | className =>
    rw [remap] at h
    rw [names]
    split at h
    case isTrue harray =>
      rw [if_pos harray]
      exact (Descriptor.remap_eq_some_iff.mp h).2.1
    case isFalse harray =>
      rw [if_neg harray]
      obtain ⟨htarget, hne⟩ := Option.filter_eq_some_iff.mp h
      refine ⟨text, List.mem_singleton_self _, ?_⟩
      rw [NameMapper.rename, htarget]
      simpa using hne
  | descriptor => exact (Descriptor.remap_eq_some_iff.mp h).2.1
  | signature =>
    obtain ⟨s, hparse, hlabels, -⟩ := Signature.exists_of_remap (remap_signature_eq_some h)
    by_contra hnone
    push Not at hnone
    rw [names_signature hparse] at hnone
    exact hlabels (by rw [Signature.rename_of_fixed hnone])

end NameRole

end JvmRelocation
