import JvmRelocation.Proofs.Name.TaggedRenaming

/-!
# Names that stay usable as paths

A class keeps a name that is usable as a path when the classes of a relocation are renamed. For an
array's descriptor this is because the tag goes between the letter in front of a class name and that
name: the segment in front of the new slash holds the letter, and the one behind it starts as the
class name does.
-/

namespace JvmRelocation

/-- Every segment is a proper directory or file name. -/
def UsableSegments (list : List (List Char)) : Prop :=
  ∀ segment ∈ list, isRelativeSegment (String.ofList segment) = false

theorem isPathName_iff {name : String} :
    isPathName name = true ↔ UsableSegments (segmentsFrom [] name.toList) := by
  simp [isPathName, segments, UsableSegments]

theorem usableSegments_append {a b : List (List Char)} :
    UsableSegments (a ++ b) ↔ UsableSegments a ∧ UsableSegments b :=
  List.forall_mem_append

theorem usableSegments_cons {segment : List Char} {list : List (List Char)} :
    UsableSegments (segment :: list) ↔
      isRelativeSegment (String.ofList segment) = false ∧ UsableSegments list :=
  List.forall_mem_cons

/-- A segment with anything but dots in it is a proper name. -/
theorem isRelativeSegment_of_mem {segment : List Char} {c : Char} (hc : c ∈ segment)
    (hdot : c ≠ '.') :
    isRelativeSegment (String.ofList segment) = false := by
  have hne (text : String) (htext : ∀ x ∈ text.toList, x = '.') : String.ofList segment ≠ text := by
    rintro rfl
    exact hdot (htext c (by rwa [String.toList_ofList]))
  simp [isRelativeSegment, hne "" (by simp), hne "." (by simp), hne ".." (by simp)]

/-- What stands in front decides the segments up to the one that is open at its end. -/
theorem segmentsFrom_front (front piece : List Char) : ∃ closed last, ∀ rest,
    segmentsFrom piece (front ++ rest) = closed ++ segmentsFrom last rest := by
  induction front generalizing piece with
  | nil => exact ⟨[], piece, fun _ => rfl⟩
  | cons c front ih =>
    by_cases hslash : c = '/'
    · obtain ⟨closed, last, h⟩ := ih []
      refine ⟨piece.reverse :: closed, last, fun rest => ?_⟩
      rw [List.cons_append, segmentsFrom, if_pos hslash, h, List.cons_append]
    · obtain ⟨closed, last, h⟩ := ih (c :: piece)
      refine ⟨closed, last, fun rest => ?_⟩
      rw [List.cons_append, segmentsFrom, if_neg hslash, h]

/-- What is open at the front goes to the first segment only. -/
theorem segmentsFrom_piece (rest : List Char) : ∃ first others, ∀ piece,
    segmentsFrom piece rest = (piece.reverse ++ first) :: others := by
  induction rest with
  | nil => exact ⟨[], [], fun piece => by rw [segmentsFrom, List.append_nil]⟩
  | cons c rest ih =>
    by_cases hslash : c = '/'
    · exact ⟨[], segmentsFrom [] rest, fun piece => by
        rw [segmentsFrom, if_pos hslash, List.append_nil]⟩
    · obtain ⟨first, others, h⟩ := ih
      refine ⟨c :: first, others, fun piece => ?_⟩
      rw [segmentsFrom, if_neg hslash, h, List.reverse_cons, List.append_assoc]
      rfl

/-- A tag can be put in front of a usable name inside a descriptor. -/
theorem usableSegments_insert {tag : String} (htag : ValidTag tag)
    (front behind : List Char) {name : List Char}
    (hname : UsableSegments (segmentsFrom [] name))
    (h : UsableSegments (segmentsFrom [] (front ++ 'L' :: (name ++ ';' :: behind)))) :
    UsableSegments (segmentsFrom []
      (front ++ 'L' :: (tag.toList ++ '/' :: (name ++ ';' :: behind)))) := by
  have hslash : '/' ∉ tag.toList := htag.not_mem (by decide)
  obtain ⟨closed, last, hfront⟩ := segmentsFrom_front front []
  obtain ⟨closedName, lastName, hsplit⟩ := segmentsFrom_front name []
  obtain ⟨closedName', lastName', hsplit'⟩ := segmentsFrom_front name ('L' :: last)
  obtain ⟨first, others, hbehind⟩ := segmentsFrom_piece behind
  rw [hfront, segmentsFrom, if_neg (by decide), hsplit', segmentsFrom, if_neg (by decide), hbehind,
    usableSegments_append, usableSegments_append, usableSegments_cons] at h
  obtain ⟨hclosed, -, -, hothers⟩ := h
  have hname' := hsplit []
  rw [List.append_nil] at hname'
  rw [hname', usableSegments_append] at hname
  rw [hfront, segmentsFrom, if_neg (by decide), segmentsFrom_append _ _ _ hslash, segmentsFrom,
    if_pos rfl, hsplit, segmentsFrom, if_neg (by decide), hbehind, usableSegments_append,
    usableSegments_cons, usableSegments_append, usableSegments_cons]
  refine ⟨hclosed, isRelativeSegment_of_mem (c := 'L') (by simp) (by decide), hname.1,
    isRelativeSegment_of_mem (c := ';') (by simp) (by decide), hothers⟩

section Tags

open Descriptor

variable {tag : String} {m : NameMapper}

/-- The segments of a descriptor stay usable, one object type after another. -/
theorem usableSegments_rename (hm : Tags tag m) (htag : ValidTag tag)
    (hkeys : ∀ name, (m name).isSome = true → isPathName name = true) {tail : List Char}
    (objects : List ObjectType) (front : List Char)
    (h : UsableSegments (segmentsFrom [] (front ++ (objects.flatMap ObjectType.written ++ tail)))) :
    UsableSegments (segmentsFrom [] (front ++
      ((objects.map fun t => { t with name := m.rename t.name }).flatMap ObjectType.written ++
        tail))) := by
  induction objects generalizing front with
  | nil => exact h
  | cons o objects ih =>
    rw [List.flatMap_cons, List.append_assoc] at h
    rw [List.map_cons, List.flatMap_cons, List.append_assoc, ← List.append_assoc]
    refine ih _ ?_
    rw [List.append_assoc]
    cases htarget : m o.name with
    | none =>
      rw [NameMapper.rename, htarget, Option.getD_none]
      exact h
    | some target =>
      obtain rfl := hm _ _ htarget
      have hname := isPathName_iff.mp (hkeys o.name (by rw [htarget]; rfl))
      have hnew := usableSegments_insert htag (front ++ o.before)
        (objects.flatMap ObjectType.written ++ tail) hname
        (by simpa [ObjectType.written] using h)
      simpa [ObjectType.written, NameMapper.rename, htarget, relocatedName] using hnew

/-- **A class keeps a name that is usable as a path.** -/
theorem isPathName_renamed (hm : Tags tag m) (htag : ValidTag tag)
    (hkeys : ∀ name, (m name).isSome = true → isPathName name = true) {name : String}
    (h : isPathName name = true) : isPathName (NameRole.className.renamed m name) = true := by
  cases harray : NameRole.isArray name with
  | false =>
    rw [NameRole.renamed_of_not_isArray harray, NameMapper.rename]
    cases htarget : m name with
    | none => exact h
    | some target =>
      obtain rfl := hm _ _ htarget
      exact isPathName_relocatedName htag h
  | true =>
    rw [NameRole.renamed_of_isArray harray]
    cases hclosed : (ofText name.toList).isClosed with
    | false =>
      rw [renamed_of_open hclosed]
      exact h
    | true =>
      rw [isPathName_iff, ← toText_ofText name.toList, toText] at h
      rw [renamed_of_closed hclosed, isPathName_iff, String.toList_ofList, toText]
      exact usableSegments_rename hm htag hkeys _ [] h

end Tags

end JvmRelocation
