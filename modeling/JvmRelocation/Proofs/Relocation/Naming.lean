import JvmRelocation.Name.Role
import JvmRelocation.Name.Segments
import JvmRelocation.Relocation.Naming
import JvmRelocation.Relocation.Tag

/-!
# Names under a version tag

A tag that passes its check is one segment, neither empty nor relative. So a name that is usable as
a path stays usable below the tag, and no relocated name is an array's descriptor.
-/

namespace JvmRelocation

/-- What the check of a tag guarantees. -/
structure ValidTag (tag : String) : Prop where
  ne_empty : tag ≠ ""
  not_relative : tag ≠ "." ∧ tag ≠ ".."
  allowed : ∀ c ∈ tag.toList, isForbiddenInTag c = false

theorem refuseFault_eq_ok {fault : Option ParameterFault} (h : refuseFault fault = .ok ()) :
    fault = none := by
  cases fault with
  | none => rfl
  | some fault => cases h

theorem validTag_of_tagFault? {tag : String} (h : tagFault? tag = none) : ValidTag tag := by
  rw [tagFault?] at h
  split at h
  case isTrue => cases h
  case isFalse hempty =>
    split at h
    case isTrue => cases h
    case isFalse hrelative =>
      refine ⟨hempty, by simpa using hrelative, ?_⟩
      simpa using h

theorem ValidTag.not_mem {tag : String} (h : ValidTag tag) {c : Char}
    (hc : ['/', '\\', '.', ';', '['].contains c = true) : c ∉ tag.toList := by
  intro hmem
  have := h.allowed c hmem
  rw [isForbiddenInTag, hc] at this
  cases this

/-- A text up to its first slash is its first segment. -/
theorem segmentsFrom_append (chunk segment rest : List Char) (h : '/' ∉ chunk) :
    segmentsFrom segment (chunk ++ rest) = segmentsFrom (chunk.reverse ++ segment) rest := by
  induction chunk generalizing segment with
  | nil => rfl
  | cons c chunk ih =>
    rw [List.mem_cons, not_or] at h
    rw [List.cons_append, segmentsFrom, if_neg (Ne.symm h.1), ih _ h.2, List.reverse_cons,
      List.append_assoc]
    rfl

theorem segments_relocatedName {tag : String} (h : ValidTag tag) (name : String) :
    segments (relocatedName tag name) = tag :: segments name := by
  have hslash : '/' ∉ tag.toList := h.not_mem (by decide)
  rw [segments, relocatedName, String.toList_append, String.toList_append, List.append_assoc,
    segmentsFrom_append _ _ _ hslash]
  simp [segmentsFrom, segments]

theorem isPathName_relocatedName {tag : String} (h : ValidTag tag) {name : String}
    (hname : isPathName name = true) : isPathName (relocatedName tag name) = true := by
  rw [isPathName, segments_relocatedName h, List.all_cons, Bool.and_eq_true]
  refine ⟨?_, hname⟩
  simp [isRelativeSegment, h.ne_empty, h.not_relative]

theorem isArray_relocatedName {tag : String} (h : ValidTag tag) (name : String) :
    NameRole.isArray (relocatedName tag name) = false := by
  have hbracket : '[' ∉ tag.toList := h.not_mem (by decide)
  have hne : tag.toList ≠ [] := by simpa using h.ne_empty
  rw [NameRole.isArray, relocatedName, String.toList_append, String.toList_append]
  cases hchars : tag.toList with
  | nil => exact absurd hchars hne
  | cons c rest =>
    rw [hchars, List.mem_cons, not_or] at hbracket
    simpa using Ne.symm hbracket.1

/-- What is put behind a text stands in its last segment. -/
theorem segmentsFrom_behind (segment text : List Char) {behind : List Char} (h : '/' ∉ behind) :
    ∃ front last, segmentsFrom segment text = front ++ [last] ∧
      segmentsFrom segment (text ++ behind) = front ++ [last ++ behind] := by
  induction text generalizing segment with
  | nil =>
    refine ⟨[], segment.reverse, rfl, ?_⟩
    have hchunk := segmentsFrom_append behind segment [] h
    rw [List.append_nil] at hchunk
    rw [List.nil_append, hchunk, segmentsFrom, List.reverse_append, List.reverse_reverse]
    rfl
  | cons c text ih =>
    rw [List.cons_append, segmentsFrom, segmentsFrom]
    split
    · obtain ⟨front, last, hfront, hbehind⟩ := ih []
      exact ⟨segment.reverse :: front, last, by rw [hfront]; rfl, by rw [hbehind]; rfl⟩
    · exact ih (c :: segment)

/-- A segment of more than two characters names what it is. -/
theorem not_relative_of_length {segment : String} (h : 2 < segment.length) :
    isRelativeSegment segment = false := by
  have hne {text : String} (htext : text.length ≤ 2) : segment ≠ text := by
    rintro rfl
    omega
  rw [isRelativeSegment, decide_eq_false (hne (by decide)), decide_eq_false (hne (by decide)),
    decide_eq_false (hne (by decide))]
  rfl

/-- A class whose name is usable as a path is stored under a usable path. -/
theorem isPathName_classPath {name : String} (h : isPathName name = true) :
    isPathName (classPath name) = true := by
  obtain ⟨front, last, hname, hpath⟩ :=
    segmentsFrom_behind [] name.toList (show '/' ∉ classExtension.toList by decide)
  have hlast : isRelativeSegment (String.ofList (last ++ classExtension.toList)) = false := by
    apply not_relative_of_length
    rw [String.length_ofList, List.length_append]
    have hextension : classExtension.toList.length = 6 := by decide
    omega
  rw [isPathName, segments, hname, List.map_append, List.all_append, Bool.and_eq_true] at h
  rw [isPathName, segments, classPath, String.toList_append, hpath, List.map_append,
    List.all_append, Bool.and_eq_true]
  refine ⟨h.1, ?_⟩
  rw [List.map_singleton, List.all_cons, hlast]
  rfl

end JvmRelocation
