import JvmRelocation.Host.Path
import JvmRelocation.Proofs.Relocation.Naming

/-!
# Host paths by their segments

Cutting a path at its slashes and joining the segments again gives the path back. A path of proper
names joined to another one has the segments of both, where the slash that may end the first counts
once. An ancestor of a path is what stands in front of one of its slashes; the parent of a path is one.
-/

namespace JvmRelocation

/-! ## Segments -/

theorem segmentsFrom_slash (front behind segment : List Char) :
    segmentsFrom segment (front ++ '/' :: behind) =
      segmentsFrom segment front ++ segmentsFrom [] behind := by
  induction front generalizing segment with
  | nil => simp [segmentsFrom]
  | cons c front ih =>
    rw [List.cons_append, segmentsFrom, segmentsFrom]
    split
    · rw [ih, List.cons_append]
    · rw [ih]

/-- A slash separates the segments in front of it from those behind it. -/
theorem segments_slash (front behind : String) :
    segments (front ++ "/" ++ behind) = segments front ++ segments behind := by
  unfold segments
  rw [String.toList_append, String.toList_append, List.append_assoc, ← List.map_append,
    ← segmentsFrom_slash]
  rfl

theorem segments_of_not_mem {name : String} (h : '/' ∉ name.toList) : segments name = [name] := by
  have hchunk := segmentsFrom_append name.toList [] [] h
  rw [List.append_nil, List.append_nil, segmentsFrom, List.reverse_reverse] at hchunk
  rw [segments, hchunk, List.map_singleton, String.ofList_toList]

theorem segmentsFrom_ne_nil (segment text : List Char) : segmentsFrom segment text ≠ [] := by
  induction text generalizing segment with
  | nil => simp [segmentsFrom]
  | cons c text ih =>
    rw [segmentsFrom]
    split
    · simp
    · exact ih _

theorem segments_ne_nil (path : String) : segments path ≠ [] := by
  unfold segments
  rw [Ne, List.map_eq_nil_iff]
  exact segmentsFrom_ne_nil _ _

/-- What a segment holds stands in the text, and is no slash. -/
theorem mem_of_mem_segmentsFrom {segment text piece : List Char} {c : Char}
    (hpiece : piece ∈ segmentsFrom segment text) (hc : c ∈ piece) :
    c ∈ segment ∨ c ∈ text ∧ c ≠ '/' := by
  induction text generalizing segment with
  | nil =>
    obtain rfl := List.mem_singleton.mp hpiece
    exact .inl (List.mem_reverse.mp hc)
  | cons first text ih =>
    rw [segmentsFrom] at hpiece
    split at hpiece
    case isTrue hslash =>
      rcases List.mem_cons.mp hpiece with rfl | hrest
      · exact .inl (List.mem_reverse.mp hc)
      · rcases ih hrest with hnil | ⟨htext, hne⟩
        · cases hnil
        · exact .inr ⟨List.mem_cons_of_mem _ htext, hne⟩
    case isFalse hslash =>
      rcases ih hpiece with hsegment | ⟨htext, hne⟩
      · rcases List.mem_cons.mp hsegment with rfl | hold
        · exact .inr ⟨List.mem_cons_self, hslash⟩
        · exact .inl hold
      · exact .inr ⟨List.mem_cons_of_mem _ htext, hne⟩

theorem mem_of_mem_segments {path segment : String} (h : segment ∈ segments path) {c : Char}
    (hc : c ∈ segment.toList) : c ∈ path.toList ∧ c ≠ '/' := by
  obtain ⟨piece, hpiece, rfl⟩ := List.mem_map.mp h
  rw [String.toList_ofList] at hc
  rcases mem_of_mem_segmentsFrom hpiece hc with hnil | hpath
  · cases hnil
  · exact hpath

/-- No segment holds a slash. -/
theorem not_mem_of_mem_segments {path segment : String} (h : segment ∈ segments path) :
    '/' ∉ segment.toList :=
  fun hslash => (mem_of_mem_segments h hslash).2 rfl

open Text.Json (joined)

theorem joined_cons (separator first : String) {rest : List String} (h : rest ≠ []) :
    joined separator (first :: rest) = first ++ separator ++ joined separator rest := by
  have hfold (texts : List String) (front text : String) :
      texts.foldl (fun text s => text ++ separator ++ s) (front ++ text) =
        front ++ texts.foldl (fun text s => text ++ separator ++ s) text := by
    induction texts generalizing text with
    | nil => rfl
    | cons s texts ih => rw [List.foldl_cons, List.foldl_cons, ← ih, ← String.append_assoc,
        ← String.append_assoc]
  cases rest with
  | nil => exact absurd rfl h
  | cons second rest => exact hfold rest (first ++ separator) second

/-- Names that are joined by slashes are the segments of the text. -/
theorem segments_joined {names : List String} (hne : names ≠ [])
    (h : ∀ name ∈ names, '/' ∉ name.toList) : segments (joined "/" names) = names := by
  induction names with
  | nil => exact absurd rfl hne
  | cons name rest ih =>
    obtain ⟨hname, hrest⟩ := List.forall_mem_cons.mp h
    by_cases hnil : rest = []
    · subst hnil
      exact segments_of_not_mem hname
    · rw [joined_cons _ _ hnil, segments_slash, segments_of_not_mem hname, ih hnil hrest]
      rfl

/-- The segments of a path joined by slashes are the path. -/
theorem joined_segments (path : String) : joined "/" (segments path) = path := by
  have hpieces (segment text : List Char) :
      joined "/" ((segmentsFrom segment text).map String.ofList) =
        String.ofList (segment.reverse ++ text) := by
    induction text generalizing segment with
    | nil =>
      rw [segmentsFrom, List.append_nil]
      rfl
    | cons c text ih =>
      rw [segmentsFrom]
      split
      case isTrue hc =>
        rw [List.map_cons, joined_cons _ _ (by simpa using segmentsFrom_ne_nil [] text), ih, hc]
        apply String.toList_inj.mp
        simp
      case isFalse hc =>
        rw [ih]
        apply String.toList_inj.mp
        simp
  have h := hpieces [] path.toList
  rwa [List.reverse_nil, List.nil_append, String.ofList_toList] at h

/-- Paths with the same segments are the same. -/
theorem segments_inj {path path' : String} : segments path = segments path' ↔ path = path' := by
  constructor
  · intro h
    rw [← joined_segments path, h, joined_segments]
  · rintro rfl
    rfl

theorem isPathName_eq_true {path : String} :
    isPathName path = true ↔ ∀ segment ∈ segments path, isRelativeSegment segment = false := by
  simp [isPathName]

theorem ne_empty_of_not_relative {segment : String} (h : isRelativeSegment segment = false) :
    segment ≠ "" := by
  rintro rfl
  cases h

theorem joined_append (separator : String) {front behind : List String} (hfront : front ≠ [])
    (hbehind : behind ≠ []) : joined separator (front ++ behind) =
      joined separator front ++ separator ++ joined separator behind := by
  induction front with
  | nil => exact absurd rfl hfront
  | cons first rest ih =>
    by_cases hnil : rest = []
    · subst hnil
      exact joined_cons separator first hbehind
    · rw [List.cons_append, joined_cons separator first (by simp [hnil]), ih hnil,
        joined_cons separator first hnil]
      simp only [String.append_assoc]

namespace HostPath

/-! ## Joining -/

/-- What stands between a path and one that is joined to it. -/
def separator (root : String) : String :=
  if root = "" || root.toList.getLast? = some '/' then "" else "/"

theorem join_eq (root : String) {path : String} (h : isAbsolute path = false) :
    join root path = root ++ separator root ++ path := by
  rw [join, h, separator]
  simp only [Bool.false_eq_true, if_false]
  split
  · rw [String.append_empty]
  · rfl

/-- A path of proper names starts where it is looked up. -/
theorem isAbsolute_of_isPathName {path : String} (h : isPathName path = true) :
    isAbsolute path = false := by
  rw [isPathName_eq_true] at h
  rw [isAbsolute, decide_eq_false_iff_not]
  intro hslash
  obtain ⟨rest, hrest⟩ := List.head?_eq_some_iff.mp hslash
  have hfirst : "" ∈ segments path := by
    rw [segments, hrest, segmentsFrom, if_pos rfl]
    exact List.mem_cons_self
  exact absurd (h "" hfirst) (by decide)

theorem isAbsolute_name {name : String} (h : '/' ∉ name.toList) : isAbsolute name = false := by
  rw [isAbsolute, decide_eq_false_iff_not]
  intro hslash
  exact h (List.mem_of_mem_head? hslash)

theorem isAbsolute_append {front : String} (h : front ≠ "") (behind : String) :
    isAbsolute (front ++ behind) = isAbsolute front := by
  unfold isAbsolute
  rw [String.toList_append]
  cases hchars : front.toList with
  | nil => exact absurd (String.toList_eq_nil_iff.mp hchars) h
  | cons c rest => rfl

theorem isAbsolute_join (root : String) {path : String} (h : isAbsolute path = false) :
    isAbsolute (join root path) = isAbsolute root := by
  rw [join_eq root h]
  by_cases hroot : root = ""
  · subst hroot
    exact h
  · rw [String.append_assoc, isAbsolute_append hroot]

/-- The segments of a path to which another one is joined. The slash that may end it is not counted,
for the other path stands behind it. -/
def rootSegments (root : String) : List String :=
  if root = "" || root.toList.getLast? = some '/' then (segments root).dropLast else segments root

theorem segments_of_ends {root : String} (h : root.toList.getLast? = some '/') :
    ∃ front, root = front ++ "/" ∧ segments root = segments front ++ [""] := by
  obtain ⟨chars, hchars⟩ := List.getLast?_eq_some_iff.mp h
  have hroot : root = String.ofList chars ++ "/" := by
    apply String.toList_inj.mp
    rw [hchars, String.toList_append, String.toList_ofList]
    rfl
  refine ⟨String.ofList chars, hroot, ?_⟩
  rw [hroot, ← String.append_empty (s := String.ofList chars ++ "/"), segments_slash]
  rfl

/-- Only a blank segment is not counted. -/
theorem segments_root (root : String) :
    segments root = rootSegments root ∨ segments root = rootSegments root ++ [""] := by
  rw [rootSegments]
  split
  case isFalse => exact .inl rfl
  case isTrue hends =>
    right
    by_cases hroot : root = ""
    · subst hroot
      rfl
    · obtain ⟨front, -, hsegments⟩ := segments_of_ends (by simpa [hroot] using hends)
      rw [hsegments, List.dropLast_concat]

theorem segments_join (root : String) {path : String} (h : isAbsolute path = false) :
    segments (join root path) = rootSegments root ++ segments path := by
  rw [join_eq root h, separator, rootSegments]
  split
  case isFalse => exact segments_slash root path
  case isTrue hends =>
    rw [String.append_empty]
    by_cases hroot : root = ""
    · subst hroot
      rw [String.empty_append]
      rfl
    · obtain ⟨front, hfront, hsegments⟩ := segments_of_ends (by simpa [hroot] using hends)
      rw [hsegments, List.dropLast_concat, hfront, segments_slash]

/-- Names that are joined by slashes do not start at the root of the file system. -/
theorem isAbsolute_joined {names : List String}
    (h : ∀ name ∈ names, name ≠ "" ∧ '/' ∉ name.toList) : isAbsolute (joined "/" names) = false := by
  cases names with
  | nil => rfl
  | cons name rest =>
    obtain ⟨⟨hname, hslash⟩, -⟩ := List.forall_mem_cons.mp h
    by_cases hnil : rest = []
    · subst hnil
      exact isAbsolute_name hslash
    · rw [joined_cons _ _ hnil, String.append_assoc, isAbsolute_append hname, isAbsolute_name hslash]

/-- A path that ends in a name needs a slash before what is joined to it. -/
theorem separator_join (root : String) {name : String} (hname : name ≠ "")
    (hslash : '/' ∉ name.toList) : separator (join root name) = "/" := by
  have hchars : name.toList ≠ [] := by rwa [Ne, String.toList_eq_nil_iff]
  rw [join_eq root (isAbsolute_name hslash), separator, if_neg]
  rw [Bool.or_eq_true, not_or, decide_eq_true_eq, decide_eq_true_eq]
  constructor
  · intro hempty
    have hlength := congrArg (fun text => text.toList) hempty
    simp [String.toList_append, hname] at hlength
  · rw [String.toList_append, List.getLast?_append, List.getLast?_eq_some_getLast hchars,
      Option.some_or]
    intro hlast
    exact hslash (Option.some.inj hlast ▸ List.getLast_mem hchars)

/-- The names behind a root are joined to it one by one or all at once. -/
theorem foldl_join (root : String) {names : List String} (hne : names ≠ [])
    (h : ∀ name ∈ names, name ≠ "" ∧ '/' ∉ name.toList) :
    names.foldl join root = join root (joined "/" names) := by
  induction names generalizing root with
  | nil => exact absurd rfl hne
  | cons name rest ih =>
    obtain ⟨⟨hname, hslash⟩, hrest⟩ := List.forall_mem_cons.mp h
    rw [List.foldl_cons]
    by_cases hnil : rest = []
    · subst hnil
      rfl
    · have hwhole : isAbsolute (name ++ "/" ++ joined "/" rest) = false := by
        rw [String.append_assoc, isAbsolute_append hname, isAbsolute_name hslash]
      rw [ih (join root name) hnil hrest, join_eq _ (isAbsolute_joined hrest),
        separator_join root hname hslash, joined_cons _ _ hnil, join_eq root hwhole,
        join_eq root (isAbsolute_name hslash)]
      simp only [String.append_assoc]

/-- Different paths are different below the same root. -/
theorem join_inj {root path path' : String} (h : isAbsolute path = false)
    (h' : isAbsolute path' = false) : join root path = join root path' ↔ path = path' := by
  rw [join_eq root h, join_eq root h', String.append_right_inj]

/-! ## Ancestors -/

/-- Whether a path is what stands in front of a slash of another one, or where that one starts. -/
def IsAncestor (ancestor path : String) : Prop :=
  (ancestor ≠ "" ∧ ∃ rest, path = ancestor ++ "/" ++ rest) ∨
    (ancestor = "" ∧ isAbsolute path = false) ∨ (ancestor = "/" ∧ isAbsolute path = true)

/-- A path starts where its ancestors do. -/
theorem IsAncestor.isAbsolute_eq {ancestor path : String} (h : IsAncestor ancestor path) :
    isAbsolute path = isAbsolute ancestor := by
  rcases h with ⟨hne, rest, rfl⟩ | ⟨rfl, hpath⟩ | ⟨rfl, hpath⟩
  · rw [String.append_assoc, isAbsolute_append hne]
  · rw [hpath]
    rfl
  · rw [hpath]
    rfl

theorem IsAncestor.trans {first second path : String} (h : IsAncestor first second)
    (h' : IsAncestor second path) : IsAncestor first path := by
  have habsolute := h'.isAbsolute_eq
  rcases h with ⟨hne, rest, rfl⟩ | ⟨rfl, hsecond⟩ | ⟨rfl, hsecond⟩
  · rcases h' with ⟨-, rest', rfl⟩ | ⟨hempty, -⟩ | ⟨hslash, -⟩
    · exact .inl ⟨hne, rest ++ "/" ++ rest', by simp only [String.append_assoc]⟩
    · have hchars := congrArg String.toList hempty
      simp at hchars
    · -- nothing stands in front of the slash that is the whole path
      have hchars := congrArg String.toList hslash
      rw [String.toList_append, String.toList_append] at hchars
      cases hfirst : first.toList with
      | nil => exact absurd (String.toList_eq_nil_iff.mp hfirst) hne
      | cons c chars =>
        rw [hfirst] at hchars
        simp at hchars
  · exact .inr (.inl ⟨rfl, habsolute.trans hsecond⟩)
  · exact .inr (.inr ⟨rfl, habsolute.trans hsecond⟩)

/-- Whether a path is another one or an ancestor of it. -/
def IsOnWay (path other : String) : Prop :=
  other = path ∨ IsAncestor other path

theorem IsOnWay.isAncestor {first second path : String} (h : IsOnWay second first)
    (h' : IsAncestor second path) : IsAncestor first path := by
  rcases h with rfl | h
  · exact h'
  · exact h.trans h'

/-- What is left of a list when its end is taken off, and then more of it. -/
theorem exists_kept {α : Type} {p : α → Bool} {list front : List α} {a : α}
    (h : list.reverse.dropWhile p = a :: front) :
    ∃ more, more ≠ [] ∧ list = (front.dropWhile p).reverse ++ more := by
  obtain ⟨taken, htaken⟩ := List.dropWhile_suffix (l := list.reverse) p
  obtain ⟨taken', htaken'⟩ := List.dropWhile_suffix (l := front) p
  refine ⟨taken'.reverse ++ a :: taken.reverse, by simp, ?_⟩
  have hwhole : list.reverse = taken ++ a :: (taken' ++ front.dropWhile p) := by
    rw [htaken', ← h, htaken]
  rw [← List.reverse_reverse list, hwhole]
  simp

/-- Where a path starts: at the root of the file system, or elsewhere. -/
def startText (path : String) : String :=
  if isAbsolute path then "/" else ""

/-- The segments of a path behind where it starts. -/
def pieces (path : String) : List String :=
  (segments path).drop (if isAbsolute path then 1 else 0)

theorem startText_pieces (path : String) : startText path ++ joined "/" (pieces path) = path := by
  rw [startText, pieces]
  cases hpath : isAbsolute path with
  | false => rw [if_neg Bool.false_ne_true, if_neg Bool.false_ne_true, List.drop_zero,
      joined_segments, String.empty_append]
  | true =>
    rw [if_pos rfl, if_pos rfl]
    rw [isAbsolute, decide_eq_true_eq] at hpath
    obtain ⟨rest, hrest⟩ := List.head?_eq_some_iff.mp hpath
    have hsegments : segments path = "" :: segments (String.ofList rest) := by
      rw [segments, hrest, segmentsFrom, if_pos rfl, List.map_cons, segments, String.toList_ofList]
      rfl
    rw [hsegments, List.drop_one, List.tail_cons, joined_segments]
    apply String.toList_inj.mp
    rw [hrest, String.toList_append]
    simp

theorem not_mem_of_mem_pieces {path piece : String} (h : piece ∈ pieces path) :
    '/' ∉ piece.toList :=
  not_mem_of_mem_segments (List.mem_of_mem_drop h)

/-- Segments that end in one that says something are more than nothing when they are joined. -/
theorem joined_ne_empty {names : List String} {last : String} (hlast : names.getLast? = some last)
    (hne : last ≠ "") (h : ∀ name ∈ names, '/' ∉ name.toList) : joined "/" names ≠ "" := by
  intro hempty
  have hnames : names ≠ [] := by
    rintro rfl
    cases hlast
  have hsegments := segments_joined hnames h
  rw [hempty] at hsegments
  rw [← hsegments] at hlast
  exact hne (Option.some.inj hlast).symm

/-- What stands in front of a slash between the pieces of a path is an ancestor. -/
theorem isAncestor_of_pieces {path : String} {names more : List String}
    (hpieces : pieces path = names ++ more) (hnames : joined "/" names ≠ "") (hmore : more ≠ []) :
    IsAncestor (startText path ++ joined "/" names) path := by
  refine .inl ⟨?_, joined "/" more, ?_⟩
  · intro hempty
    have hchars := congrArg String.toList hempty
    simp [String.toList_append, hnames] at hchars
  · have hsome : names ≠ [] := by
      rintro rfl
      exact hnames rfl
    calc path = startText path ++ joined "/" (pieces path) := (startText_pieces path).symm
      _ = startText path ++ (joined "/" names ++ "/" ++ joined "/" more) := by
        rw [hpieces, joined_append "/" hsome hmore]
      _ = startText path ++ joined "/" names ++ "/" ++ joined "/" more := by
        simp only [String.append_assoc]

/-- The parent of a path is an ancestor. -/
theorem isAncestor_of_parent? {path parent : String} (h : parent? path = some parent) :
    IsAncestor parent path := by
  simp only [parent?] at h
  split at h
  · cases h
  · next last front hfront =>
    change some (startText path ++ joined "/"
      ((front.dropWhile (isVacuous (isAbsolute path))).reverse.map (·.1))) = some parent at h
    change (pieces path).zipIdx.reverse.dropWhile _ = last :: front at hfront
    obtain rfl := Option.some.inj h
    obtain ⟨more, hmore, hsplit⟩ := exists_kept hfront
    have hpieces := congrArg (List.map (·.1)) hsplit
    rw [List.zipIdx_map_fst, List.map_append] at hpieces
    cases hkept : front.dropWhile (isVacuous (isAbsolute path)) with
    | nil =>
      -- nothing is left but where the path starts
      rw [startText]
      cases hpath : isAbsolute path with
      | false => exact .inr (.inl ⟨rfl, hpath⟩)
      | true => exact .inr (.inr ⟨rfl, hpath⟩)
    | cons kept others =>
      rw [hkept] at hpieces
      have hlast : ((kept :: others).reverse.map (·.1)).getLast? = some kept.1 := by simp
      have hne : kept.1 ≠ "" := by
        have hnot := List.head?_dropWhile_not (isVacuous (isAbsolute path)) front
        rw [hkept] at hnot
        intro hempty
        simp [isVacuous, hempty] at hnot
      refine isAncestor_of_pieces hpieces ?_ (by simpa using hmore)
      exact joined_ne_empty hlast hne fun name hname =>
        not_mem_of_mem_pieces (hpieces ▸ List.mem_append_left _ hname)

end HostPath

end JvmRelocation
