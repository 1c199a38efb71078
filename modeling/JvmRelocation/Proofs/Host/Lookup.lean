import JvmRelocation.Proofs.Host.Path
import JvmRelocation.Proofs.Host.Tree

/-!
# Where paths lead

Names that are neither empty nor relative are looked up one below the other. A path that leads
somewhere still leads there when more has been put into the tree. Writing a file and making a
directory each change what a single place holds, which is where the path leads from then on.
-/

namespace JvmRelocation

open FileNode

/-! ## Following segments -/

namespace FileTree

/-- The place a segment leads to from another one, if it leads anywhere. -/
def stepTo (here : List String) (segment : String) : List String :=
  if segment = "" || segment = "." then here
  else if segment = ".." then here.dropLast
  else here ++ [segment]

theorem stepTo_name (here : List String) {name : String} (h : isRelativeSegment name = false) :
    stepTo here name = here ++ [name] := by
  simp only [isRelativeSegment, Bool.or_eq_false_iff, decide_eq_false_iff_not] at h
  rw [stepTo, if_neg (by simpa using h.1), if_neg h.2]

/-- A segment is followed from a directory. A name has to be there. -/
theorem follow_cons_eq_ok {root : FileNode} {here place : List String} {segment : String}
    {rest : List String} : follow root here (segment :: rest) = .ok place ↔
      root.kindAt? here = some .directory ∧
      (isRelativeSegment segment = false → segment.utf8ByteSize ≤ maxNameBytes ∧
        (root.kindAt? (here ++ [segment])).isSome) ∧
      follow root (stepTo here segment) rest = .ok place := by
  rw [follow, stepTo, kindAt?]
  cases hhere : root.find? here with
  | none => simp
  | some node =>
    cases node with
    | file content => simp [kind]
    | directory entries =>
      simp only [Option.map_some, kind, true_and]
      by_cases hstay : (segment = "" || segment = ".") = true
      · simp [hstay, isRelativeSegment]
      · rw [if_neg hstay, if_neg hstay]
        by_cases hup : segment = ".."
        · simp [hup, isRelativeSegment]
        · rw [if_neg hup, if_neg hup, kindAt?, Option.isSome_map]
          simp only [isRelativeSegment, hstay, hup, decide_false, Bool.or_false, true_implies]
          by_cases hlong : maxNameBytes < segment.utf8ByteSize
          · simp [hlong, Nat.not_le.mpr hlong]
          · by_cases hthere : (root.find? (here ++ [segment])).isSome
            · simp [hlong, hthere, Nat.not_lt.mp hlong]
            · simp [hlong, hthere]

theorem follow_append_eq_ok {root : FileNode} {here place : List String} {front rest : List String} :
    follow root here (front ++ rest) = .ok place ↔
      ∃ middle, follow root here front = .ok middle ∧ follow root middle rest = .ok place := by
  induction front generalizing here with
  | nil => simp [follow]
  | cons segment front ih =>
    rw [List.cons_append, follow_cons_eq_ok, ih]
    simp only [follow_cons_eq_ok]
    constructor
    · rintro ⟨hdirectory, hname, middle, hfront, hrest⟩
      exact ⟨middle, ⟨hdirectory, hname, hfront⟩, hrest⟩
    · rintro ⟨middle, ⟨hdirectory, hname, hfront⟩, hrest⟩
      exact ⟨hdirectory, hname, middle, hfront, hrest⟩

/-- Blank segments stay in a directory. -/
theorem follow_blanks {root : FileNode} {here blanks : List String}
    (hhere : root.kindAt? here = some .directory) (h : ∀ segment ∈ blanks, segment = "") :
    follow root here blanks = .ok here := by
  induction blanks with
  | nil => rfl
  | cons segment blanks ih =>
    obtain ⟨rfl, hblanks⟩ := List.forall_mem_cons.mp h
    exact follow_cons_eq_ok.mpr ⟨hhere, fun hname => absurd hname (by decide), ih hblanks⟩

/-- Names are looked up one below the other. -/
theorem follow_names {root : FileNode} {here place names : List String}
    (hnames : ∀ name ∈ names, isRelativeSegment name = false)
    (h : follow root here names = .ok place) : place = here ++ names := by
  induction names generalizing here with
  | nil => rw [← Except.ok.inj h, List.append_nil]
  | cons name rest ih =>
    obtain ⟨hname, hrest⟩ := List.forall_mem_cons.mp hnames
    obtain ⟨-, -, hfollow⟩ := follow_cons_eq_ok.mp h
    rw [stepTo_name here hname] at hfollow
    rw [ih hrest hfollow, List.append_assoc, List.singleton_append]

/-- What is below a place is found by its names. -/
theorem follow_of_isSome {root : FileNode} {here names : List String}
    (hnames : ∀ name ∈ names, isRelativeSegment name = false ∧ name.utf8ByteSize ≤ maxNameBytes)
    (h : (root.kindAt? (here ++ names)).isSome) : follow root here names = .ok (here ++ names) := by
  induction names generalizing here with
  | nil => rw [follow, List.append_nil]
  | cons name rest ih =>
    obtain ⟨⟨hname, hshort⟩, hrest⟩ := List.forall_mem_cons.mp hnames
    have hhere := kindAt?_of_append (List.cons_ne_nil name rest) h
    rw [List.append_cons] at h ⊢
    have hthere : (root.kindAt? (here ++ [name])).isSome := by
      by_cases hnil : rest = []
      · rwa [hnil, List.append_nil] at h
      · rw [kindAt?_of_append hnil h]
        rfl
    apply follow_cons_eq_ok.mpr
    rw [stepTo_name here hname]
    exact ⟨hhere, fun _ => ⟨hshort, hthere⟩, ih hrest h⟩

/-! ## Where a path leads -/

/-- Whether a path leads to a place. -/
def Leads (t : FileTree) (path : String) (place : List String) : Prop :=
  follow t.root (t.start path) (segments path) = .ok place

theorem Leads.unique {t : FileTree} {path : String} {place place' : List String}
    (h : t.Leads path place) (h' : t.Leads path place') : place = place' :=
  Except.ok.inj (h.symm.trans h')

theorem locate_eq_ok {t : FileTree} {path : String} {node : FileNode} :
    t.locate path = .ok node ↔
      checkPath path = .ok () ∧ ∃ place, t.Leads path place ∧ t.root.find? place = some node := by
  unfold locate Leads
  cases hcheck : checkPath path with
  | error fault => simp [bind, Except.bind]
  | ok _ =>
    cases hfollow : follow t.root (t.start path) (segments path) with
    | error fault => simp [bind, Except.bind]
    | ok place =>
      cases hnode : t.root.find? place with
      | none => simp [bind, Except.bind, hnode]
      | some found => simp [bind, Except.bind, hnode]

theorem isDirectory_eq_true {t : FileTree} {path : String} :
    t.isDirectory path = true ↔ checkPath path = .ok () ∧
      ∃ place, t.Leads path place ∧ t.root.kindAt? place = some .directory := by
  have hlocate : t.isDirectory path = true ↔ ∃ list, t.locate path = .ok (.directory list) := by
    rw [isDirectory]
    cases t.locate path with
    | error fault => simp
    | ok node => cases node <;> simp [FileNode.isDirectory]
  simp only [hlocate, locate_eq_ok, kindAt?_eq_directory]
  constructor
  · rintro ⟨list, hcheck, place, hleads, hplace⟩
    exact ⟨hcheck, place, hleads, list, hplace⟩
  · rintro ⟨hcheck, place, hleads, list, hplace⟩
    exact ⟨list, hcheck, place, hleads, hplace⟩

theorem isFile_eq_true {t : FileTree} {path : String} :
    t.isFile path = true ↔ checkPath path = .ok () ∧
      ∃ place content, t.Leads path place ∧ t.root.kindAt? place = some (.file content) := by
  have hlocate : t.isFile path = true ↔ ∃ content, t.locate path = .ok (.file content) := by
    rw [isFile]
    cases t.locate path with
    | error fault => simp
    | ok node => cases node <;> simp [FileNode.isDirectory]
  simp only [hlocate, locate_eq_ok, kindAt?_eq_file]
  constructor
  · rintro ⟨content, hcheck, place, hleads, hplace⟩
    exact ⟨hcheck, place, content, hleads, hplace⟩
  · rintro ⟨hcheck, place, content, hleads, hplace⟩
    exact ⟨content, hcheck, place, hleads, hplace⟩

theorem readFile_eq_ok {t : FileTree} {path : String} {content : Bytes} :
    t.readFile path = .ok content ↔ checkPath path = .ok () ∧
      ∃ place, t.Leads path place ∧ t.root.kindAt? place = some (.file content) := by
  have hlocate : t.readFile path = .ok content ↔ t.locate path = .ok (.file content) := by
    unfold readFile
    cases t.locate path with
    | error fault => simp [bind, Except.bind]
    | ok node => cases node <;> simp [bind, Except.bind]
  simp only [hlocate, locate_eq_ok, kindAt?_eq_file]

theorem entries_eq_ok {t : FileTree} {path : String} {names : List String} :
    t.entries path = .ok names ↔ checkPath path = .ok () ∧ ∃ place list, t.Leads path place ∧
      t.root.find? place = some (.directory list) ∧ names = list.map (·.1) := by
  have hlocate : t.entries path = .ok names ↔
      ∃ list, t.locate path = .ok (.directory list) ∧ names = list.map (·.1) := by
    unfold entries
    cases t.locate path with
    | error fault => simp [bind, Except.bind]
    | ok node => cases node <;> simp [bind, Except.bind, eq_comm]
  simp only [hlocate, locate_eq_ok]
  constructor
  · rintro ⟨list, ⟨hcheck, place, hleads, hplace⟩, hnames⟩
    exact ⟨hcheck, place, list, hleads, hplace, hnames⟩
  · rintro ⟨hcheck, place, list, hleads, hplace, hnames⟩
    exact ⟨list, ⟨hcheck, place, hleads, hplace⟩, hnames⟩

theorem checkPath_eq_ok {path : String} : checkPath path = .ok () ↔
    (∀ c ∈ path.toList, c.toNat ≠ 0) ∧ path.utf8ByteSize ≤ maxPathBytes ∧ path ≠ "" := by
  rw [checkPath]
  by_cases hzero : path.toList.any (·.toNat = 0) = true
  · rw [if_pos hzero]
    simp only [List.any_eq_true, decide_eq_true_eq] at hzero
    obtain ⟨c, hc, hnull⟩ := hzero
    simp only [reduceCtorEq, false_iff]
    exact fun h => h.1 c hc hnull
  · rw [if_neg hzero]
    have hchars : ∀ c ∈ path.toList, c.toNat ≠ 0 := by simpa using hzero
    by_cases hlong : maxPathBytes < path.utf8ByteSize
    · simp [hlong, Nat.not_le.mpr hlong]
    · by_cases hempty : path = ""
      · simp [hempty]
      · simp [hlong, hempty, Nat.not_lt.mp hlong]
        exact hchars

/-! ## Trees that grow -/

/-- Whether a tree has what another one has: directories stay directories, and nothing goes away. -/
structure Grows (t t' : FileTree) : Prop where
  workingDirectory_eq : t'.workingDirectory = t.workingDirectory
  directory : ∀ {place}, t.root.kindAt? place = some .directory →
    t'.root.kindAt? place = some .directory
  isSome : ∀ {place}, (t.root.kindAt? place).isSome → (t'.root.kindAt? place).isSome
  wellFormed : t.root.WellFormed → t'.root.WellFormed

theorem Grows.trans {t t' t'' : FileTree} (h : Grows t t') (h' : Grows t' t'') : Grows t t'' where
  workingDirectory_eq := h'.workingDirectory_eq.trans h.workingDirectory_eq
  directory hplace := h'.directory (h.directory hplace)
  isSome hplace := h'.isSome (h.isSome hplace)
  wellFormed ht := h'.wellFormed (h.wellFormed ht)

/-- What is looked up in a tree is found in one that has grown. -/
theorem Grows.follow {t t' : FileTree} (h : Grows t t') {here place segments : List String}
    (hfollow : FileTree.follow t.root here segments = .ok place) :
    FileTree.follow t'.root here segments = .ok place := by
  induction segments generalizing here with
  | nil => exact hfollow
  | cons segment rest ih =>
    obtain ⟨hhere, hname, hrest⟩ := follow_cons_eq_ok.mp hfollow
    exact follow_cons_eq_ok.mpr
      ⟨h.directory hhere, fun hrelative => (hname hrelative).imp_right h.isSome, ih hrest⟩

theorem Grows.start_eq {t t' : FileTree} (h : Grows t t') (path : String) :
    t'.start path = t.start path := by
  rw [start, start, h.workingDirectory_eq]

theorem Grows.leads {t t' : FileTree} (h : Grows t t') {path : String} {place : List String}
    (hleads : t.Leads path place) : t'.Leads path place := by
  rw [Leads, h.start_eq]
  exact h.follow hleads

/-- Whether a tree holds what another one does, and something more at a place that is no directory of
the other. -/
structure PutAt (t t' : FileTree) (place : List String) (kind : FileKind) : Prop where
  workingDirectory_eq : t'.workingDirectory = t.workingDirectory
  no_directory : t.root.kindAt? place ≠ some .directory
  kindAt?_eq : ∀ other, t'.root.kindAt? other = if other = place then some kind else t.root.kindAt? other
  wellFormed : t.root.WellFormed → t'.root.WellFormed

theorem PutAt.grows {t t' : FileTree} {place : List String} {kind : FileKind}
    (h : PutAt t t' place kind) : Grows t t' where
  workingDirectory_eq := h.workingDirectory_eq
  directory {other} hother := by
    rw [h.kindAt?_eq, if_neg, hother]
    rintro rfl
    exact h.no_directory hother
  isSome {other} hother := by
    rw [h.kindAt?_eq]
    split
    · rfl
    · exact hother
  wellFormed := h.wellFormed

theorem PutAt.kindAt?_place {t t' : FileTree} {place : List String} {kind : FileKind}
    (h : PutAt t t' place kind) : t'.root.kindAt? place = some kind := by
  rw [h.kindAt?_eq, if_pos rfl]

/-! ## Entries of directories -/

/-- Whether a path names an entry of a directory, which need not be there. Blank segments can stand
behind the name. -/
structure NamesEntry (t : FileTree) (path : String) (parent : List String) (name : String)
    (blanks : List String) : Prop where
  checked : checkPath path = .ok ()
  leads : ∃ front, segments path = front ++ name :: blanks ∧
    follow t.root (t.start path) front = .ok parent
  blank : ∀ segment ∈ blanks, segment = ""
  not_relative : isRelativeSegment name = false
  short : name.utf8ByteSize ≤ maxNameBytes
  directory : t.root.kindAt? parent = some .directory

/-- The last segment that is not blank, with what stands around it. -/
theorem exists_blanks {list front : List String} {last : String}
    (h : list.reverse.dropWhile (· = "") = last :: front) :
    ∃ blanks, list = front.reverse ++ last :: blanks ∧ (∀ segment ∈ blanks, segment = "") ∧
      last ≠ "" ∧ (list.reverse.length = (last :: front).length → blanks = []) := by
  have hwhole := List.takeWhile_append_dropWhile (p := (· = "")) (l := list.reverse)
  rw [h] at hwhole
  refine ⟨(list.reverse.takeWhile (· = "")).reverse, ?_, ?_, ?_, ?_⟩
  · calc list = list.reverse.reverse := list.reverse_reverse.symm
      _ = (list.reverse.takeWhile (· = "") ++ last :: front).reverse := by rw [hwhole]
      _ = front.reverse ++ last :: (list.reverse.takeWhile (· = "")).reverse := by simp
  · intro segment hsegment
    exact of_decide_eq_true
      (List.all_eq_true.mp List.all_takeWhile segment (List.mem_reverse.mp hsegment))
  · have hnot := List.head?_dropWhile_not (· = "") list.reverse
    rw [h] at hnot
    simpa using hnot
  · intro hlength
    rw [← hwhole] at hlength
    simpa using hlength

/-- The target of an operation is the entry that the path names. -/
theorem namesEntry_of_target {t : FileTree} {path name : String} {parent : List String} {slash : Bool}
    (h : t.target path = .ok ⟨parent, some name, slash⟩) :
    ∃ blanks, NamesEntry t path parent name blanks ∧ (slash = false → blanks = []) := by
  unfold target at h
  cases hcheck : checkPath path with
  | error fault =>
    rw [hcheck] at h
    cases h
  | ok _ =>
    rw [hcheck] at h
    dsimp only [bind, Except.bind] at h
    split at h
    · cases h
    · next last front hnamed =>
      obtain ⟨blanks, hsegments, hblank, hlast, hlength⟩ := exists_blanks hnamed
      rw [hnamed] at h
      cases hfollow : follow t.root (t.start path) front.reverse with
      | error fault =>
        rw [hfollow] at h
        cases h
      | ok place =>
        rw [hfollow] at h
        dsimp only at h
        split at h
        · next entries hentries =>
          split at h
          · cases Except.ok.inj h
          · next hrelative =>
            split at h
            · cases h
            · next hshort =>
              obtain ⟨rfl, hsome, rfl⟩ := Target.mk.inj (Except.ok.inj h)
              obtain rfl := Option.some.inj hsome
              exact ⟨blanks, ⟨hcheck, ⟨front.reverse, hsegments, hfollow⟩, hblank,
                by simpa [isRelativeSegment, hlast] using hrelative, Nat.not_lt.mp hshort,
                kindAt?_eq_directory.mpr ⟨entries, hentries⟩⟩,
                fun hslash => hlength (by simpa using hslash)⟩
        · cases h
        · cases h

/-- A directory takes a leaf under a name that a path gives it. -/
theorem NamesEntry.putAt {t : FileTree} {path name : String} {parent blanks : List String}
    {new : FileNode} (h : NamesEntry t path parent name blanks)
    (hplace : t.root.kindAt? (parent ++ [name]) ≠ some .directory)
    (hleaf : new.IsLeaf) (hnew : new.WellFormed) :
    PutAt t { t with root := t.root.put new (parent ++ [name]) } (parent ++ [name]) new.kind where
  workingDirectory_eq := rfl
  no_directory := hplace
  kindAt?_eq := kindAt?_put hleaf h.directory hplace
  wellFormed hroot := by
    refine hroot.put hnew fun other hother => ?_
    rcases List.mem_append.mp hother with hfront | hlast
    · exact hroot.properNames (by rw [h.directory]; rfl) other hfront
    · obtain rfl := List.mem_singleton.mp hlast
      obtain ⟨front, hsegments, -⟩ := h.leads
      have hsegment : other ∈ segments path := hsegments ▸ by simp
      have hzero := (checkPath_eq_ok.mp h.checked).1
      exact ⟨h.not_relative, not_mem_of_mem_segments hsegment,
        fun c hc => hzero c (mem_of_mem_segments hsegment hc).1, h.short⟩

/-- A path leads to what was put under the name that it gives. -/
theorem PutAt.leads_entry {t t' : FileTree} {path name : String} {parent blanks : List String}
    {kind : FileKind} (h : PutAt t t' (parent ++ [name]) kind)
    (hentry : NamesEntry t path parent name blanks)
    (hblanks : FileTree.follow t'.root (parent ++ [name]) blanks = .ok (parent ++ [name])) :
    t'.Leads path (parent ++ [name]) := by
  obtain ⟨front, hsegments, hfront⟩ := hentry.leads
  rw [Leads, h.grows.start_eq, hsegments]
  apply follow_append_eq_ok.mpr
  refine ⟨parent, h.grows.follow hfront, follow_cons_eq_ok.mpr
    ⟨h.grows.directory hentry.directory, fun _ => ⟨hentry.short, ?_⟩, ?_⟩⟩
  · rw [h.kindAt?_place]
    rfl
  · rwa [stepTo_name parent hentry.not_relative]

/-- **Writing a file** puts it where its path leads from then on, and changes nothing else. -/
theorem putAt_of_writeFile {t t' : FileTree} {path : String} {content : Bytes}
    (h : t.writeFile path content = .ok t') :
    checkPath path = .ok () ∧ ∃ place, PutAt t t' place (.file content) ∧ t'.Leads path place := by
  unfold writeFile at h
  cases htarget : t.target path with
  | error fault =>
    rw [htarget] at h
    cases h
  | ok target =>
    obtain ⟨parent, name?, slash⟩ := target
    rw [htarget] at h
    dsimp only [bind, Except.bind] at h
    split at h
    · cases h
    · next name =>
      split at h
      · cases h
      · next hslash =>
        split at h
        · cases h
        · next hplace =>
          obtain rfl := Except.ok.inj h
          obtain ⟨blanks, hentry, hblanks⟩ := namesEntry_of_target htarget
          obtain rfl := hblanks (by simpa using hslash)
          have hkind : t.root.kindAt? (parent ++ [name]) ≠ some .directory := by
            intro hdirectory
            obtain ⟨entries, hentries⟩ := kindAt?_eq_directory.mp hdirectory
            exact hplace entries hentries
          have hput := hentry.putAt hkind (isLeaf_file content) (wellFormed_file content)
          exact ⟨hentry.checked, _, hput, hput.leads_entry hentry (by rw [FileTree.follow])⟩

/-- **Making a directory** puts it where there was nothing and where its path leads from then on, and
changes nothing else. -/
theorem putAt_of_makeDirectory {t t' : FileTree} {path : String}
    (h : t.makeDirectory path = .ok t') :
    ∃ place, t.root.kindAt? place = none ∧ PutAt t t' place .directory ∧ t'.Leads path place := by
  unfold makeDirectory at h
  cases htarget : t.target path with
  | error fault =>
    rw [htarget] at h
    cases h
  | ok target =>
    obtain ⟨parent, name?, slash⟩ := target
    rw [htarget] at h
    dsimp only [bind, Except.bind] at h
    split at h
    · cases h
    · next name =>
      split at h
      · cases h
      · next hplace =>
        obtain rfl := Except.ok.inj h
        obtain ⟨blanks, hentry, -⟩ := namesEntry_of_target htarget
        have hnone : t.root.kindAt? (parent ++ [name]) = none := by
          rw [kindAt?, hplace, Option.map_none]
        have hkind : t.root.kindAt? (parent ++ [name]) ≠ some .directory := by
          rw [hnone]
          simp
        have hput := hentry.putAt hkind isLeaf_emptyDirectory wellFormed_emptyDirectory
        exact ⟨_, hnone, hput,
          hput.leads_entry hentry (follow_blanks hput.kindAt?_place hentry.blank)⟩

end FileTree

end JvmRelocation
