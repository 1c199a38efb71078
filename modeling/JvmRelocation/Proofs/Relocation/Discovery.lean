import Mathlib.Data.List.Nodup
import JvmRelocation.Proofs.Relocation.MemoryRun

/-!
# What discovery finds and writes

A survey describes the classes that have been read: which names are declared, which classes are
marked, and what the table says. One class more keeps this, so a whole survey describes the input
store. Discovery then writes one file for each marked class, at the path of its new name, and no two
of these paths are the same.
-/

namespace JvmRelocation

open StoreProgram

/-! ## Names and paths -/

theorem relocatedName_inj {tag name name' : String} :
    relocatedName tag name = relocatedName tag name' ↔ name = name' := by
  simp only [relocatedName, String.append_right_inj]

theorem classPath_inj {name name' : String} : classPath name = classPath name' ↔ name = name' := by
  simp only [classPath, String.append_left_inj]

/-! ## Several files written one after another -/

namespace MemoryStore

/-- The store with several files written in order. -/
def insertAll (s : MemoryStore) (files : List (String × Bytes)) : MemoryStore :=
  files.foldl (fun s file => s.insert file.1 file.2) s

theorem get?_insertAll_of_not_mem {s : MemoryStore} {files : List (String × Bytes)} {path : String}
    (h : path ∉ files.map (·.1)) : (s.insertAll files).get? path = s.get? path := by
  induction files generalizing s with
  | nil => rfl
  | cons file files ih =>
    rw [List.map_cons, List.mem_cons, not_or] at h
    rw [insertAll, List.foldl_cons, ← insertAll, ih h.2, get?_insert, if_neg (Ne.symm h.1)]

theorem get?_insertAll_of_mem {s : MemoryStore} {files : List (String × Bytes)}
    (hdistinct : (files.map (·.1)).Nodup) {file : String × Bytes} (h : file ∈ files) :
    (s.insertAll files).get? file.1 = some file.2 := by
  induction files generalizing s with
  | nil => cases h
  | cons first files ih =>
    rw [List.map_cons, List.nodup_cons] at hdistinct
    rw [insertAll, List.foldl_cons, ← insertAll]
    rcases List.mem_cons.mp h with rfl | h
    · rw [get?_insertAll_of_not_mem hdistinct.1, get?_insert, if_pos rfl]
    · exact ih hdistinct.2 h

end MemoryStore

/-! ## Surveys -/

/-- A survey after reading the given classes, each with its path. -/
structure Survey.Describes (tag marker : String) (s : Survey) (classes : List (String × LoadedClass)) :
    Prop where
  declared : ∀ name, s.declared.contains name = true ↔ ∃ e ∈ classes, e.2.declaredName = name
  distinct : (classes.map (·.2.declaredName)).Nodup
  marked : s.marked.reverse = (classes.filter fun e => e.2.hasMarker marker).map fun e =>
    ⟨e.1, e.2, relocatedName tag e.2.declaredName⟩
  table : ∀ old new, s.table.get? old = some new ↔ new = relocatedName tag old ∧
    ∃ e ∈ classes, e.2.hasMarker marker = true ∧ e.2.declaredName = old
  /-- Only declared names have entries, the old ones of which some class has been read. -/
  sources : ∀ old, (s.table.sources.get? old).isSome → ∃ e ∈ classes, e.2.declaredName = old
  oldNames : ∀ new, (s.table.oldNames.get? new).isSome →
    ∃ e ∈ classes, relocatedName tag e.2.declaredName = new

theorem Survey.describes_empty (tag marker : String) : Survey.empty.Describes tag marker [] := by
  refine ⟨fun name => ?_, .nil, rfl, fun old new => ?_, fun old => ?_, fun new => ?_⟩
  · simp [empty]
  · simp [empty, RelocationTable.empty, RelocationTable.get?]
  · simp [empty, RelocationTable.empty]
  · simp [empty, RelocationTable.empty]

/-- An entry is added exactly if neither its old nor its new name is taken. -/
theorem RelocationTable.insert_eq_ok {t t' : RelocationTable} {old new source : String} :
    t.insert old new source = .ok t' ↔ t.sources.get? old = none ∧ t.oldNames.get? new = none ∧
      t' = ⟨t.relocated.insert old new, t.sources.insert old source, t.oldNames.insert new old⟩ := by
  rw [insert]
  cases t.sources.get? old with
  | some first => simp
  | none => cases t.oldNames.get? new <;> simp [eq_comm]

namespace Survey.Describes

variable {tag marker : String} {s : Survey} {classes : List (String × LoadedClass)}

/-- One more class declares one more name. -/
theorem declared_append (h : s.Describes tag marker classes) (path : String) (c : LoadedClass)
    (name : String) : (s.declared.insert c.declaredName path).contains name = true ↔
      ∃ e ∈ classes ++ [(path, c)], e.2.declaredName = name := by
  rw [Std.TreeMap.contains_insert, Bool.or_eq_true, h.declared]
  simp [Std.LawfulEqCmp.compare_eq_iff_eq, or_comm]

theorem distinct_append (h : s.Describes tag marker classes) (path : String) {c : LoadedClass}
    (hfresh : ¬∃ e ∈ classes, e.2.declaredName = c.declaredName) :
    ((classes ++ [(path, c)]).map (·.2.declaredName)).Nodup := by
  rw [List.map_append, List.nodup_append]
  refine ⟨h.distinct, by simp, fun name hname other hother heq => hfresh ?_⟩
  obtain rfl := List.mem_singleton.mp hother
  obtain ⟨e, he, hdeclares⟩ := List.mem_map.mp hname
  exact ⟨e, he, hdeclares.trans heq⟩

/-- The table says something new about a marked class, and the same as before about others. -/
theorem table_append (h : s.Describes tag marker classes) (path : String) {c : LoadedClass}
    (hmarked : c.hasMarker marker = true) {table : RelocationTable}
    (hinsert : s.table.insert c.declaredName (relocatedName tag c.declaredName) path = .ok table)
    (old new : String) : table.get? old = some new ↔ new = relocatedName tag old ∧
      ∃ e ∈ classes ++ [(path, c)], e.2.hasMarker marker = true ∧ e.2.declaredName = old := by
  obtain ⟨-, -, rfl⟩ := RelocationTable.insert_eq_ok.mp hinsert
  rw [RelocationTable.get?, get?_treeInsert]
  split
  case isTrue heq =>
    subst heq
    constructor
    · intro hnew
      exact ⟨(Option.some.inj hnew).symm, (path, c), by simp, hmarked, rfl⟩
    · rintro ⟨rfl, -⟩
      rfl
  case isFalse hne =>
    rw [← RelocationTable.get?, h.table]
    simp [hne]

/-- Entries come from classes that have been read. -/
theorem entries_append {map map' : Std.TreeMap String String} (f : LoadedClass → String)
    (h : ∀ key, (map.get? key).isSome → ∃ e ∈ classes, f e.2 = key) (path : String) {c : LoadedClass}
    (hmap : ∀ key, (map'.get? key).isSome → (map.get? key).isSome ∨ f c = key) (key : String)
    (hkey : (map'.get? key).isSome) : ∃ e ∈ classes ++ [(path, c)], f e.2 = key := by
  rcases hmap key hkey with hbefore | hnew
  · obtain ⟨e, he, heq⟩ := h key hbefore
    exact ⟨e, List.mem_append_left _ he, heq⟩
  · exact ⟨(path, c), by simp, hnew⟩

theorem isSome_of_insert {map : Std.TreeMap String String} {key value key' : String}
    (h : ((map.insert key value).get? key').isSome) : (map.get? key').isSome ∨ key = key' := by
  rw [get?_treeInsert] at h
  split at h
  case isTrue heq => exact .inr heq
  case isFalse => exact .inl h

end Survey.Describes

/-- What noting a class does to a survey. -/
structure Survey.Noted (tag marker path : String) (c : LoadedClass) (s s' : Survey) : Prop where
  fresh : s.declared.get? c.declaredName = none
  declared : s'.declared = s.declared.insert c.declaredName path
  scanned : s'.scanned = s.scanned + 1
  entered : (c.hasMarker marker = true ∧
      s.table.insert c.declaredName (relocatedName tag c.declaredName) path = .ok s'.table ∧
      s'.marked = ⟨path, c, relocatedName tag c.declaredName⟩ :: s.marked ∧
      s'.unchanged = s.unchanged) ∨
    (c.hasMarker marker = false ∧ s'.table = s.table ∧ s'.marked = s.marked ∧
      s'.unchanged = s.unchanged + 1)

theorem Survey.noted_of_note {tag marker path : String} {s s' : Survey} {c : LoadedClass}
    (h : s.note tag marker path c = .ok s') : Noted tag marker path c s s' := by
  unfold note at h
  split at h
  case h_1 => cases h
  case h_2 hfresh =>
    dsimp only at h
    split at h
    case isTrue hmarked =>
      split at h
      case h_2 => cases h
      case h_1 table htable =>
        obtain rfl := Except.ok.inj h
        exact ⟨hfresh, rfl, rfl, .inl ⟨hmarked, htable, rfl, rfl⟩⟩
    case isFalse hunmarked =>
      obtain rfl := Except.ok.inj h
      exact ⟨hfresh, rfl, rfl, .inr ⟨by simpa using hunmarked, rfl, rfl, rfl⟩⟩

/-- Noting a class that can be noted keeps a survey a description. -/
theorem Survey.Describes.note {tag marker path : String} {s s' : Survey} {c : LoadedClass}
    {classes : List (String × LoadedClass)} (h : s.Describes tag marker classes)
    (hnote : s.note tag marker path c = .ok s') :
    s'.Describes tag marker (classes ++ [(path, c)]) := by
  have hnoted := Survey.noted_of_note hnote
  -- a name that is declared already is refused
  have hfresh : ¬∃ e ∈ classes, e.2.declaredName = c.declaredName := by
    rw [← h.declared]
    simpa [Std.TreeMap.get?_eq_getElem?] using hnoted.fresh
  have hdeclared (name : String) : s'.declared.contains name = true ↔
      ∃ e ∈ classes ++ [(path, c)], e.2.declaredName = name := by
    rw [hnoted.declared]
    exact h.declared_append path c name
  rcases hnoted.entered with ⟨hmarked, htable, hlist, -⟩ | ⟨hunmarked, htable, hlist, -⟩
  · obtain ⟨-, -, htable'⟩ := RelocationTable.insert_eq_ok.mp htable
    refine ⟨hdeclared, h.distinct_append path hfresh, ?_, h.table_append path hmarked htable, ?_, ?_⟩
    · simp [hlist, List.filter_append, h.marked, hmarked]
    · refine entries_append (·.declaredName) h.sources path fun old hold => ?_
      exact isSome_of_insert (htable' ▸ hold)
    · refine entries_append (relocatedName tag ·.declaredName) h.oldNames path fun new hnew => ?_
      exact isSome_of_insert (htable' ▸ hnew)
  · refine ⟨hdeclared, h.distinct_append path hfresh, ?_, fun old new => ?_, ?_, ?_⟩
    · simp [hlist, List.filter_append, h.marked, hunmarked]
    · rw [htable, h.table]
      simp [hunmarked]
    · rw [htable]
      exact entries_append (·.declaredName) h.sources path fun _ => .inl
    · rw [htable]
      exact entries_append (relocatedName tag ·.declaredName) h.oldNames path fun _ => .inl

/-- The classes at the given paths of a store, each with its path. -/
def MemoryStore.HasClasses (s : MemoryStore) (paths : List String)
    (classes : List (String × LoadedClass)) : Prop :=
  classes.map (·.1) = paths ∧ ∀ e ∈ classes, s.class? e.1 = some e.2

/-- The classes of a list are those that are found at its paths. -/
theorem MemoryStore.HasClasses.mem_iff {s : MemoryStore} {paths : List String}
    {classes : List (String × LoadedClass)} (h : s.HasClasses paths classes) {path : String}
    {c : LoadedClass} : (path, c) ∈ classes ↔ path ∈ paths ∧ s.class? path = some c := by
  obtain ⟨hpaths, hclasses⟩ := h
  constructor
  · intro hmem
    exact ⟨hpaths ▸ List.mem_map.mpr ⟨_, hmem, rfl⟩, hclasses _ hmem⟩
  · rintro ⟨hpath, hclass⟩
    rw [← hpaths] at hpath
    obtain ⟨⟨path', c'⟩, hmem, rfl⟩ := List.mem_map.mp hpath
    obtain rfl : c' = c := Option.some.inj ((hclasses _ hmem).symm.trans hclass)
    exact hmem

theorem yields_surveyPaths {tag marker : String} {paths : List String} {s s' : Survey}
    {input output output' : MemoryStore}
    (h : (surveyPaths tag marker s paths).Yields input output s' output') :
    output' = output ∧ ∃ more, input.HasClasses paths more ∧
      ∀ classes, s.Describes tag marker classes → s'.Describes tag marker (classes ++ more) := by
  induction paths generalizing s with
  | nil =>
    obtain ⟨rfl, rfl⟩ := yields_pure.mp h
    exact ⟨rfl, [], ⟨rfl, by simp⟩, fun classes hs => by simpa using hs⟩
  | cons path paths ih =>
    obtain ⟨c, afterRead, hread, hthen⟩ := yields_bind.mp h
    obtain ⟨hclass, rfl⟩ := yields_readClass.mp hread
    obtain ⟨noted, afterNote, hnoted, hrest⟩ := yields_bind.mp hthen
    obtain ⟨hnote, rfl⟩ := yields_ofExcept.mp hnoted
    obtain ⟨rfl, more, ⟨hpaths, hmore⟩, hdescribes⟩ := ih hrest
    refine ⟨rfl, (path, c) :: more, ⟨by simp [hpaths], ?_⟩, fun classes hs => ?_⟩
    · exact List.forall_mem_cons.mpr ⟨hclass, hmore⟩
    · have hall := hdescribes _ (hs.note hnote)
      rwa [List.append_assoc] at hall

/-- The check passes exactly if no new name is declared. -/
theorem checkClashes_eq_ok {s : Survey} {marked : List MarkedClass} :
    s.checkClashes marked = .ok () ↔ ∀ c ∈ marked, s.declared.contains c.relocated = false := by
  induction marked with
  | nil => simp [Survey.checkClashes]
  | cons c marked ih =>
    have hnone : s.declared.get? c.relocated = none ↔ s.declared.contains c.relocated = false := by
      rw [Std.TreeMap.contains_eq_isSome_getElem?, ← Std.TreeMap.get?_eq_getElem?,
        Option.isSome_eq_false_iff, Option.isNone_iff_eq_none]
    rw [List.forall_mem_cons, ← hnone, ← ih, Survey.checkClashes]
    cases s.declared.get? c.relocated <;> simp

/-- Where the check passes, no class that has been read has the new name of a marked one. -/
theorem Survey.Describes.fresh_of_checkClashes {tag marker : String} {s : Survey}
    {classes : List (String × LoadedClass)} (h : s.Describes tag marker classes)
    (hcheck : s.checkClashes s.marked.reverse = .ok ()) :
    ∀ e ∈ classes, e.2.hasMarker marker = true →
      ∀ e' ∈ classes, e'.2.declaredName ≠ relocatedName tag e.2.declaredName := by
  intro e he hmarked e' he' heq
  rw [h.marked] at hcheck
  -- the check has seen the new name of every marked class
  have hfree := checkClashes_eq_ok.mp hcheck ⟨e.1, e.2, relocatedName tag e.2.declaredName⟩
    (List.mem_map.mpr ⟨e, List.mem_filter.mpr ⟨he, hmarked⟩, rfl⟩)
  have htaken := (h.declared (relocatedName tag e.2.declaredName)).mpr ⟨e', he', heq⟩
  rw [htaken] at hfree
  cases hfree

/-! ## Writing the marked classes -/

/-- The file that discovery writes for a marked class. -/
def MarkedClass.Written (c : MarkedClass) (file : String × Bytes) : Prop :=
  ∃ s, c.file.substitute (.single c.file.declaredName c.relocated) = .ok s ∧
    file = (classPath c.relocated, s.bytes)

theorem yields_writeMarked {marked : List MarkedClass} {written paths : List String}
    {input output output' : MemoryStore}
    (h : (writeMarked written marked).Yields input output paths output') :
    paths = written.reverse ++ marked.map (fun c => classPath c.relocated) ∧
      ∃ files, List.Forall₂ MarkedClass.Written marked files ∧ output' = output.insertAll files := by
  induction marked generalizing written output with
  | nil =>
    obtain ⟨rfl, rfl⟩ := yields_pure.mp h
    exact ⟨by simp, [], .nil, rfl⟩
  | cons c marked ih =>
    obtain ⟨s, afterRename, hrename, hthen⟩ := yields_bind.mp h
    obtain ⟨hsub, rfl⟩ := yields_renameClass.mp hrename
    obtain ⟨_, afterWrite, hwrite, hrest⟩ := yields_bind.mp hthen
    obtain rfl := yields_writeTo.mp hwrite
    obtain ⟨rfl, files, hfiles, rfl⟩ := ih hrest
    exact ⟨by simp, _ :: files, .cons ⟨s, hsub, rfl⟩ hfiles, rfl⟩

theorem paths_of_written {marked : List MarkedClass} {files : List (String × Bytes)}
    (h : List.Forall₂ MarkedClass.Written marked files) :
    files.map (·.1) = marked.map fun c => classPath c.relocated := by
  induction h with
  | nil => rfl
  | cons hwritten _ ih =>
    obtain ⟨s, -, rfl⟩ := hwritten
    rw [List.map_cons, List.map_cons, ih]

/-- Classes with different names get different paths. -/
theorem newPaths_nodup (tag : String) {list : List (String × LoadedClass)}
    (h : (list.map (·.2.declaredName)).Nodup) :
    (list.map fun e => classPath (relocatedName tag e.2.declaredName)).Nodup := by
  induction list with
  | nil => exact .nil
  | cons e list ih =>
    rw [List.map_cons, List.nodup_cons] at h ⊢
    refine ⟨fun hmem => h.1 ?_, ih h.2⟩
    obtain ⟨e', he', heq⟩ := List.mem_map.mp hmem
    exact List.mem_map.mpr ⟨e', he', relocatedName_inj.mp (classPath_inj.mp heq)⟩

/-! ## Discovery -/

/-- What a discovery that succeeds has found among the classes of the input store and left behind in
the output store. -/
structure Discovered (tag marker : String) (input output : MemoryStore)
    (classes : List (String × LoadedClass)) (found : Discovery) (output' : MemoryStore) : Prop where
  read : input.HasClasses input.classPaths classes
  distinct : (classes.map (·.2.declaredName)).Nodup
  table : ∀ old new, found.table.get? old = some new ↔ new = relocatedName tag old ∧
    ∃ e ∈ classes, e.2.hasMarker marker = true ∧ e.2.declaredName = old
  /-- No input class has the new name of a marked one. -/
  fresh : ∀ e ∈ classes, e.2.hasMarker marker = true →
    ∀ e' ∈ classes, e'.2.declaredName ≠ relocatedName tag e.2.declaredName
  written : found.report.written = (classes.filter fun e => e.2.hasMarker marker).map fun e =>
    classPath (relocatedName tag e.2.declaredName)
  /-- A marked class is at the path of its new name, with itself renamed. -/
  copied : ∀ e ∈ classes, e.2.hasMarker marker = true →
    ∃ s, e.2.substitute (.single e.2.declaredName (relocatedName tag e.2.declaredName)) = .ok s ∧
      output'.get? (classPath (relocatedName tag e.2.declaredName)) = some s.bytes
  others : ∀ path ∉ found.report.written, output'.get? path = output.get? path

/-- The paths that discovery writes are distinct. -/
theorem Discovered.written_nodup {tag marker : String} {input output output' : MemoryStore}
    {classes : List (String × LoadedClass)} {found : Discovery}
    (h : Discovered tag marker input output classes found output') :
    found.report.written.Nodup := by
  rw [h.written]
  exact newPaths_nodup tag (h.distinct.sublist (List.filter_sublist.map _))

namespace Discovered

variable {tag marker : String} {input output output' : MemoryStore}
  {classes : List (String × LoadedClass)} {found : Discovery} {path : String} {c : LoadedClass}

theorem mem_classes (h : Discovered tag marker input output classes found output') :
    (path, c) ∈ classes ↔ path ∈ input.classPaths ∧ input.class? path = some c :=
  h.read.mem_iff

/-- A name is declared by one class only. -/
theorem eq_of_declaredName (h : Discovered tag marker input output classes found output')
    {e e' : String × LoadedClass} (he : e ∈ classes) (he' : e' ∈ classes)
    (hname : e.2.declaredName = e'.2.declaredName) : e = e' :=
  List.inj_on_of_nodup_map h.distinct he he' hname

theorem contains_eq_true (h : Discovered tag marker input output classes found output')
    {name : String} : found.table.contains name = true ↔
      ∃ e ∈ classes, e.2.hasMarker marker = true ∧ e.2.declaredName = name := by
  rw [RelocationTable.contains, Std.TreeMap.contains_eq_isSome_getElem?,
    ← Std.TreeMap.get?_eq_getElem?, Option.isSome_iff_exists]
  constructor
  · rintro ⟨new, hnew⟩
    exact ((h.table name new).mp hnew).2
  · intro he
    exact ⟨_, (h.table name _).mpr ⟨rfl, he⟩⟩

/-- A class has a new name exactly when it is marked. -/
theorem contains_declaredName (h : Discovered tag marker input output classes found output')
    (hc : (path, c) ∈ classes) :
    found.table.contains c.declaredName = true ↔ c.hasMarker marker = true := by
  rw [h.contains_eq_true]
  constructor
  · rintro ⟨e, he, hmarked, hname⟩
    rwa [h.eq_of_declaredName he hc hname] at hmarked
  · intro hmarked
    exact ⟨(path, c), hc, hmarked, rfl⟩

theorem contains_declaredName_eq_false (h : Discovered tag marker input output classes found output')
    (hc : (path, c) ∈ classes) :
    found.table.contains c.declaredName = false ↔ c.hasMarker marker = false := by
  rw [← Bool.not_eq_true, ← Bool.not_eq_true, h.contains_declaredName hc]

/-- Where only one class is marked, the table renames that class and nothing else. -/
theorem mapper_eq_single (h : Discovered tag marker input output classes found output')
    {e : String × LoadedClass} (he : e ∈ classes) (hmarked : e.2.hasMarker marker = true)
    (honly : ∀ e' ∈ classes, e'.2.hasMarker marker = true → e' = e) :
    found.table.mapper = .single e.2.declaredName (relocatedName tag e.2.declaredName) := by
  funext old
  rw [NameMapper.single]
  split
  case isTrue hold =>
    subst hold
    exact (h.table _ _).mpr ⟨rfl, e, he, hmarked, rfl⟩
  case isFalse hold =>
    refine Option.eq_none_iff_forall_ne_some.mpr fun new hnew => hold ?_
    obtain ⟨-, e', he', hmarked', rfl⟩ := (h.table _ _).mp hnew
    rw [honly e' he' hmarked']

end Discovered

/-- **What discovery does.** -/
theorem yields_discover {tag marker : String} {input output output' : MemoryStore} {found : Discovery}
    (h : (discover tag marker).Yields input output found output') :
    ∃ classes, Discovered tag marker input output classes found output' := by
  obtain ⟨paths, afterList, hlist, hsurveying⟩ := yields_bind.mp h
  obtain ⟨rfl, rfl⟩ := yields_listInput.mp hlist
  obtain ⟨s, afterSurvey, hsurvey, hchecking⟩ := yields_bind.mp hsurveying
  obtain ⟨rfl, classes, hclasses, hdescribes⟩ := yields_surveyPaths hsurvey
  have hdescribed := hdescribes [] (Survey.describes_empty tag marker)
  rw [List.nil_append] at hdescribed
  obtain ⟨_, afterCheck, hcheck, hwriting⟩ := yields_bind.mp hchecking
  obtain ⟨hclashes, rfl⟩ := yields_ofExcept.mp hcheck
  obtain ⟨written, afterWrite, hwrite, hend⟩ := yields_bind.mp hwriting
  obtain ⟨rfl, rfl⟩ := yields_pure.mp hend
  rw [hdescribed.marked] at hwrite
  obtain ⟨rfl, files, hfiles, rfl⟩ := yields_writeMarked hwrite
  have hunique : (files.map (·.1)).Nodup := by
    rw [paths_of_written hfiles, List.map_map]
    exact newPaths_nodup tag (hdescribed.distinct.sublist (List.filter_sublist.map _))
  refine ⟨classes, hclasses, hdescribed.distinct, hdescribed.table,
    hdescribed.fresh_of_checkClashes hclashes, ?_, ?_, ?_⟩
  · simp
  · intro e he hmarked
    obtain ⟨file, hfile, s, hsub, rfl⟩ := exists_of_forall₂ hfiles
      (List.mem_map.mpr ⟨e, List.mem_filter.mpr ⟨he, hmarked⟩, rfl⟩)
    exact ⟨s, hsub, MemoryStore.get?_insertAll_of_mem hunique hfile⟩
  · intro path hpath
    refine MemoryStore.get?_insertAll_of_not_mem ?_
    rwa [paths_of_written hfiles]

end JvmRelocation
