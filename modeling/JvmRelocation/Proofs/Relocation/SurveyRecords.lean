import JvmRelocation.Proofs.Relocation.Noninterference
import JvmRelocation.Proofs.Relocation.TableEntries

/-!
# What a survey records of the classes it reads

A survey counts the classes that have been read, remembers where each name was declared, and enters
the marked classes with the paths they were found at. What one class adds is told by the note that is
taken of it; what a survey has recorded in the end follows by induction on the paths. The table of a
discovery lists each marked class once, with its new name and its path.
-/

namespace JvmRelocation

open StoreProgram

/-! ## Entries -/

/-- What a table holds of a class that is kept at a path. -/
def relocationEntry (tag : String) (e : String × LoadedClass) : String × String × String :=
  (e.2.declaredName, relocatedName tag e.2.declaredName, e.1)

namespace RelocationTable

theorem length_withSources (t : RelocationTable) : t.withSources.length = t.size := by
  show (t.relocated.toList.map _).length = t.relocated.size
  rw [List.length_map, Std.TreeMap.length_toList]

/-- An accepted entry is listed besides the others, which keep their sources. -/
theorem OneToOne.withSources_insert {t t' : RelocationTable} {e : TableEntry} (h : t.OneToOne)
    (hinsert : t.insert e.old e.relocated e.source = .ok t') :
    t'.withSources.Perm ((e.old, e.relocated, e.source) :: t.withSources) := by
  have hadds := h.adds hinsert
  obtain ⟨hold, -, -⟩ := h.insert_eq_ok.mp hinsert
  have hothers : t.toList.map (fun e => (e.1, e.2, (t'.source? e.1).getD "")) = t.withSources := by
    apply List.map_congr_left
    rintro ⟨old, new⟩ hlisted
    have hne : old ≠ e.old := by
      rintro rfl
      rw [contains_eq_isSome, mem_toList.mp hlisted] at hold
      cases hold
    show (old, new, (t'.source? old).getD "") = (old, new, (t.source? old).getD "")
    rw [hadds.source?, if_neg hne]
  have hsource : t'.source? e.old = some e.source := by rw [hadds.source?, if_pos rfl]
  have hperm := hadds.toList.map fun e => (e.1, e.2, (t'.source? e.1).getD "")
  rw [List.map_cons, hothers] at hperm
  simp only [hsource] at hperm
  exact hperm

/-- Classes that have all been entered are all listed. -/
theorem OneToOne.enterAll {tag : String} {t t' : RelocationTable}
    {classes : List (String × LoadedClass)} (h : t.OneToOne)
    (henter : t.enterAll tag classes = .ok t') :
    t'.OneToOne ∧ t'.withSources.Perm (t.withSources ++ classes.map (relocationEntry tag)) := by
  induction classes generalizing t with
  | nil =>
    obtain rfl : t = t' := Except.ok.inj henter
    exact ⟨h, by simp⟩
  | cons e classes ih =>
    rw [RelocationTable.enterAll, List.foldlM_cons] at henter
    obtain ⟨mid, hinsert, hrest⟩ := exceptBind_eq_ok.mp henter
    have hmid := h.insert (e := ⟨_, _, _⟩) hinsert
    obtain ⟨ht', hperm⟩ := ih hmid hrest
    refine ⟨ht', hperm.trans ?_⟩
    have hfirst := h.withSources_insert (e := ⟨_, _, _⟩) hinsert
    rw [List.map_cons]
    exact (hfirst.append_right _).trans List.perm_middle.symm

/-- What is listed with a source is what the table says of it. -/
theorem OneToOne.mem_withSources {t : RelocationTable} (h : t.OneToOne)
    {old new source : String} :
    (old, new, source) ∈ t.withSources ↔ t.get? old = some new ∧ t.source? old = some source := by
  rw [withSources, List.mem_map]
  constructor
  · rintro ⟨⟨old', new'⟩, hlisted, heq⟩
    obtain ⟨rfl, rfl, rfl⟩ : old' = old ∧ new' = new ∧ (t.source? old').getD "" = source := by
      simpa using heq
    have hnew : t.get? old' = some new' := mem_toList.mp hlisted
    have hsource : (t.source? old').isSome := by
      rw [source?, h.sources]
      exact Option.isSome_iff_exists.mpr ⟨new', hnew⟩
    obtain ⟨source', hsource'⟩ := Option.isSome_iff_exists.mp hsource
    exact ⟨hnew, by rw [hsource', Option.getD_some]⟩
  · rintro ⟨hnew, hsource⟩
    refine ⟨(old, new), mem_toList.mpr hnew, ?_⟩
    show (old, new, (t.source? old).getD "") = (old, new, source)
    rw [hsource, Option.getD_some]

end RelocationTable

/-! ## Counts and places -/

/-- What a survey has recorded of the given classes, each with its path. -/
structure Survey.Records (marker : String) (s : Survey) (classes : List (String × LoadedClass)) :
    Prop where
  scanned : s.scanned = classes.length
  unchanged : s.unchanged = classes.countP fun e => !e.2.hasMarker marker
  /-- A name is known from a class that declares it. -/
  declared : ∀ name path, s.declared.get? name = some path →
    ∃ c, (path, c) ∈ classes ∧ c.declaredName = name

theorem Survey.records_empty (marker : String) : Survey.empty.Records marker [] := by
  refine ⟨rfl, rfl, ?_⟩
  intro name path h
  simp [empty] at h

/-- A note adds what it is taken of. -/
theorem Survey.Records.note {tag marker path : String} {s s' : Survey} {c : LoadedClass}
    {classes : List (String × LoadedClass)} (h : s.Records marker classes)
    (hnote : s.note tag marker path c = .ok s') : s'.Records marker (classes ++ [(path, c)]) := by
  have hnoted := Survey.noted_of_note hnote
  constructor
  case scanned =>
    rw [hnoted.scanned, h.scanned, List.length_append]
    rfl
  case unchanged =>
    rw [List.countP_append, List.countP_singleton, ← h.unchanged]
    rcases hnoted.entered with ⟨hmarked, -, -, hsame⟩ | ⟨hunmarked, -, -, hone⟩
    · simp [hsame, hmarked]
    · simp [hone, hunmarked]
  case declared =>
    intro name place hplace
    rw [hnoted.declared, get?_treeInsert] at hplace
    split at hplace
    case isTrue hname =>
      obtain rfl := Option.some.inj hplace
      exact ⟨c, by simp, hname⟩
    case isFalse =>
      obtain ⟨c', hc', hname⟩ := h.declared name place hplace
      exact ⟨c', List.mem_append_left _ hc', hname⟩

/-- A survey that gets through its paths has recorded the classes there. -/
theorem records_of_surveyPaths {tag marker : String} {input output output' : MemoryStore}
    {paths : List String} {s s' : Survey} {before classes : List (String × LoadedClass)}
    (hclasses : input.HasClasses paths classes) (h : s.Records marker before)
    (hyields : (surveyPaths tag marker s paths).Yields input output s' output') :
    s'.Records marker (before ++ classes) := by
  induction classes generalizing paths s before with
  | nil =>
    obtain ⟨rfl, -⟩ := hclasses
    obtain ⟨rfl, -⟩ := yields_pure.mp hyields
    rwa [List.append_nil]
  | cons e classes ih =>
    obtain ⟨rfl, hall⟩ := hclasses
    obtain ⟨he, hmore⟩ := List.forall_mem_cons.mp hall
    obtain ⟨c, afterRead, hread, hthen⟩ := yields_bind.mp hyields
    obtain ⟨hclass, rfl⟩ := yields_readClass.mp hread
    obtain rfl : c = e.2 := Option.some.inj (hclass.symm.trans he)
    obtain ⟨noted, afterNote, hnoted, hrest⟩ := yields_bind.mp hthen
    obtain ⟨hnote, rfl⟩ := yields_ofExcept.mp hnoted
    rw [List.append_cons]
    exact ih ⟨rfl, hmore⟩ (h.note hnote) hrest

/-! ## Discovery -/

/-- What a discovery that succeeds says of the classes it has read: how many there are, how many of
them are not marked, and which new name and which path each marked one has. -/
structure Recorded (tag marker : String) (classes : List (String × LoadedClass))
    (found : Discovery) : Prop where
  scanned : found.report.scanned = classes.length
  unchanged : found.report.unchanged = classes.countP fun e => !e.2.hasMarker marker
  oneToOne : found.table.OneToOne
  entries : found.table.withSources.Perm
    ((classes.filter fun e => e.2.hasMarker marker).map (relocationEntry tag))

/-- **What discovery records.** -/
theorem recorded_of_discover {tag marker : String} {input output output' : MemoryStore}
    {classes : List (String × LoadedClass)} {found : Discovery}
    (hclasses : input.HasClasses input.classPaths classes)
    (h : (discover tag marker).Yields input output found output') :
    Recorded tag marker classes found := by
  obtain ⟨htable, hentries⟩ :=
    RelocationTable.OneToOne.empty.enterAll (enterAll_discover hclasses h)
  obtain ⟨paths, afterList, hlist, hsurveying⟩ := yields_bind.mp h
  obtain ⟨rfl, rfl⟩ := yields_listInput.mp hlist
  obtain ⟨s, afterSurvey, hsurvey, hchecking⟩ := yields_bind.mp hsurveying
  obtain ⟨_, afterCheck, -, hwriting⟩ := yields_bind.mp hchecking
  obtain ⟨written, afterWrite, -, hend⟩ := yields_bind.mp hwriting
  obtain ⟨rfl, rfl⟩ := yields_pure.mp hend
  have hrecords := records_of_surveyPaths hclasses (Survey.records_empty marker) hsurvey
  exact ⟨hrecords.scanned, hrecords.unchanged, htable, hentries⟩

end JvmRelocation
