import JvmRelocation.Proofs.ClassFile.Substitution
import JvmRelocation.Proofs.Relocation.Discovery
import JvmRelocation.Proofs.Relocation.Naming

/-!
# What propagation and fixup write

Propagation decides for every input path by itself what to write there. Fixup reads the output store
it works on, but no path twice, so it too decides for every path by itself: a relocated class is
what it was at the beginning of the phase, renamed.
-/

namespace JvmRelocation

open StoreProgram

/-! ## One class -/

/-- A renaming without effect gives the bytes that were read. -/
theorem LoadedClass.bytes_of_unchanged {c : LoadedClass} {m : NameMapper} {s : Substitution}
    (h : c.substitute m = .ok s) (hchanged : s.changed = false) : s.bytes = c.source := by
  obtain ⟨plan, -, hrest⟩ := exceptBind_eq_ok.mp h
  split at hrest
  case isTrue =>
    obtain rfl : _ = s := by simpa [pure, Except.pure] using hrest
    rfl
  case isFalse =>
    obtain ⟨c', -, hend⟩ := exceptBind_eq_ok.mp hrest
    obtain rfl : _ = s := by simpa [pure, Except.pure] using hend
    simpa using hchanged

theorem MemoryStore.get?_of_class? {s : MemoryStore} {path : String} {c : LoadedClass}
    (h : s.class? path = some c) : s.get? path = some c.source := by
  obtain ⟨bytes, hget, hparse⟩ := class?_eq_some.mp h
  rw [hget, (LoadedClass.parse_ok hparse).1]

/-- What updating a class at a path does to the output store and to the report. -/
theorem yields_updateClass {m : NameMapper} {report report' : PhaseReport} {path : String}
    {c : LoadedClass} {input output output' : MemoryStore}
    (h : (updateClass m report path c).Yields input output report' output') :
    ∃ s, c.substitute m = .ok s ∧
      output' = (if s.changed then output.insert path s.bytes else output) ∧
      report'.written = (if s.changed then path :: report.written else report.written) ∧
      report'.phase = report.phase := by
  obtain ⟨s, afterRename, hrename, hwriting⟩ := yields_bind.mp h
  obtain ⟨hsub, rfl⟩ := yields_renameClass.mp hrename
  refine ⟨s, hsub, ?_⟩
  cases hchanged : s.changed with
  | false =>
    rw [hchanged] at hwriting
    obtain ⟨rfl, rfl⟩ := yields_pure.mp hwriting
    exact ⟨rfl, rfl, rfl⟩
  | true =>
    rw [hchanged] at hwriting
    obtain ⟨_, afterWrite, hwrite, hend⟩ := yields_bind.mp hwriting
    obtain rfl := yields_writeTo.mp hwrite
    obtain ⟨rfl, rfl⟩ := yields_pure.mp hend
    exact ⟨rfl, rfl, rfl⟩

/-! ## Propagation -/

/-- What propagation writes at a path, if it writes there. -/
def propagated (input : MemoryStore) (table : RelocationTable) (path : String) : Option Bytes :=
  match input.class? path with
  | none => none
  | some c =>
    if table.contains c.declaredName then none
    else match c.substitute table.mapper with
      | .ok s => if s.changed then some s.bytes else none
      | .error _ => none

theorem propagated_of_contained {input : MemoryStore} {table : RelocationTable} {path : String}
    {c : LoadedClass} (hclass : input.class? path = some c)
    (h : table.contains c.declaredName = true) : propagated input table path = none := by
  simp only [propagated, hclass, h, if_true]

theorem propagated_of_substitute {input : MemoryStore} {table : RelocationTable} {path : String}
    {c : LoadedClass} {s : Substitution} (hclass : input.class? path = some c)
    (h : table.contains c.declaredName = false) (hsub : c.substitute table.mapper = .ok s) :
    propagated input table path = if s.changed then some s.bytes else none := by
  simp only [propagated, hclass, h, hsub, Bool.false_eq_true, if_false]

/-- Whatever is propagated is an unmarked class, renamed. -/
theorem propagated_eq_some {input : MemoryStore} {table : RelocationTable} {path : String}
    {bytes : Bytes} (h : propagated input table path = some bytes) :
    ∃ c s, input.class? path = some c ∧ table.contains c.declaredName = false ∧
      c.substitute table.mapper = .ok s ∧ s.changed = true ∧ s.bytes = bytes := by
  rw [propagated] at h
  split at h
  case h_1 => cases h
  case h_2 c hclass =>
    split at h
    case isTrue => cases h
    case isFalse hunmarked =>
      split at h
      case h_2 => cases h
      case h_1 s hsub =>
        split at h
        case isFalse => cases h
        case isTrue hchanged =>
          exact ⟨c, s, hclass, by simpa using hunmarked, hsub, hchanged, Option.some.inj h⟩

theorem yields_propagatePaths {table : RelocationTable} {paths : List String}
    {report report' : PhaseReport} {input output output' : MemoryStore}
    (h : (propagatePaths table report paths).Yields input output report' output') :
    report'.written =
        (paths.filter fun path => (propagated input table path).isSome).reverse ++ report.written ∧
      ∀ path, output'.get? path =
        ((if path ∈ paths then propagated input table path else none).or (output.get? path)) := by
  induction paths generalizing report output with
  | nil =>
    obtain ⟨rfl, rfl⟩ := yields_pure.mp h
    exact ⟨rfl, fun path => by simp⟩
  | cons first paths ih =>
    obtain ⟨c, afterRead, hread, hupdating⟩ := yields_bind.mp h
    obtain ⟨hclass, rfl⟩ := yields_readClass.mp hread
    replace hclass : input.class? first = some c := hclass
    split at hupdating
    case isTrue hmarked =>
      -- a marked class is left to discovery and fixup
      have hnone := propagated_of_contained hclass hmarked
      obtain ⟨hwritten, hstore⟩ := ih hupdating
      refine ⟨by simp [hwritten, hnone], fun path => ?_⟩
      rw [hstore]
      by_cases heq : path = first
      · simp [heq, hnone]
      · simp [heq]
    case isFalse hmarked =>
      obtain ⟨reportThen, afterUpdate, hupdate, hrest⟩ := yields_bind.mp hupdating
      obtain ⟨s, hsub, rfl, hreport, -⟩ := yields_updateClass hupdate
      have hsome := propagated_of_substitute hclass (by simpa using hmarked) hsub
      obtain ⟨hwritten, hstore⟩ := ih hrest
      cases hchanged : s.changed with
      | false =>
        simp only [hchanged, Bool.false_eq_true, if_false] at hsome hreport hstore
        refine ⟨by simp [hwritten, hsome, hreport], fun path => ?_⟩
        rw [hstore]
        by_cases heq : path = first
        · simp [heq, hsome]
        · simp [heq]
      | true =>
        simp only [hchanged, if_true] at hsome hreport hstore
        refine ⟨by simp [hwritten, hsome, hreport], fun path => ?_⟩
        rw [hstore, MemoryStore.get?_insert]
        -- a path that comes again is written again with the same bytes, since only the input is read
        by_cases heq : path = first
        · by_cases hlater : first ∈ paths <;> simp [heq, hsome, hlater]
        · simp [heq, Ne.symm heq]

/-- **What propagation does.** -/
theorem yields_propagate {table : RelocationTable} {report : PhaseReport}
    {input output output' : MemoryStore}
    (h : (propagate table).Yields input output report output') :
    report.written = input.classPaths.filter (fun path => (propagated input table path).isSome) ∧
      ∀ path, output'.get? path =
        ((if path ∈ input.classPaths then propagated input table path else none).or
          (output.get? path)) := by
  obtain ⟨paths, afterList, hlist, hupdating⟩ := yields_bind.mp h
  obtain ⟨rfl, rfl⟩ := yields_listInput.mp hlist
  obtain ⟨reportThen, afterUpdates, hupdates, hend⟩ := yields_bind.mp hupdating
  obtain ⟨rfl, rfl⟩ := yields_pure.mp hend
  obtain ⟨hwritten, hstore⟩ := yields_propagatePaths hupdates
  refine ⟨?_, hstore⟩
  simp [PhaseReport.finish, hwritten, PhaseReport.start]

/-- Every unmarked class that propagation reads can be renamed. -/
theorem substitute_of_propagatePaths {table : RelocationTable} {paths : List String}
    {report report' : PhaseReport} {input output output' : MemoryStore}
    (h : (propagatePaths table report paths).Yields input output report' output') :
    ∀ path ∈ paths, ∀ c, input.class? path = some c → table.contains c.declaredName = false →
      ∃ s, c.substitute table.mapper = .ok s := by
  induction paths generalizing report output with
  | nil => simp
  | cons first paths ih =>
    obtain ⟨c, afterRead, hread, hupdating⟩ := yields_bind.mp h
    obtain ⟨hclass, rfl⟩ := yields_readClass.mp hread
    replace hclass : input.class? first = some c := hclass
    have hfirst (c' : LoadedClass) (hc' : input.class? first = some c') : c = c' :=
      Option.some.inj (hclass.symm.trans hc')
    split at hupdating
    case isTrue hmarked =>
      refine List.forall_mem_cons.mpr ⟨fun c' hc' hunmarked => ?_, ih hupdating⟩
      rw [← hfirst c' hc', hmarked] at hunmarked
      cases hunmarked
    case isFalse =>
      obtain ⟨reportThen, afterUpdate, hupdate, hrest⟩ := yields_bind.mp hupdating
      obtain ⟨s, hsub, -⟩ := yields_updateClass hupdate
      refine List.forall_mem_cons.mpr ⟨fun c' hc' _ => ⟨s, ?_⟩, ih hrest⟩
      rw [← hfirst c' hc', hsub]

theorem substitute_of_propagate {table : RelocationTable} {report : PhaseReport}
    {input output output' : MemoryStore}
    (h : (propagate table).Yields input output report output') {path : String} {c : LoadedClass}
    (hpath : path ∈ input.classPaths) (hclass : input.class? path = some c)
    (hunmarked : table.contains c.declaredName = false) :
    ∃ s, c.substitute table.mapper = .ok s := by
  obtain ⟨paths, afterList, hlist, hupdating⟩ := yields_bind.mp h
  obtain ⟨rfl, rfl⟩ := yields_listInput.mp hlist
  obtain ⟨reportThen, afterUpdates, hupdates, -⟩ := yields_bind.mp hupdating
  exact substitute_of_propagatePaths hupdates path hpath c hclass hunmarked

/-! ## Fixup -/

/-- A relocated class is what it was before, renamed. -/
def FixedUp (table : RelocationTable) (before after : MemoryStore) (path : String) : Prop :=
  ∃ c s, before.class? path = some c ∧ c.substitute table.mapper = .ok s ∧
    after.get? path = some s.bytes

theorem class?_congr {s s' : MemoryStore} {path : String} (h : s.get? path = s'.get? path) :
    s.class? path = s'.class? path := by
  rw [MemoryStore.class?, MemoryStore.class?, h]

theorem yields_fixUpPaths {table : RelocationTable} {paths : List String}
    (hdistinct : paths.Nodup) {report report' : PhaseReport} {input output output' : MemoryStore}
    (h : (fixUpPaths table report paths).Yields input output report' output') :
    (∀ path ∈ paths, FixedUp table output output' path) ∧
      (∀ path ∉ paths, output'.get? path = output.get? path) ∧
      ∀ path ∈ report'.written, path ∈ report.written ∨ path ∈ paths := by
  induction paths generalizing report output with
  | nil =>
    obtain ⟨rfl, rfl⟩ := yields_pure.mp h
    exact ⟨by simp, fun _ _ => rfl, fun _ hpath => .inl hpath⟩
  | cons first paths ih =>
    rw [List.nodup_cons] at hdistinct
    obtain ⟨c, afterRead, hread, hupdating⟩ := yields_bind.mp h
    obtain ⟨hclass, rfl⟩ := yields_readClass.mp hread
    replace hclass : afterRead.class? first = some c := hclass
    obtain ⟨reportThen, afterUpdate, hupdate, hrest⟩ := yields_bind.mp hupdating
    obtain ⟨s, hsub, hstore, hreport, -⟩ := yields_updateClass hupdate
    -- fixup reads what it writes, but each path once: the other paths are read as they were before
    have hothers (path) (hne : path ≠ first) : afterUpdate.get? path = afterRead.get? path := by
      rw [hstore]
      split
      · rw [MemoryStore.get?_insert, if_neg hne.symm]
      · rfl
    have hfirst : afterUpdate.get? first = some s.bytes := by
      rw [hstore]
      split
      case isTrue => rw [MemoryStore.get?_insert, if_pos rfl]
      -- nothing is written, and what is there is the unchanged class
      case isFalse hchanged =>
        rw [MemoryStore.get?_of_class? hclass,
          LoadedClass.bytes_of_unchanged hsub (by simpa using hchanged)]
    obtain ⟨hfixed, hkept, hwritten⟩ := ih hdistinct.2 hrest
    refine ⟨List.forall_mem_cons.mpr ⟨⟨c, s, hclass, hsub, ?_⟩, fun path hpath => ?_⟩, ?_, ?_⟩
    · rw [hkept first hdistinct.1, hfirst]
    · have hne : path ≠ first := fun heq => hdistinct.1 (heq ▸ hpath)
      obtain ⟨c', s', hclass', hsub', hget⟩ := hfixed path hpath
      exact ⟨c', s', class?_congr (hothers path hne) ▸ hclass', hsub', hget⟩
    · intro path hpath
      rw [List.mem_cons, not_or] at hpath
      rw [hkept path hpath.2, hothers path hpath.1]
    · intro path hpath
      rcases hwritten path hpath with hbefore | hlater
      · rw [hreport] at hbefore
        split at hbefore
        · rcases List.mem_cons.mp hbefore with rfl | hbefore
          · exact .inr List.mem_cons_self
          · exact .inl hbefore
        · exact .inl hbefore
      · exact .inr (List.mem_cons_of_mem _ hlater)

/-- **What fixup does.** -/
theorem yields_fixUp {table : RelocationTable} {paths : List String} (hdistinct : paths.Nodup)
    {report : PhaseReport} {input output output' : MemoryStore}
    (h : (fixUp table paths).Yields input output report output') :
    (∀ path ∈ paths, FixedUp table output output' path) ∧
      (∀ path ∉ paths, output'.get? path = output.get? path) ∧
      ∀ path ∈ report.written, path ∈ paths := by
  obtain ⟨reportThen, afterUpdates, hupdates, hend⟩ := yields_bind.mp h
  obtain ⟨rfl, rfl⟩ := yields_pure.mp hend
  obtain ⟨hfixed, hkept, hwritten⟩ := yields_fixUpPaths hdistinct hupdates
  refine ⟨hfixed, hkept, fun path hpath => ?_⟩
  have hpath' : path ∈ reportThen.written := by simpa [PhaseReport.finish] using hpath
  rcases hwritten path hpath' with hstart | hpaths
  · simp [PhaseReport.start] at hstart
  · exact hpaths

/-! ## The whole run -/

/-- What a run that succeeds has done phase by phase. -/
structure Relocated (tag marker : String) (input output : MemoryStore) (report : RelocationReport)
    (final : MemoryStore) (classes : List (String × LoadedClass)) (found : Discovery)
    (copied propagatedTo : MemoryStore) : Prop where
  tag_valid : tagFault? tag = none
  discovered : Discovered tag marker input output classes found copied
  table : report.table = found.table
  discovery : report.discovery = found.report
  discover : (discover tag marker).Yields input output found copied
  propagate : (propagate found.table).Yields input copied report.propagation propagatedTo
  fixUp : (fixUp found.table found.report.written).Yields input propagatedTo report.fixup final

/-- **What a run does.** -/
theorem yields_relocate {tag marker : String} {input output final : MemoryStore}
    {report : RelocationReport} (h : (relocate tag marker).Yields input output report final) :
    ∃ classes found copied propagatedTo,
      Relocated tag marker input output report final classes found copied propagatedTo := by
  obtain ⟨_, afterCheck, hcheck, hdiscovering⟩ := yields_bind.mp h
  obtain ⟨hvalid, rfl⟩ := yields_ofExcept.mp hcheck
  obtain ⟨found, copied, hdiscover, hpropagating⟩ := yields_bind.mp hdiscovering
  obtain ⟨propagation, propagatedTo, hpropagate, hfixing⟩ := yields_bind.mp hpropagating
  obtain ⟨fixup, fixed, hfixUp, hend⟩ := yields_bind.mp hfixing
  obtain ⟨rfl, rfl⟩ := yields_pure.mp hend
  obtain ⟨htag, -⟩ := exceptSeq_eq_ok.mp hvalid
  obtain ⟨classes, hdiscovered⟩ := yields_discover hdiscover
  exact ⟨classes, found, copied, propagatedTo, refuseFault_eq_ok htag, hdiscovered, rfl, rfl,
    hdiscover, hpropagate, hfixUp⟩

/-! ## The renamings of a run -/

/-- The classes that a run renames, each with its mapper: every input class, marked or not, and the
marked ones again when fixup reads them back. -/
def renamings (tag marker : String) (input output : MemoryStore) : List (LoadedClass × NameMapper) :=
  match (discover tag marker).on input output with
  | (.error _, _) => []
  | (.ok found, copied) =>
    let propagatedTo := ((propagate found.table).on input copied).2
    (input.classPaths.filterMap input.class?).map (fun c =>
        (c, if c.hasMarker marker then .single c.declaredName (relocatedName tag c.declaredName)
          else found.table.mapper)) ++
      (found.report.written.filterMap propagatedTo.class?).map fun c => (c, found.table.mapper)

/-- Every text that a run puts in place of another one fits its length field. -/
def RunFits (tag marker : String) (input output : MemoryStore) : Prop :=
  ∀ e ∈ renamings tag marker input output, e.1.Fits e.2

instance (tag marker : String) (input output : MemoryStore) :
    Decidable (RunFits tag marker input output) :=
  inferInstanceAs (Decidable (∀ e ∈ renamings tag marker input output, e.1.Fits e.2))

namespace Relocated

variable {tag marker : String} {input output : MemoryStore} {report : RelocationReport}
  {final : MemoryStore} {classes : List (String × LoadedClass)} {found : Discovery}
  {copied propagatedTo : MemoryStore}

theorem renamings_eq
    (h : Relocated tag marker input output report final classes found copied propagatedTo) :
    renamings tag marker input output =
      (input.classPaths.filterMap input.class?).map (fun c =>
        (c, if c.hasMarker marker then .single c.declaredName (relocatedName tag c.declaredName)
          else found.table.mapper)) ++
      (found.report.written.filterMap propagatedTo.class?).map fun c => (c, found.table.mapper) := by
  have hdiscover : (JvmRelocation.discover tag marker).on input output = (.ok found, copied) :=
    h.discover
  have hpropagate : (JvmRelocation.propagate found.table).on input copied =
      (.ok report.propagation, propagatedTo) := h.propagate
  rw [renamings, hdiscover]
  simp only [hpropagate]

/-- The renaming of an input class. -/
theorem mem_renamings_of_input
    (h : Relocated tag marker input output report final classes found copied propagatedTo)
    {path : String} {c : LoadedClass} (hc : (path, c) ∈ classes) {m : NameMapper}
    (hm : m = if c.hasMarker marker then .single c.declaredName (relocatedName tag c.declaredName)
      else found.table.mapper) : (c, m) ∈ renamings tag marker input output := by
  obtain ⟨hpath, hclass⟩ := h.discovered.mem_classes.mp hc
  rw [h.renamings_eq, List.mem_append, hm]
  exact .inl (List.mem_map_of_mem (List.mem_filterMap.mpr ⟨path, hpath, hclass⟩))

/-- The renaming of a class that fixup reads. -/
theorem mem_renamings_of_copied
    (h : Relocated tag marker input output report final classes found copied propagatedTo)
    {path : String} {c : LoadedClass} (hpath : path ∈ found.report.written)
    (hclass : propagatedTo.class? path = some c) :
    (c, found.table.mapper) ∈ renamings tag marker input output := by
  rw [h.renamings_eq, List.mem_append]
  exact .inr (List.mem_map_of_mem (List.mem_filterMap.mpr ⟨path, hpath, hclass⟩))

/-- What a renaming of an input class writes fits. -/
theorem fits_input
    (h : Relocated tag marker input output report final classes found copied propagatedTo)
    (hfits : RunFits tag marker input output) {path : String} {c : LoadedClass}
    (hc : (path, c) ∈ classes) {m : NameMapper}
    (hm : m = if c.hasMarker marker then .single c.declaredName (relocatedName tag c.declaredName)
      else found.table.mapper) : c.Fits m :=
  hfits (c, m) (h.mem_renamings_of_input hc hm)

/-- What fixup writes fits. -/
theorem fits_copied
    (h : Relocated tag marker input output report final classes found copied propagatedTo)
    (hfits : RunFits tag marker input output) {path : String} {c : LoadedClass}
    (hpath : path ∈ found.report.written) (hclass : propagatedTo.class? path = some c) :
    c.Fits found.table.mapper :=
  hfits (c, found.table.mapper) (h.mem_renamings_of_copied hpath hclass)

end Relocated

end JvmRelocation
