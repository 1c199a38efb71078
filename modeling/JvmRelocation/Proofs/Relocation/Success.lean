import JvmRelocation.Proofs.Relocation.Emission

/-!
# When a run succeeds

Noting a class fails only if its name is declared already: the table never refuses an entry by
itself. So discovery succeeds exactly if every input class is read, no name is declared twice or
taken, and the marked classes can be renamed. Where every class is kept at the path of its name,
fixup reads what discovery has written, so what is left to ask is that every class can be updated.
-/

namespace JvmRelocation

open StoreProgram

variable {tag marker : String} {input : MemoryStore} {classes : List (String × LoadedClass)}

/-- The classes at the paths of a store are determined by it. -/
theorem MemoryStore.HasClasses.unique {s : MemoryStore} {paths : List String}
    {classes classes' : List (String × LoadedClass)} (h : s.HasClasses paths classes)
    (h' : s.HasClasses paths classes') : classes = classes' := by
  obtain ⟨rfl, hclasses⟩ := h
  obtain ⟨hpaths, hclasses'⟩ := h'
  induction classes generalizing classes' with
  | nil => exact (List.map_eq_nil_iff.mp hpaths).symm
  | cons e classes ih =>
    obtain ⟨e', rest, rfl, hfirst, hrest⟩ := List.map_eq_cons_iff.mp hpaths
    obtain ⟨he, hmore⟩ := List.forall_mem_cons.mp hclasses
    obtain ⟨he', hmore'⟩ := List.forall_mem_cons.mp hclasses'
    have hclass : e.2 = e'.2 := by
      rw [hfirst] at he'
      exact Option.some.inj (he.symm.trans he')
    rw [ih hmore hrest hmore', Prod.ext hfirst.symm hclass]

/-! ## Discovery -/

/-- A class with a new name can be noted. -/
theorem Survey.Describes.exists_note {s : Survey} (h : s.Describes tag marker classes) (path : String)
    {c : LoadedClass} (hfresh : ¬∃ e ∈ classes, e.2.declaredName = c.declaredName) :
    ∃ s', s.note tag marker path c = .ok s' := by
  have hnew : s.declared.get? c.declaredName = none := by
    rw [← h.declared] at hfresh
    simpa [Std.TreeMap.get?_eq_getElem?] using hfresh
  rw [Survey.note, hnew]
  dsimp only
  by_cases hmarked : c.hasMarker marker = true
  · -- the table holds neither the old name nor the new one, since it holds declared names only
    have hold : s.table.sources.get? c.declaredName = none := by
      rw [← Option.not_isSome_iff_eq_none]
      intro hsome
      exact hfresh (h.sources _ hsome)
    have hnewName : s.table.oldNames.get? (relocatedName tag c.declaredName) = none := by
      rw [← Option.not_isSome_iff_eq_none]
      intro hsome
      obtain ⟨e, he, heq⟩ := h.oldNames _ hsome
      exact hfresh ⟨e, he, relocatedName_inj.mp heq⟩
    rw [if_pos hmarked, RelocationTable.insert_eq_ok.mpr ⟨hold, hnewName, rfl⟩]
    exact ⟨_, rfl⟩
  · rw [if_neg hmarked]
    exact ⟨_, rfl⟩

/-- Classes with new names can be surveyed. -/
theorem exists_yields_surveyPaths (output : MemoryStore) {paths : List String}
    {more : List (String × LoadedClass)} {s : Survey} (hread : input.HasClasses paths more)
    (h : s.Describes tag marker classes)
    (hdistinct : ((classes ++ more).map (·.2.declaredName)).Nodup) :
    ∃ s', (surveyPaths tag marker s paths).Yields input output s' output ∧
      s'.Describes tag marker (classes ++ more) := by
  obtain ⟨rfl, hclasses⟩ := hread
  induction more generalizing s classes with
  | nil =>
    rw [List.append_nil]
    exact ⟨s, yields_pure.mpr ⟨rfl, rfl⟩, h⟩
  | cons e more ih =>
    obtain ⟨hclass, hmore⟩ := List.forall_mem_cons.mp hclasses
    have hsplit : classes ++ e :: more = classes ++ [(e.1, e.2)] ++ more := by simp
    have hfresh : ¬∃ e' ∈ classes, e'.2.declaredName = e.2.declaredName := by
      rintro ⟨e', he', heq⟩
      rw [List.map_append, List.nodup_append] at hdistinct
      exact hdistinct.2.2 _ (List.mem_map_of_mem he') _ (by simp) heq
    obtain ⟨noted, hnote⟩ := h.exists_note e.1 hfresh
    rw [hsplit] at hdistinct ⊢
    obtain ⟨s', hrest, hdescribes⟩ := ih (h.note hnote) hdistinct hmore
    refine ⟨s', yields_bind.mpr ⟨e.2, output, yields_readClass.mpr ⟨hclass, rfl⟩, ?_⟩, hdescribes⟩
    exact yields_bind.mpr ⟨noted, output, yields_ofExcept.mpr ⟨hnote, rfl⟩, hrest⟩

/-- Marked classes that can be renamed can be written. -/
theorem exists_yields_writeMarked (input output : MemoryStore) {marked : List MarkedClass}
    (written : List String)
    (h : ∀ c ∈ marked, ∃ s, c.file.substitute (.single c.file.declaredName c.relocated) = .ok s) :
    ∃ paths output', (writeMarked written marked).Yields input output paths output' := by
  induction marked generalizing written output with
  | nil => exact ⟨_, _, yields_pure.mpr ⟨rfl, rfl⟩⟩
  | cons c marked ih =>
    obtain ⟨⟨s, hsub⟩, hmarked⟩ := List.forall_mem_cons.mp h
    obtain ⟨paths, output', hrest⟩ := ih (output.insert (classPath c.relocated) s.bytes)
      (classPath c.relocated :: written) hmarked
    refine ⟨paths, output', yields_bind.mpr ⟨s, output, yields_renameClass.mpr ⟨hsub, rfl⟩, ?_⟩⟩
    exact yields_bind.mpr ⟨(), _, yields_writeTo.mpr rfl, hrest⟩

/-- The input classes can all be discovered: they can be told apart before and after, and the marked
ones can be renamed. -/
structure Discoverable (tag marker : String) (classes : List (String × LoadedClass)) : Prop where
  distinct : (classes.map (·.2.declaredName)).Nodup
  fresh : ∀ e ∈ classes, e.2.hasMarker marker = true →
    ∀ e' ∈ classes, e'.2.declaredName ≠ relocatedName tag e.2.declaredName
  renamable : ∀ e ∈ classes, e.2.hasMarker marker = true →
    ∃ s, e.2.substitute (.single e.2.declaredName (relocatedName tag e.2.declaredName)) = .ok s

theorem exists_yields_discover (output : MemoryStore)
    (hread : input.HasClasses input.classPaths classes) (h : Discoverable tag marker classes) :
    ∃ found copied, (discover tag marker).Yields input output found copied ∧
      Discovered tag marker input output classes found copied := by
  obtain ⟨s, hsurvey, hdescribes⟩ := exists_yields_surveyPaths output hread
    (Survey.describes_empty tag marker) h.distinct
  rw [List.nil_append] at hdescribes
  -- the classes to write are the marked ones among those that have been read
  have hmarked (P : MarkedClass → Prop)
      (hP : ∀ e ∈ classes, e.2.hasMarker marker = true →
        P ⟨e.1, e.2, relocatedName tag e.2.declaredName⟩) : ∀ c ∈ s.marked.reverse, P c := by
    intro c hc
    rw [hdescribes.marked] at hc
    obtain ⟨e, he, rfl⟩ := List.mem_map.mp hc
    exact hP e (List.mem_filter.mp he).1 (List.mem_filter.mp he).2
  have hfree : s.checkClashes s.marked.reverse = .ok () := by
    refine checkClashes_eq_ok.mpr (hmarked _ fun e he hmark => ?_)
    rw [Bool.eq_false_iff, ne_eq, hdescribes.declared]
    rintro ⟨e', he', heq⟩
    exact h.fresh e he hmark e' he' heq
  obtain ⟨paths, copied, hwrite⟩ := exists_yields_writeMarked input output []
    (hmarked _ h.renamable)
  have hyields : (discover tag marker).Yields input output
      ⟨s.table, ⟨.discovery, s.scanned, paths, s.unchanged⟩⟩ copied := by
    refine yields_bind.mpr ⟨_, output, yields_listInput.mpr ⟨rfl, rfl⟩, ?_⟩
    refine yields_bind.mpr ⟨s, output, hsurvey, ?_⟩
    refine yields_bind.mpr ⟨(), output, yields_ofExcept.mpr ⟨hfree, rfl⟩, ?_⟩
    exact yields_bind.mpr ⟨paths, copied, hwrite, yields_pure.mpr ⟨rfl, rfl⟩⟩
  obtain ⟨classes', hfound⟩ := yields_discover hyields
  obtain rfl := hread.unique hfound.read
  exact ⟨_, copied, hyields, hfound⟩

/-- **When discovery succeeds.** It does exactly if there is a class at every listed path and these
classes can all be discovered. -/
theorem discover_succeeds_iff {output : MemoryStore} :
    (∃ found copied, (discover tag marker).Yields input output found copied) ↔
      ∃ classes, input.HasClasses input.classPaths classes ∧ Discoverable tag marker classes := by
  constructor
  · rintro ⟨found, copied, h⟩
    obtain ⟨classes, hfound⟩ := yields_discover h
    refine ⟨classes, hfound.read, hfound.distinct, hfound.fresh, fun e he hmarked => ?_⟩
    obtain ⟨s, hsub, -⟩ := hfound.copied e he hmarked
    exact ⟨s, hsub⟩
  · rintro ⟨classes, hread, h⟩
    obtain ⟨found, copied, hyields, -⟩ := exists_yields_discover output hread h
    exact ⟨found, copied, hyields⟩

/-! ## Propagation and fixup -/

/-- A class that can be renamed can be updated. -/
theorem exists_yields_updateClass (input output : MemoryStore) {m : NameMapper} {c : LoadedClass}
    {s : Substitution} (h : c.substitute m = .ok s) (report : PhaseReport) (path : String) :
    ∃ report', (updateClass m report path c).Yields input output report'
      (if s.changed then output.insert path s.bytes else output) := by
  cases hchanged : s.changed with
  | false =>
    refine ⟨{ report with scanned := report.scanned + 1, unchanged := report.unchanged + 1 }, ?_⟩
    refine yields_bind.mpr ⟨s, output, yields_renameClass.mpr ⟨h, rfl⟩, ?_⟩
    rw [hchanged]
    exact yields_pure.mpr ⟨rfl, rfl⟩
  | true =>
    refine ⟨{ report with scanned := report.scanned + 1, written := path :: report.written }, ?_⟩
    refine yields_bind.mpr ⟨s, output, yields_renameClass.mpr ⟨h, rfl⟩, ?_⟩
    rw [hchanged]
    exact yields_bind.mpr ⟨(), _, yields_writeTo.mpr rfl, yields_pure.mpr ⟨rfl, rfl⟩⟩

/-- Propagation gets through paths if every unmarked class there can be renamed. -/
theorem exists_yields_propagatePaths (output : MemoryStore) {table : RelocationTable}
    {paths : List String} (report : PhaseReport)
    (h : ∀ path ∈ paths, ∃ c, input.class? path = some c ∧
      (table.contains c.declaredName = false → ∃ s, c.substitute table.mapper = .ok s)) :
    ∃ report' output', (propagatePaths table report paths).Yields input output report' output' := by
  induction paths generalizing report output with
  | nil => exact ⟨_, _, yields_pure.mpr ⟨rfl, rfl⟩⟩
  | cons path paths ih =>
    obtain ⟨⟨c, hclass, hunmarked⟩, hpaths⟩ := List.forall_mem_cons.mp h
    by_cases hmarked : table.contains c.declaredName = true
    · obtain ⟨report', output', hrest⟩ := ih output report hpaths
      refine ⟨report', output', yields_bind.mpr ⟨c, output, yields_readClass.mpr ⟨hclass, rfl⟩, ?_⟩⟩
      rwa [if_pos hmarked]
    · obtain ⟨s, hsub⟩ := hunmarked (Bool.eq_false_iff.mpr hmarked)
      obtain ⟨updated, hupdate⟩ :=
        exists_yields_updateClass input output hsub report path
      obtain ⟨report', output', hrest⟩ := ih _ updated hpaths
      refine ⟨report', output', yields_bind.mpr ⟨c, output, yields_readClass.mpr ⟨hclass, rfl⟩, ?_⟩⟩
      rw [if_neg hmarked]
      exact yields_bind.mpr ⟨updated, _, hupdate, hrest⟩

/-- Fixup gets through paths if every class that it finds there can be renamed. -/
theorem exists_yields_fixUpPaths (input output : MemoryStore) {table : RelocationTable}
    {paths : List String} (hdistinct : paths.Nodup) (report : PhaseReport)
    (h : ∀ path ∈ paths, ∃ c s, output.class? path = some c ∧ c.substitute table.mapper = .ok s) :
    ∃ report' output', (fixUpPaths table report paths).Yields input output report' output' := by
  induction paths generalizing report output with
  | nil => exact ⟨_, _, yields_pure.mpr ⟨rfl, rfl⟩⟩
  | cons path paths ih =>
    rw [List.nodup_cons] at hdistinct
    obtain ⟨⟨c, s, hclass, hsub⟩, hpaths⟩ := List.forall_mem_cons.mp h
    obtain ⟨updated, hupdate⟩ :=
      exists_yields_updateClass input output hsub report path
    -- the other paths are read as they were before
    have hothers (path' : String) (hpath' : path' ∈ paths) :
        (if s.changed then output.insert path s.bytes else output).class? path' =
          output.class? path' := by
      have hne : path ≠ path' := fun heq => hdistinct.1 (heq ▸ hpath')
      refine class?_congr ?_
      split
      · rw [MemoryStore.get?_insert, if_neg hne]
      · rfl
    obtain ⟨report', output', hrest⟩ := ih _ hdistinct.2 updated fun path' hpath' => by
      rw [hothers path' hpath']
      exact hpaths path' hpath'
    refine ⟨report', output', yields_bind.mpr ⟨c, output, yields_readClass.mpr ⟨hclass, rfl⟩, ?_⟩⟩
    exact yields_bind.mpr ⟨updated, _, hupdate, hrest⟩

/-! ## The whole run -/

/-- A class can be updated: an unmarked one can be renamed by the table, and a marked one can be
renamed by itself, read again, and renamed by the table. -/
structure Updatable (tag marker : String) (table : RelocationTable) (c : LoadedClass) : Prop where
  unmarked : c.hasMarker marker = false → ∃ s, c.substitute table.mapper = .ok s
  marked : c.hasMarker marker = true → ∃ bytes, RelocatedCopy tag table c bytes

section

variable {output : MemoryStore} {found : Discovery} {copied : MemoryStore}

theorem exists_yields_propagate (h : Discovered tag marker input output classes found copied)
    (hupdatable : ∀ e ∈ classes, Updatable tag marker found.table e.2) :
    ∃ report propagatedTo, (propagate found.table).Yields input copied report propagatedTo := by
  have hpaths : ∀ path ∈ input.classPaths, ∃ c, input.class? path = some c ∧
      (found.table.contains c.declaredName = false → ∃ s, c.substitute found.table.mapper = .ok s) := by
    intro path hpath
    rw [← h.read.1] at hpath
    obtain ⟨e, he, rfl⟩ := List.mem_map.mp hpath
    refine ⟨e.2, h.read.2 e he, fun hnot => (hupdatable e he).unmarked ?_⟩
    exact (h.contains_declaredName_eq_false he).mp hnot
  obtain ⟨report, propagatedTo, hrest⟩ :=
    exists_yields_propagatePaths copied (.start .propagation) hpaths
  refine ⟨report.finish, propagatedTo, ?_⟩
  refine yields_bind.mpr ⟨_, copied, yields_listInput.mpr ⟨rfl, rfl⟩, ?_⟩
  exact yields_bind.mpr ⟨report, propagatedTo, hrest, yields_pure.mpr ⟨rfl, rfl⟩⟩

/-- Propagation leaves what discovery has written alone, so fixup can update it. -/
theorem exists_yields_fixUp (h : Discovered tag marker input output classes found copied)
    (hplaced : input.PlacedByName) {report : PhaseReport} {propagatedTo : MemoryStore}
    (hpropagate : (propagate found.table).Yields input copied report propagatedTo)
    (hupdatable : ∀ e ∈ classes, Updatable tag marker found.table e.2) :
    ∃ fixup final, (fixUp found.table found.report.written).Yields input propagatedTo fixup final := by
  have hpaths : ∀ path ∈ found.report.written, ∃ c s, propagatedTo.class? path = some c ∧
      c.substitute found.table.mapper = .ok s := by
    intro path hpath
    have hunlisted : path ∉ input.classPaths := h.not_listed_of_written hplaced hpath
    rw [h.written] at hpath
    obtain ⟨e, he, rfl⟩ := List.mem_map.mp hpath
    obtain ⟨he, hmarked⟩ := List.mem_filter.mp he
    obtain ⟨s, hsub, hcopied⟩ := h.copied e he hmarked
    obtain ⟨-, s₁, c₁, s', hsub₁, hparse, hsub', -⟩ := (hupdatable e he).marked hmarked
    obtain rfl : s = s₁ := Except.ok.inj (hsub.symm.trans hsub₁)
    refine ⟨c₁, s', MemoryStore.class?_eq_some.mpr ⟨s.bytes, ?_, hparse⟩, hsub'⟩
    rw [(yields_propagate hpropagate).2, if_neg hunlisted, Option.none_or, hcopied]
  obtain ⟨fixup, final, hrest⟩ :=
    exists_yields_fixUpPaths input propagatedTo h.written_nodup (.start .fixup) hpaths
  exact ⟨fixup.finish, final,
    yields_bind.mpr ⟨fixup, final, hrest, yields_pure.mpr ⟨rfl, rfl⟩⟩⟩

/-- **When a run succeeds.** Where every class is kept at the path of its name, a run gets from its
first phase to its end exactly if every input class can be updated. -/
theorem relocate_succeeds_iff (hparameters : validateParameters tag marker = .ok ())
    (hplaced : input.PlacedByName) (h : Discovered tag marker input output classes found copied)
    (hdiscover : (discover tag marker).Yields input output found copied) :
    (∃ report final, (relocate tag marker).Yields input output report final) ↔
      ∀ e ∈ classes, Updatable tag marker found.table e.2 := by
  constructor
  · rintro ⟨report, final, hyields⟩ e he
    obtain ⟨classes', found', copied', propagatedTo, hrun⟩ := yields_relocate hyields
    obtain ⟨rfl, rfl⟩ := hdiscover.unique hrun.discover
    have hkeeps : input.Keeps e.1 e.2 := h.mem_classes.mp he
    have hemits := hrun.emits hplaced
    constructor
    · intro hunmarked
      obtain ⟨s, hsub, -⟩ := hemits.updated _ _ hkeeps hunmarked
      exact ⟨s, hsub⟩
    · intro hmarked
      obtain ⟨bytes, -, hcopy⟩ := hemits.relocated _ _ hkeeps hmarked
      exact ⟨bytes, hcopy⟩
  · intro hupdatable
    obtain ⟨propagation, propagatedTo, hpropagate⟩ := exists_yields_propagate h hupdatable
    obtain ⟨fixup, final, hfixUp⟩ := exists_yields_fixUp h hplaced hpropagate hupdatable
    refine ⟨⟨tag, marker, found.table, found.report, propagation, fixup⟩, final, ?_⟩
    refine yields_bind.mpr ⟨(), output, yields_ofExcept.mpr ⟨hparameters, rfl⟩, ?_⟩
    refine yields_bind.mpr ⟨found, copied, hdiscover, ?_⟩
    refine yields_bind.mpr ⟨propagation, propagatedTo, hpropagate, ?_⟩
    exact yields_bind.mpr ⟨fixup, final, hfixUp, yields_pure.mpr ⟨rfl, rfl⟩⟩

end

end JvmRelocation
