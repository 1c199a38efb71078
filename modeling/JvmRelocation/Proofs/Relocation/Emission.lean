import JvmRelocation.Proofs.Relocation.Survival

/-!
# What a run leaves in the output store

Where every input class is kept at the path of its name, the paths that the phases write are told
apart by names: a relocated class goes to a path of its own, an unmarked class keeps its path, and
neither takes the path of another one. Then every path of the output store has, in the end, exactly
one of three contents: a relocated class, an unmarked class that has been updated, or what was there
before.
-/

namespace JvmRelocation

open StoreProgram

/-- Every class is kept at the path of the name that it declares. -/
def MemoryStore.PlacedByName (s : MemoryStore) : Prop :=
  ∀ path ∈ s.classPaths, ∀ c ∈ s.class? path, path = classPath c.declaredName

instance (s : MemoryStore) : Decidable s.PlacedByName :=
  inferInstanceAs (Decidable (∀ path ∈ s.classPaths, ∀ c ∈ s.class? path,
    path = classPath c.declaredName))

/-- A listed path of a store, with the class that is kept there. -/
def MemoryStore.Keeps (s : MemoryStore) (path : String) (c : LoadedClass) : Prop :=
  path ∈ s.classPaths ∧ s.class? path = some c

/-- The output store in the end has the classes that a run has to emit, and is otherwise what it was
before. -/
structure Emits (tag marker : String) (table : RelocationTable) (input output final : MemoryStore) :
    Prop where
  /-- A marked class is emitted under its new name: renamed by itself, read again, and renamed by the
  table. -/
  relocated : ∀ path c, input.Keeps path c → c.hasMarker marker = true →
    ∃ bytes, final.get? (classPath (relocatedName tag c.declaredName)) = some bytes ∧
      RelocatedCopy tag table c bytes
  /-- An unmarked class is emitted where it is kept, if the table changes it. -/
  updated : ∀ path c, input.Keeps path c → c.hasMarker marker = false →
    ∃ s, c.substitute table.mapper = .ok s ∧
      final.get? path = if s.changed then some s.bytes else output.get? path
  /-- Nothing is emitted where a marked class is kept. -/
  original : ∀ path c, input.Keeps path c → c.hasMarker marker = true →
    final.get? path = output.get? path
  /-- Nothing is emitted anywhere else. -/
  others : ∀ path, (∀ place c, input.Keeps place c →
      path ≠ place ∧ (c.hasMarker marker = true → path ≠ classPath (relocatedName tag c.declaredName))) →
    final.get? path = output.get? path

/-- A class that is kept at the path of its name is not kept where a relocated one goes. -/
theorem Discovered.not_listed_of_written {tag marker : String} {input output copied : MemoryStore}
    {classes : List (String × LoadedClass)} {found : Discovery}
    (h : Discovered tag marker input output classes found copied) (hplaced : input.PlacedByName)
    {path : String} (hpath : path ∈ found.report.written) : path ∉ input.classPaths := by
  intro hlisted
  rw [← h.read.1] at hlisted
  obtain ⟨e', he', rfl⟩ := List.mem_map.mp hlisted
  rw [h.written] at hpath
  obtain ⟨e, he, heq⟩ := List.mem_map.mp hpath
  obtain ⟨he, hmarked⟩ := List.mem_filter.mp he
  have hclass := h.mem_classes.mp he'
  rw [hplaced e'.1 hclass.1 e'.2 hclass.2, classPath_inj] at heq
  exact h.fresh e he hmarked e' he' heq.symm

namespace Relocated

variable {tag marker : String} {input output : MemoryStore} {report : RelocationReport}
  {final : MemoryStore} {classes : List (String × LoadedClass)} {found : Discovery}
  {copied propagatedTo : MemoryStore}

/-- Where discovery writes nothing, a path has in the end what propagation has written, or what was
there before. -/
theorem get?_of_not_written
    (h : Relocated tag marker input output report final classes found copied propagatedTo)
    {path : String} (hpath : path ∉ found.report.written) : final.get? path =
      ((if path ∈ input.classPaths then propagated input found.table path else none).or
        (output.get? path)) := by
  rw [h.get?_of_not_fixedUp hpath, h.before_fixUp, h.discovered.others path hpath]

theorem not_written_of_placed
    (h : Relocated tag marker input output report final classes found copied propagatedTo)
    (hplaced : input.PlacedByName) {path : String} {c : LoadedClass} (hc : input.Keeps path c) :
    path ∉ found.report.written :=
  fun hpath => h.discovered.not_listed_of_written hplaced hpath hc.1

theorem not_collides_of_placed
    (h : Relocated tag marker input output report final classes found copied propagatedTo)
    (hplaced : input.PlacedByName) {path : String} (hpath : path ∈ found.report.written) :
    ¬Collides input found.table path := by
  rintro ⟨c, -, hlisted, hclass, -⟩
  exact h.not_written_of_placed hplaced ⟨hlisted, hclass⟩ hpath

theorem emits
    (h : Relocated tag marker input output report final classes found copied propagatedTo)
    (hplaced : input.PlacedByName) : Emits tag marker found.table input output final := by
  constructor
  case relocated =>
    intro path c hc hmarked
    have he := h.discovered.mem_classes.mpr hc
    have hfree := h.not_collides_of_placed hplaced (h.written_iff.mpr ⟨_, he, hmarked, rfl⟩)
    obtain ⟨s, c₁, s', hsub, -, hparse₁, hsub', hfinal⟩ := h.copy_of_not_collides he hmarked hfree
    exact ⟨s'.bytes, hfinal, s, c₁, s', hsub, hparse₁, hsub', rfl⟩
  case updated =>
    intro path c hc hunmarked
    have hnot := (h.discovered.contains_declaredName_eq_false (h.discovered.mem_classes.mpr hc)).mpr
      hunmarked
    obtain ⟨s, hsub⟩ := substitute_of_propagate h.propagate hc.1 hc.2 hnot
    refine ⟨s, hsub, ?_⟩
    rw [h.get?_of_not_written (h.not_written_of_placed hplaced hc), if_pos hc.1,
      propagated_of_substitute hc.2 hnot hsub]
    cases s.changed <;> rfl
  case original =>
    intro path c hc hmarked
    have hcontains := (h.discovered.contains_declaredName (h.discovered.mem_classes.mpr hc)).mpr hmarked
    rw [h.get?_of_not_written (h.not_written_of_placed hplaced hc), if_pos hc.1,
      propagated_of_contained hc.2 hcontains, Option.none_or]
  case others =>
    intro path hpath
    have hwritten : path ∉ found.report.written := by
      intro hmem
      obtain ⟨e, he, hmarked, heq⟩ := h.written_iff.mp hmem
      exact (hpath e.1 e.2 (h.discovered.mem_classes.mp he)).2 hmarked heq.symm
    have hlisted : path ∉ input.classPaths := by
      intro hmem
      -- every listed path has a class, since discovery has read it
      rw [← h.discovered.read.1] at hmem
      obtain ⟨e, he, rfl⟩ := List.mem_map.mp hmem
      exact (hpath e.1 e.2 (h.discovered.mem_classes.mp he)).1 rfl
    rw [h.get?_of_not_written hwritten, if_neg hlisted, Option.none_or]

end Relocated

/-- **A class is emitted exactly when it must be.** -/
theorem relocate_emits_exactly {tag marker : String} {input output final : MemoryStore}
    {report : RelocationReport} (h : (relocate tag marker).Yields input output report final)
    (hplaced : input.PlacedByName) : Emits tag marker report.table input output final := by
  obtain ⟨classes, found, copied, propagatedTo, hrun⟩ := yields_relocate h
  rw [hrun.table]
  exact hrun.emits hplaced

theorem relocate_emits_exactly_surveySample :
    (surveySample "q/U.class").PlacedByName ∧ ∃ report final,
      (relocate "v1" defaultMarker).Yields (surveySample "q/U.class") .empty report final ∧
      report.table.get? "p/A" = some "v1/p/A" ∧ report.propagation.written = ["q/U.class"] ∧
      Emits "v1" defaultMarker report.table (surveySample "q/U.class") .empty final := by
  have hplaced : (surveySample "q/U.class").PlacedByName := by decide +kernel
  have hcheck : (((relocate "v1" defaultMarker).on (surveySample "q/U.class") .empty).1.toOption.any
      fun report => report.table.get? "p/A" = some "v1/p/A" &&
        report.propagation.written = ["q/U.class"]) = true := by
    decide +kernel
  obtain ⟨report, hyields, hcheck⟩ := exists_yields_of_any hcheck
  simp only [Bool.and_eq_true, decide_eq_true_eq] at hcheck
  exact ⟨hplaced, report, _, hyields, hcheck.1, hcheck.2, relocate_emits_exactly hyields hplaced⟩

end JvmRelocation
