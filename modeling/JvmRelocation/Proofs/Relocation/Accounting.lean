import JvmRelocation.Proofs.Relocation.SurveyRecords

/-!
# Every class is accounted for

A phase counts each class that it reads, and counts it again where it writes it or leaves it alone. So
the counts of a report add up, phase by phase. That they fit together from one phase to the next rests on
the names of the input classes being distinct: a class is in the table exactly if it is marked, so
propagation looks at the classes that discovery has left alone, and fixup at those that it has
written.
-/

namespace JvmRelocation

open StoreProgram

/-- Every class that a phase has read was either written or left alone. -/
def PhaseReport.Balanced (r : PhaseReport) : Prop :=
  r.scanned = r.written.length + r.unchanged

theorem PhaseReport.balanced_start (phase : Phase) : (start phase).Balanced := rfl

theorem PhaseReport.Balanced.finish {r : PhaseReport} (h : r.Balanced) : r.finish.Balanced := by
  show r.scanned = r.written.reverse.length + r.unchanged
  rw [List.length_reverse]
  exact h

/-! ## Phases that update classes -/

section

variable {table : RelocationTable} {report report' : PhaseReport} {input output output' : MemoryStore}

/-- One class more is read, and is written at its path or left alone. -/
theorem counts_of_updateClass {m : NameMapper} {path : String} {c : LoadedClass}
    (h : (updateClass m report path c).Yields input output report' output')
    (hbalanced : report.Balanced) : report'.scanned = report.scanned + 1 ∧ report'.Balanced ∧
      ∃ more : List String, more.Sublist [path] ∧ report'.written = more ++ report.written := by
  obtain ⟨s, afterRename, -, hwriting⟩ := yields_bind.mp h
  unfold PhaseReport.Balanced at hbalanced ⊢
  cases hchanged : s.changed with
  | false =>
    rw [hchanged] at hwriting
    obtain ⟨rfl, rfl⟩ := yields_pure.mp hwriting
    refine ⟨rfl, ?_, [], List.nil_sublist _, rfl⟩
    dsimp only
    omega
  | true =>
    rw [hchanged] at hwriting
    obtain ⟨_, afterWrite, hwrite, hend⟩ := yields_bind.mp hwriting
    obtain ⟨rfl, rfl⟩ := yields_pure.mp hend
    refine ⟨rfl, ?_, [path], List.Sublist.refl _, rfl⟩
    dsimp only
    rw [List.length_cons]
    omega

theorem counts_of_propagatePaths {paths : List String} {classes : List (String × LoadedClass)}
    (hclasses : input.HasClasses paths classes)
    (h : (propagatePaths table report paths).Yields input output report' output')
    (hbalanced : report.Balanced) :
    report'.scanned =
        report.scanned + classes.countP (fun e => !table.contains e.2.declaredName) ∧
      report'.Balanced := by
  induction classes generalizing paths report output with
  | nil =>
    obtain ⟨rfl, -⟩ := hclasses
    obtain ⟨rfl, rfl⟩ := yields_pure.mp h
    exact ⟨rfl, hbalanced⟩
  | cons e classes ih =>
    obtain ⟨rfl, hall⟩ := hclasses
    obtain ⟨he, hmore⟩ := List.forall_mem_cons.mp hall
    obtain ⟨c, afterRead, hread, hupdating⟩ := yields_bind.mp h
    obtain ⟨hclass, rfl⟩ := yields_readClass.mp hread
    obtain rfl : c = e.2 := Option.some.inj (hclass.symm.trans he)
    rw [List.countP_cons]
    split at hupdating
    case isTrue hmarked =>
      obtain ⟨hscanned, hlast⟩ := ih ⟨rfl, hmore⟩ hupdating hbalanced
      refine ⟨?_, hlast⟩
      simp [hscanned, hmarked]
    case isFalse hunmarked =>
      obtain ⟨reportThen, afterUpdate, hupdate, hrest⟩ := yields_bind.mp hupdating
      obtain ⟨hone, hthen, -⟩ := counts_of_updateClass hupdate hbalanced
      obtain ⟨hscanned, hlast⟩ := ih ⟨rfl, hmore⟩ hrest hthen
      refine ⟨?_, hlast⟩
      rw [hscanned, hone]
      simp only [hunmarked, Bool.not_false, if_true]
      omega

/-- Propagation counts the input classes that have no entry. -/
theorem counts_of_propagate {classes : List (String × LoadedClass)}
    (hclasses : input.HasClasses input.classPaths classes)
    (h : (propagate table).Yields input output report output') :
    report.scanned = classes.countP (fun e => !table.contains e.2.declaredName) ∧
      report.Balanced := by
  obtain ⟨paths, afterList, hlist, hupdating⟩ := yields_bind.mp h
  obtain ⟨rfl, rfl⟩ := yields_listInput.mp hlist
  obtain ⟨reportThen, afterUpdates, hupdates, hend⟩ := yields_bind.mp hupdating
  obtain ⟨rfl, rfl⟩ := yields_pure.mp hend
  obtain ⟨hscanned, hbalanced⟩ :=
    counts_of_propagatePaths hclasses hupdates (PhaseReport.balanced_start _)
  refine ⟨?_, hbalanced.finish⟩
  show reportThen.scanned = _
  rw [hscanned]
  exact Nat.zero_add _

theorem counts_of_fixUpPaths {paths : List String}
    (h : (fixUpPaths table report paths).Yields input output report' output')
    (hbalanced : report.Balanced) : report'.scanned = report.scanned + paths.length ∧
      report'.Balanced ∧
      ∃ more : List String, more.Sublist paths ∧ report'.written = more.reverse ++ report.written := by
  induction paths generalizing report output with
  | nil =>
    obtain ⟨rfl, rfl⟩ := yields_pure.mp h
    exact ⟨rfl, hbalanced, [], List.Sublist.refl _, rfl⟩
  | cons path paths ih =>
    obtain ⟨c, afterRead, hread, hupdating⟩ := yields_bind.mp h
    obtain ⟨reportThen, afterUpdate, hupdate, hrest⟩ := yields_bind.mp hupdating
    obtain ⟨hone, hthen, first, hfirst, hwritten⟩ := counts_of_updateClass hupdate hbalanced
    obtain ⟨hscanned, hlast, more, hmore, hwritten'⟩ := ih hrest hthen
    refine ⟨?_, hlast, first ++ more, ?_, ?_⟩
    · rw [hscanned, hone, List.length_cons]
      omega
    · exact hfirst.append hmore
    · -- at most one path is put in front, so that it does not matter which way round it is
      have hreverse : first.reverse = first := by
        rcases List.sublist_singleton.mp hfirst with rfl | rfl <;> rfl
      rw [hwritten', hwritten, List.reverse_append, hreverse, List.append_assoc]

/-- Fixup counts the paths that it is given, and writes some of them, in their order. -/
theorem counts_of_fixUp {paths : List String}
    (h : (fixUp table paths).Yields input output report output') :
    report.scanned = paths.length ∧ report.Balanced ∧ report.written.Sublist paths := by
  obtain ⟨reportThen, afterUpdates, hupdates, hend⟩ := yields_bind.mp h
  obtain ⟨rfl, rfl⟩ := yields_pure.mp hend
  obtain ⟨hscanned, hbalanced, more, hmore, hwritten⟩ :=
    counts_of_fixUpPaths hupdates (PhaseReport.balanced_start _)
  refine ⟨?_, hbalanced.finish, ?_⟩
  · show reportThen.scanned = _
    rw [hscanned]
    exact Nat.zero_add _
  · show reportThen.written.reverse.Sublist paths
    rw [hwritten, List.reverse_append, List.reverse_reverse]
    exact hmore

end

/-! ## The whole run -/

/-- How the report of a run accounts for the listed input classes. -/
structure Accounted (input : MemoryStore) (report : RelocationReport) : Prop where
  scanned : report.discovery.scanned = input.classPaths.length
  balanced : ∀ r ∈ report.phases, r.Balanced
  distinct : ∀ r ∈ report.phases, r.written.Nodup
  relocated : report.discovery.written.length = report.table.size
  /-- Fixup looks at the relocated classes. -/
  again : report.fixup.scanned = report.table.size
  /-- Propagation looks at the classes that discovery has left alone. -/
  others : report.propagation.scanned = report.discovery.unchanged
  sorted : input.classPaths.Pairwise fun path path' => compare path path' = .lt
  propagated : report.propagation.written.Sublist input.classPaths
  fixedUp : report.fixup.written.Sublist report.discovery.written
  /-- Discovery writes the relocated classes in the order of the paths they were found at. -/
  inOrder : ∃ entries : List (String × String × String), entries.Perm report.table.withSources ∧
    (entries.Pairwise fun e e' => compare e.2.2 e'.2.2 = .lt) ∧
    report.discovery.written = entries.map fun e => classPath e.2.1

namespace Discovered

variable {tag marker : String} {input output output' : MemoryStore}
  {classes : List (String × LoadedClass)} {found : Discovery}

/-- The classes that discovery reads are those that it writes and those that it leaves alone. -/
theorem balanced (h : Discovered tag marker input output classes found output')
    (hrecorded : Recorded tag marker classes found) : found.report.Balanced := by
  unfold PhaseReport.Balanced
  have hsplit := List.length_eq_countP_add_countP (fun e => e.2.hasMarker marker) (l := classes)
  rw [hrecorded.scanned, hrecorded.unchanged, h.written, List.length_map,
    ← List.countP_eq_length_filter, hsplit]
  simp

theorem length_written (h : Discovered tag marker input output classes found output')
    (hrecorded : Recorded tag marker classes found) :
    found.report.written.length = found.table.size := by
  rw [h.written, List.length_map, ← RelocationTable.length_withSources,
    hrecorded.entries.length_eq, List.length_map]

/-- The classes that are left alone are those without an entry. -/
theorem unchanged_eq (h : Discovered tag marker input output classes found output')
    (hrecorded : Recorded tag marker classes found) : found.report.unchanged =
      classes.countP fun e => !found.table.contains e.2.declaredName := by
  rw [hrecorded.unchanged]
  apply List.countP_congr
  intro e he
  rw [Bool.not_eq_true', Bool.not_eq_true', h.contains_declaredName_eq_false he]

/-- The entries of the marked classes, in the order of their paths. -/
theorem inOrder (h : Discovered tag marker input output classes found output')
    (hrecorded : Recorded tag marker classes found) :
    ∃ entries : List (String × String × String), entries.Perm found.table.withSources ∧
      (entries.Pairwise fun e e' => compare e.2.2 e'.2.2 = .lt) ∧
      found.report.written = entries.map fun e => classPath e.2.1 := by
  refine ⟨_, hrecorded.entries.symm, ?_, ?_⟩
  · have hsorted := input.classPaths_sorted
    rw [← h.read.1, List.pairwise_map] at hsorted
    rw [List.pairwise_map]
    exact hsorted.sublist List.filter_sublist
  · rw [h.written, List.map_map]
    rfl

end Discovered

/-- **Every class is accounted for.** In the report of a run that succeeds, the classes that a phase has
read are those that it has written and those that it has left alone; discovery has read every listed
class and written the relocated ones in the order of their paths, propagation has looked at the others,
fixup at the relocated ones; no phase has written a path twice. -/
theorem relocate_accounts_for_classes {tag marker : String} {input output final : MemoryStore}
    {report : RelocationReport} (h : (relocate tag marker).Yields input output report final) :
    Accounted input report := by
  obtain ⟨classes, found, copied, propagatedTo, hrun⟩ := yields_relocate h
  have hfound := hrun.discovered
  have hrecorded := recorded_of_discover hfound.read hrun.discover
  obtain ⟨hscanned, hbalanced⟩ := counts_of_propagate hfound.read hrun.propagate
  obtain ⟨hagain, hbalanced', hfixed⟩ := counts_of_fixUp hrun.fixUp
  have hpropagated : report.propagation.written.Sublist input.classPaths := by
    rw [(yields_propagate hrun.propagate).1]
    exact List.filter_sublist
  constructor
  case scanned =>
    rw [hrun.discovery, hrecorded.scanned, ← hfound.read.1, List.length_map]
  case balanced =>
    simp only [RelocationReport.phases, List.forall_mem_cons, hrun.discovery]
    exact ⟨hfound.balanced hrecorded, hbalanced, hbalanced', List.forall_mem_nil _⟩
  case distinct =>
    simp only [RelocationReport.phases, List.forall_mem_cons, hrun.discovery]
    exact ⟨hfound.written_nodup, input.classPaths_nodup.sublist hpropagated,
      hfound.written_nodup.sublist hfixed, List.forall_mem_nil _⟩
  case relocated =>
    rw [hrun.discovery, hrun.table]
    exact hfound.length_written hrecorded
  case again =>
    rw [hagain, hrun.table]
    exact hfound.length_written hrecorded
  case others =>
    rw [hscanned, hrun.discovery, hfound.unchanged_eq hrecorded]
  case sorted => exact input.classPaths_sorted
  case propagated => exact hpropagated
  case fixedUp =>
    rw [hrun.discovery]
    exact hfixed
  case inOrder =>
    rw [hrun.discovery, hrun.table]
    exact hfound.inOrder hrecorded

theorem relocate_accounts_for_classes_surveySample :
    ∃ report final,
      (relocate "v1" defaultMarker).Yields (surveySample "lib/U.class") .empty report final ∧
      (report.phases.map fun r => (r.scanned, r.written, r.unchanged)) =
        [(3, ["v1/p/A.class", "v1/p/B.class"], 1), (1, ["lib/U.class"], 0),
          (2, ["v1/p/B.class"], 1)] ∧
      Accounted (surveySample "lib/U.class") report := by
  have hcheck : (((relocate "v1" defaultMarker).on (surveySample "lib/U.class") .empty).1.toOption.any
      fun report => (report.phases.map fun r => (r.scanned, r.written, r.unchanged)) =
        [(3, ["v1/p/A.class", "v1/p/B.class"], 1), (1, ["lib/U.class"], 0),
          (2, ["v1/p/B.class"], 1)]) = true := by
    decide +kernel
  obtain ⟨report, hyields, hcounts⟩ := exists_yields_of_any hcheck
  exact ⟨report, _, hyields, of_decide_eq_true hcounts, relocate_accounts_for_classes hyields⟩

end JvmRelocation
