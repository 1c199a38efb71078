import JvmRelocation.Proofs.Relocation.Success

/-!
# Unmarked classes that are added

A class without the marker gets no entry in the table, and no phase writes it anywhere but at its own
path. So two runs whose input stores differ in such a class only have the same table, and leave the
same content at every other path.
-/

namespace JvmRelocation

open StoreProgram

/-! ## The table of the marked classes -/

/-- The table with an entry for each of the given classes, which are with their paths. -/
def RelocationTable.enterAll (tag : String) (t : RelocationTable)
    (classes : List (String × LoadedClass)) : Except RelocationError RelocationTable :=
  classes.foldlM (fun t e => t.insert e.2.declaredName (relocatedName tag e.2.declaredName) e.1) t

section

variable {tag marker : String} {input output output' : MemoryStore}

/-- Noting a class enters it if it is marked. -/
theorem Survey.enterAll_note {path : String} {c : LoadedClass} {s s' : Survey}
    (h : s.note tag marker path c = .ok s') :
    s.table.enterAll tag ([(path, c)].filter fun e => e.2.hasMarker marker) = .ok s'.table := by
  rcases (noted_of_note h).entered with ⟨hmarked, htable, -⟩ | ⟨hunmarked, htable, -⟩
  · have hentered : [(path, c)].filter (fun e => e.2.hasMarker marker) = [(path, c)] := by
      simp [hmarked]
    rw [hentered, RelocationTable.enterAll, List.foldlM_cons, htable]
    rfl
  · have hentered : [(path, c)].filter (fun e => e.2.hasMarker marker) = [] := by
      simp [hunmarked]
    rw [hentered, htable]
    rfl

/-- A survey enters the marked classes in the order in which they are read. -/
theorem enterAll_surveyPaths {paths : List String} {classes : List (String × LoadedClass)}
    {s s' : Survey} (hclasses : input.HasClasses paths classes)
    (h : (surveyPaths tag marker s paths).Yields input output s' output') :
    s.table.enterAll tag (classes.filter fun e => e.2.hasMarker marker) = .ok s'.table := by
  induction classes generalizing paths s with
  | nil =>
    obtain ⟨rfl, -⟩ := hclasses
    obtain ⟨rfl, -⟩ := yields_pure.mp h
    rfl
  | cons e classes ih =>
    obtain ⟨rfl, hall⟩ := hclasses
    obtain ⟨he, hmore⟩ := List.forall_mem_cons.mp hall
    obtain ⟨c, afterRead, hread, hthen⟩ := yields_bind.mp h
    obtain ⟨hclass, rfl⟩ := yields_readClass.mp hread
    obtain rfl : c = e.2 := Option.some.inj (hclass.symm.trans he)
    obtain ⟨noted, afterNote, hnoted, hrest⟩ := yields_bind.mp hthen
    obtain ⟨hnote, rfl⟩ := yields_ofExcept.mp hnoted
    have hfirst := Survey.enterAll_note hnote
    rw [← List.singleton_append, List.filter_append, RelocationTable.enterAll, List.foldlM_append,
      ← RelocationTable.enterAll, hfirst]
    exact ih ⟨rfl, hmore⟩ hrest

/-- The table that discovery finds has the marked classes, entered in the order of their paths. -/
theorem enterAll_discover {classes : List (String × LoadedClass)} {found : Discovery}
    (hclasses : input.HasClasses input.classPaths classes)
    (h : (discover tag marker).Yields input output found output') :
    RelocationTable.empty.enterAll tag (classes.filter fun e => e.2.hasMarker marker) =
      .ok found.table := by
  obtain ⟨paths, afterList, hlist, hsurveying⟩ := yields_bind.mp h
  obtain ⟨rfl, rfl⟩ := yields_listInput.mp hlist
  obtain ⟨s, afterSurvey, hsurvey, hchecking⟩ := yields_bind.mp hsurveying
  obtain ⟨_, afterCheck, -, hwriting⟩ := yields_bind.mp hchecking
  obtain ⟨written, afterWrite, -, hend⟩ := yields_bind.mp hwriting
  obtain ⟨rfl, rfl⟩ := yields_pure.mp hend
  exact enterAll_surveyPaths hclasses hsurvey

end

/-! ## One more file -/

namespace MemoryStore

/-- A file at a new path is listed among the others, in the same order as before. -/
theorem classPaths_insert {s : MemoryStore} {path : String} (hnew : s.get? path = none)
    (bytes : Bytes) : (s.insert path bytes).classPaths.filter (· ≠ path) = s.classPaths := by
  have hsame (place : String) :
      place ∈ (s.insert path bytes).classPaths.filter (· ≠ path) ↔ place ∈ s.classPaths := by
    simp only [classPaths, List.mem_filter, mem_paths, get?_insert, decide_eq_true_eq]
    by_cases hplace : path = place
    · simp [← hplace, hnew]
    · simp [hplace, Ne.symm hplace]
  refine List.Perm.eq_of_pairwise ?_ ((s.insert path bytes).classPaths_sorted.filter _)
    s.classPaths_sorted ?_
  · intro a b _ _ hlt hgt
    exact absurd hgt (Std.OrientedCmp.not_lt_of_lt hlt)
  · exact (List.perm_ext_iff_of_nodup ((classPaths_nodup _).filter _) (classPaths_nodup _)).mpr hsame

end MemoryStore

/-! ## Two runs -/

/-- The classes of a store that has a file more, at a new path, are the same at the other paths. -/
theorem MemoryStore.HasClasses.of_insert {s : MemoryStore} {path : String} {bytes : Bytes}
    {classes classes' : List (String × LoadedClass)} (hnew : s.get? path = none)
    (h : s.HasClasses s.classPaths classes)
    (h' : (s.insert path bytes).HasClasses (s.insert path bytes).classPaths classes') :
    classes'.filter (·.1 ≠ path) = classes := by
  refine MemoryStore.HasClasses.unique ⟨?_, fun e he => ?_⟩ h
  · rw [← classPaths_insert hnew bytes, ← h'.1, List.filter_map]
    rfl
  · obtain ⟨he, hne⟩ := List.mem_filter.mp he
    rw [← h'.2 e he]
    refine class?_congr ?_
    rw [get?_insert, if_neg (Ne.symm (by simpa using hne))]

namespace Relocated

variable {tag marker : String} {input output : MemoryStore} {path : String} {bytes : Bytes}
  {report report' : RelocationReport} {final final' : MemoryStore}
  {classes classes' : List (String × LoadedClass)} {found found' : Discovery}
  {copied copied' propagatedTo propagatedTo' : MemoryStore}

/-- Runs that differ in an unmarked class have the same marked ones. -/
theorem marked_of_insert
    (h : Relocated tag marker input output report final classes found copied propagatedTo)
    (h' : Relocated tag marker (input.insert path bytes) output report' final' classes' found'
      copied' propagatedTo')
    (hnew : input.get? path = none)
    (hunmarked : ∀ c, LoadedClass.parse bytes = .ok c → c.hasMarker marker = false) :
    classes'.filter (fun e => e.2.hasMarker marker) =
      classes.filter fun e => e.2.hasMarker marker := by
  rw [← h.discovered.read.of_insert hnew h'.discovered.read, List.filter_filter]
  refine List.filter_congr fun e he => ?_
  by_cases hpath : e.1 = path
  · -- the class at the new path is the one that is added
    obtain ⟨source, hget, hparse⟩ := MemoryStore.class?_eq_some.mp (h'.discovered.read.2 e he)
    rw [hpath, MemoryStore.get?_insert, if_pos rfl] at hget
    obtain rfl := Option.some.inj hget
    simp [hunmarked e.2 hparse]
  · simp [hpath]

/-- Runs that have the same marked classes have the same table. -/
theorem table_of_marked {input' : MemoryStore}
    (h : Relocated tag marker input output report final classes found copied propagatedTo)
    (h' : Relocated tag marker input' output report' final' classes' found' copied' propagatedTo')
    (hmarked : classes'.filter (fun e => e.2.hasMarker marker) =
      classes.filter fun e => e.2.hasMarker marker) : found'.table = found.table := by
  have htable := enterAll_discover h.discovered.read h.discover
  have htable' := enterAll_discover h'.discovered.read h'.discover
  rw [hmarked, htable] at htable'
  exact (Except.ok.inj htable').symm

/-- Runs that have the same marked classes copy the same. -/
theorem copied_of_marked {input' : MemoryStore}
    (h : Relocated tag marker input output report final classes found copied propagatedTo)
    (h' : Relocated tag marker input' output report' final' classes' found' copied' propagatedTo')
    (hmarked : classes'.filter (fun e => e.2.hasMarker marker) =
      classes.filter fun e => e.2.hasMarker marker) :
    found'.report.written = found.report.written ∧
      ∀ place, copied'.get? place = copied.get? place := by
  have hwritten : found'.report.written = found.report.written := by
    rw [h.discovered.written, h'.discovered.written, hmarked]
  refine ⟨hwritten, fun place => ?_⟩
  by_cases hplace : place ∈ found.report.written
  · obtain ⟨e, he, hmarker, rfl⟩ := h.written_iff.mp hplace
    have he' : e ∈ classes' := by
      have hmem : e ∈ classes.filter fun e => e.2.hasMarker marker :=
        List.mem_filter.mpr ⟨he, hmarker⟩
      exact (List.mem_filter.mp (hmarked ▸ hmem)).1
    obtain ⟨s, hsub, hcopied⟩ := h.discovered.copied e he hmarker
    obtain ⟨s', hsub', hcopied'⟩ := h'.discovered.copied e he' hmarker
    obtain rfl : s = s' := Except.ok.inj (hsub.symm.trans hsub')
    rw [hcopied, hcopied']
  · rw [h.discovered.others place hplace, h'.discovered.others place (hwritten ▸ hplace)]

/-- What propagation makes of a path is told by the class there and by the table. -/
theorem before_fixUp_of_insert
    (h : Relocated tag marker input output report final classes found copied propagatedTo)
    (h' : Relocated tag marker (input.insert path bytes) output report' final' classes' found'
      copied' propagatedTo')
    (hnew : input.get? path = none) (htable : found'.table = found.table)
    (hcopied : ∀ place, copied'.get? place = copied.get? place) {place : String}
    (hplace : place ≠ path) : propagatedTo'.get? place = propagatedTo.get? place := by
  have hlisted : place ∈ (input.insert path bytes).classPaths ↔ place ∈ input.classPaths := by
    rw [← MemoryStore.classPaths_insert hnew bytes, List.mem_filter]
    simp [hplace]
  have hclass : (input.insert path bytes).class? place = input.class? place :=
    class?_congr (by rw [MemoryStore.get?_insert, if_neg hplace.symm])
  simp only [h.before_fixUp, h'.before_fixUp, hlisted, propagated, hclass, htable, hcopied]

/-- The rest of a run is told by the table, by what discovery has written, and by what fixup finds. -/
theorem final_of_before {input' : MemoryStore}
    (h : Relocated tag marker input output report final classes found copied propagatedTo)
    (h' : Relocated tag marker input' output report' final' classes' found' copied' propagatedTo')
    (htable : found'.table = found.table)
    (hwritten : found'.report.written = found.report.written) {place : String}
    (hbefore : propagatedTo'.get? place = propagatedTo.get? place) :
    final'.get? place = final.get? place := by
  by_cases hplace : place ∈ found.report.written
  · obtain ⟨c, s, hclass, hsub, hfinal⟩ := h.fixedUp hplace
    obtain ⟨c', s', hclass', hsub', hfinal'⟩ := h'.fixedUp (hwritten ▸ hplace)
    rw [class?_congr hbefore, hclass] at hclass'
    obtain rfl := Option.some.inj hclass'
    rw [htable, hsub] at hsub'
    rw [hfinal, hfinal', Except.ok.inj hsub']
  · rw [h.get?_of_not_fixedUp hplace, h'.get?_of_not_fixedUp (hwritten ▸ hplace), hbefore]

end Relocated

/-- **Unmarked classes do not interfere.** When an input store gets one more class, unmarked and at a
new path, and a run succeeds with it and without it, then both runs return the same table, and they
leave the same content at every path but that of the class. -/
theorem relocate_ignores_unmarked {tag marker path : String} {bytes : Bytes}
    {input output final final' : MemoryStore} {report report' : RelocationReport}
    (hnew : input.get? path = none)
    (hunmarked : ∀ c, LoadedClass.parse bytes = .ok c → c.hasMarker marker = false)
    (h : (relocate tag marker).Yields input output report final)
    (h' : (relocate tag marker).Yields (input.insert path bytes) output report' final') :
    report'.table = report.table ∧
      ∀ place, place ≠ path → final'.get? place = final.get? place := by
  obtain ⟨classes, found, copied, propagatedTo, hrun⟩ := yields_relocate h
  obtain ⟨classes', found', copied', propagatedTo', hrun'⟩ := yields_relocate h'
  have hmarked := hrun.marked_of_insert hrun' hnew hunmarked
  have htable := hrun.table_of_marked hrun' hmarked
  obtain ⟨hwritten, hcopied⟩ := hrun.copied_of_marked hrun' hmarked
  refine ⟨by rw [hrun.table, hrun'.table, htable], fun place hplace => ?_⟩
  exact hrun.final_of_before hrun' htable hwritten
    (hrun.before_fixUp_of_insert hrun' hnew htable hcopied hplace)

/-- An unmarked class that is to be kept where `p/A` goes. -/
def intrudingSample : Bytes :=
  LoadedClass.built "q/V" (ClassBuilder.addField "a" "Lp/A;")

theorem relocate_ignores_unmarked_intruder :
    (surveySample "q/U.class").get? "v1/p/A.class" = none ∧
      (∀ c, LoadedClass.parse intrudingSample = .ok c → c.hasMarker defaultMarker = false) ∧
      ∃ report final report' final',
        (relocate "v1" defaultMarker).Yields (surveySample "q/U.class") .empty report final ∧
        (relocate "v1" defaultMarker).Yields
          ((surveySample "q/U.class").insert "v1/p/A.class" intrudingSample) .empty report' final' ∧
        (report.propagation.written = ["q/U.class"] ∧
          report'.propagation.written = ["q/U.class", "v1/p/A.class"]) ∧
        report'.table = report.table ∧
        ∀ place, place ≠ "v1/p/A.class" → final'.get? place = final.get? place := by
  have hnew : (surveySample "q/U.class").get? "v1/p/A.class" = none := by decide +kernel
  have hunmarked : ∀ c, LoadedClass.parse intrudingSample = .ok c →
      c.hasMarker defaultMarker = false := by
    have hcheck : ((LoadedClass.parse intrudingSample).toOption.all
        fun c => !c.hasMarker defaultMarker) = true := by decide +kernel
    intro c hparse
    simpa [hparse, Except.toOption] using hcheck
  have hwithout : ((relocate "v1" defaultMarker).on (surveySample "q/U.class") .empty).1.toOption.any
      (fun report => report.propagation.written = ["q/U.class"]) = true := by
    decide +kernel
  have hwith : ((relocate "v1" defaultMarker).on ((surveySample "q/U.class").insert "v1/p/A.class"
      intrudingSample) .empty).1.toOption.any
        (fun report => report.propagation.written = ["q/U.class", "v1/p/A.class"]) = true := by
    decide +kernel
  obtain ⟨report, hyields, hwritten⟩ := exists_yields_of_any hwithout
  obtain ⟨report', hyields', hwritten'⟩ := exists_yields_of_any hwith
  simp only [decide_eq_true_eq] at hwritten hwritten'
  exact ⟨hnew, hunmarked, report, _, report', _, hyields, hyields', ⟨hwritten, hwritten'⟩,
    relocate_ignores_unmarked hnew hunmarked hyields hyields'⟩

end JvmRelocation
