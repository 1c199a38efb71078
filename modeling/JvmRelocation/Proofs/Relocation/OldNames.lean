import JvmRelocation.Proofs.ClassFile.SiteTexts
import JvmRelocation.Proofs.Relocation.Survival

/-!
# What is left of old names after a run

Every class that a run has written is an input class, renamed by itself or by the table or not at
all, and then by the table. No text that can be read mentions an old name after that, except for
inner classes in signatures: where an inner class is marked and its outermost class is not, the old
full name can be read off the label that is left.
-/

namespace JvmRelocation

open StoreProgram

/-! ## The mapper of the table -/

theorem RelocationTable.isSome_mapper (table : RelocationTable) (name : String) :
    (table.mapper name).isSome = table.contains name := by
  rw [mapper, get?, contains, Std.TreeMap.get?_eq_getElem?, Std.TreeMap.contains_eq_isSome_getElem?]

namespace Discovered

variable {tag marker : String} {input output output' : MemoryStore}
  {classes : List (String × LoadedClass)} {found : Discovery}

theorem staged (h : Discovered tag marker input output classes found output') {m₁ : NameMapper}
    (hsub : ∀ name target, m₁ name = some target → found.table.mapper name = some target) :
    Staged tag m₁ found.table.mapper := by
  refine ⟨hsub, fun name target htarget => ((h.table name target).mp htarget).1, fun name hname => ?_⟩
  rw [RelocationTable.isSome_mapper, h.contains_eq_true] at hname
  obtain ⟨e, he, hmarked, rfl⟩ := hname
  refine RelocationTable.mapper_eq_none ?_
  rw [Bool.eq_false_iff, ne_eq, h.contains_eq_true]
  rintro ⟨e', he', -, hname⟩
  exact h.fresh e he hmarked e' he' hname

/-- What discovery renames in a marked class is a part of what the table says. -/
theorem staged_single (h : Discovered tag marker input output classes found output')
    {e : String × LoadedClass} (he : e ∈ classes) (hmarked : e.2.hasMarker marker = true) :
    Staged tag (.single e.2.declaredName (relocatedName tag e.2.declaredName))
      found.table.mapper := by
  refine h.staged fun name target htarget => ?_
  by_cases hname : name = e.2.declaredName
  · subst hname
    rw [single_self] at htarget
    obtain rfl := Option.some.inj htarget
    exact (h.table _ _).mpr ⟨rfl, e, he, hmarked, rfl⟩
  · rw [single_eq_none hname] at htarget
    cases htarget

end Discovered

/-! ## Where the texts of the output come from -/

/-- The texts at the name sites of the classes of a store, each with the role of its site. -/
def MemoryStore.siteTexts (s : MemoryStore) : List (NameRole × String) :=
  (s.classPaths.filterMap s.class?).flatMap fun c => c.siteTexts

namespace Relocated

variable {tag marker : String} {input output : MemoryStore} {report : RelocationReport}
  {final : MemoryStore} {classes : List (String × LoadedClass)} {found : Discovery}
  {copied propagatedTo : MemoryStore}

theorem mem_siteTexts
    (h : Relocated tag marker input output report final classes found copied propagatedTo)
    {e : String × LoadedClass} (he : e ∈ classes) {role : NameRole} {v : String}
    (hv : (role, v) ∈ e.2.siteTexts) : (role, v) ∈ input.siteTexts := by
  obtain ⟨hpath, hclass⟩ := h.discovered.mem_classes.mp he
  exact List.mem_flatMap.mpr ⟨e.2, List.mem_filterMap.mpr ⟨e.1, hpath, hclass⟩, hv⟩

/-- The class that fixup reads at a path that discovery has written is an input class, renamed by
itself or by the table. -/
theorem siteTexts_before_fixUp
    (h : Relocated tag marker input output report final classes found copied propagatedTo)
    (hfits : RunFits tag marker input output) (hbracket : '<' ∉ tag.toList) {path : String}
    (hpath : path ∈ found.report.written) {c₁ : LoadedClass}
    (hclass : propagatedTo.class? path = some c₁) :
    ∃ m₁, Staged tag m₁ found.table.mapper ∧ ∀ role w, (role, w) ∈ c₁.siteTexts →
      ∃ v, (role, v) ∈ input.siteTexts ∧ w = role.renamed m₁ v := by
  have htag := validTag_of_tagFault? h.tag_valid
  obtain ⟨source₁, hget₁, hparse₁⟩ := MemoryStore.class?_eq_some.mp hclass
  by_cases hcollides : Collides input found.table path
  -- an unmarked class has taken the place, renamed by the table already
  · obtain ⟨u, s, hu, hunmarked, hsub, hbefore⟩ := h.before_of_collides hcollides
    obtain rfl : s.bytes = source₁ := Option.some.inj (hbefore.symm.trans hget₁)
    obtain ⟨source, -, hparse⟩ := MemoryStore.class?_eq_some.mp (h.discovered.mem_classes.mp hu).2
    have hstaged := h.discovered.staged fun _ _ htarget => htarget
    refine ⟨found.table.mapper, hstaged, fun role w hw => ?_⟩
    obtain ⟨v, hv, heq⟩ := LoadedClass.siteTexts_of_tags hstaged.tags htag hbracket hparse hsub
      (h.fits_unmarked hfits hu hunmarked) hparse₁ hw
    exact ⟨v, h.mem_siteTexts hu hv, heq⟩
  -- the copy of a marked class, renamed by its own name only
  · obtain ⟨e, he, hmarked, rfl⟩ := h.written_iff.mp hpath
    obtain ⟨s, c, s', hsub, hclass', hparse', -, -⟩ := h.copy_of_not_collides he hmarked hcollides
    obtain rfl : c = c₁ := Option.some.inj (hclass'.symm.trans hclass)
    obtain ⟨source, -, hparse⟩ := MemoryStore.class?_eq_some.mp (h.discovered.mem_classes.mp he).2
    have hstaged := h.discovered.staged_single he hmarked
    refine ⟨_, hstaged, fun role w hw => ?_⟩
    obtain ⟨v, hv, heq⟩ := LoadedClass.siteTexts_of_tags hstaged.tags_first htag hbracket hparse hsub
      (h.fits_input hfits he (if_pos hmarked).symm) hparse' hw
    exact ⟨v, h.mem_siteTexts he hv, heq⟩

/-- A class at a path that the run has written is an input class, renamed by itself or by the table
or not at all, and then by the table. -/
theorem siteTexts_final
    (h : Relocated tag marker input output report final classes found copied propagatedTo)
    (hfits : RunFits tag marker input output) (hbracket : '<' ∉ tag.toList) {path : String}
    (hpath : ∃ r ∈ report.phases, path ∈ r.written) {d : LoadedClass}
    (hd : final.class? path = some d) :
    ∃ m₁, Staged tag m₁ found.table.mapper ∧ ∀ role w, (role, w) ∈ d.siteTexts →
      ∃ v, (role, v) ∈ input.siteTexts ∧
        w = role.renamed found.table.mapper (role.renamed m₁ v) := by
  have htag := validTag_of_tagFault? h.tag_valid
  obtain ⟨bytes, hget, hparse⟩ := MemoryStore.class?_eq_some.mp hd
  have htags := (h.discovered.staged fun _ _ htarget => htarget).tags
  by_cases hwritten : path ∈ found.report.written
  -- fixup has renamed by the table what the earlier phases have left at the path
  · obtain ⟨c₁, s', hclass₁, hsub', hafter⟩ := h.fixedUp hwritten
    obtain rfl : s'.bytes = bytes := Option.some.inj (hafter.symm.trans hget)
    obtain ⟨source₁, -, hparse₁⟩ := MemoryStore.class?_eq_some.mp hclass₁
    obtain ⟨m₁, hstaged, htexts⟩ := h.siteTexts_before_fixUp hfits hbracket hwritten hclass₁
    refine ⟨m₁, hstaged, fun role w hw => ?_⟩
    obtain ⟨v₁, hv₁, rfl⟩ := LoadedClass.siteTexts_of_tags htags htag hbracket hparse₁ hsub'
      (h.fits_copied hfits hwritten hclass₁) hparse hw
    obtain ⟨v, hv, rfl⟩ := htexts role v₁ hv₁
    exact ⟨v, hv, rfl⟩
  · -- only propagation can have written here
    have hpropagated := (h.written_cases hpath).resolve_left hwritten
    obtain ⟨u, s, hu, hunmarked, hsub, hbefore⟩ := h.before_of_collides hpropagated
    rw [h.get?_of_not_fixedUp hwritten, hbefore] at hget
    obtain rfl := Option.some.inj hget
    obtain ⟨source, -, hparseU⟩ := MemoryStore.class?_eq_some.mp (h.discovered.mem_classes.mp hu).2
    refine ⟨fun _ => none, h.discovered.staged (fun _ _ htarget => by cases htarget),
      fun role w hw => ?_⟩
    obtain ⟨v, hv, rfl⟩ := LoadedClass.siteTexts_of_tags htags htag hbracket hparseU hsub
      (h.fits_unmarked hfits hu hunmarked) hparse hw
    exact ⟨v, h.mem_siteTexts hu hv, by rw [NameRole.renamed_none]⟩

end Relocated

/-- No class at a path that the run has written mentions a class that has a new name, as far as its
names can be listed. -/
def LeavesNoOldName (report : RelocationReport) (final : MemoryStore) : Prop :=
  ∀ path, (∃ r ∈ report.phases, path ∈ r.written) → ∀ d, final.class? path = some d →
    ∀ names, d.referencedNames = .ok names →
      ∀ name, report.table.contains name = true → names.contains name = false

/-- **No old name is left.** Every signature and descriptor of an input class has to be one, every
text that is written has to fit, and the tag must not hold the bracket that ends a class name in a
signature. The inner classes in signatures have to be settled: a marked one is inside a marked
outermost class, and no marked class is named like an inner class of the relocated outermost one. -/
theorem relocate_leaves_no_old_name {tag marker : String} {input output final : MemoryStore}
    {report : RelocationReport} (h : (relocate tag marker).Yields input output report final)
    (hfits : RunFits tag marker input output) (hbracket : '<' ∉ tag.toList)
    (hlegible : ∀ e ∈ input.siteTexts, e.1.Legible e.2)
    (hsettled : ∀ e ∈ input.siteTexts, ∀ s ∈ e.1.innerSegments e.2,
      s.Settled tag report.table.mapper) : LeavesNoOldName report final := by
  obtain ⟨classes, found, copied, propagatedTo, hrun⟩ := yields_relocate h
  intro path hpath d hd names hnames name hname
  rw [hrun.table] at hsettled hname
  obtain ⟨m₁, hstaged, htexts⟩ := hrun.siteTexts_final hfits hbracket hpath hd
  rw [Bool.eq_false_iff]
  intro hmentioned
  obtain ⟨⟨role, w⟩, hw, hmem⟩ := ClassFile.contains_referencedNames hnames hmentioned
  obtain ⟨v, hv, rfl⟩ := htexts role w hw
  -- a name that is mentioned comes from a text that was renamed in two stages
  have hnone := NameRole.names_renamed_renamed hstaged (validTag_of_tagFault? hrun.tag_valid) hbracket
    (hlegible _ hv) (hsettled _ hv) name hmem
  rw [← RelocationTable.isSome_mapper, hnone] at hname
  cases hname

/-! ### Stores with inner classes -/

/-- A store with the given classes, each of them marked or not, and an unmarked class `q/U` with a
field of the given type and a signature. -/
def nestedSample (classes : List (String × Bool)) (fieldType signature : String) : MemoryStore :=
  .ofList (("q/U.class", LoadedClass.built "q/U" do
      ClassBuilder.addField "f" fieldType
      ClassBuilder.addClassSignature signature) ::
    classes.map fun (name, marked) => (classPath name, LoadedClass.built name do
      if marked then ClassBuilder.addVisible defaultMarker))

/-- A class with an inner class, both of them marked. -/
def settledSample : MemoryStore :=
  nestedSample [("p/A", true), ("p/A$B", true)] "[Lp/A$B;" "Lp/A<Lp/A.B;>.B<*>;"

theorem relocate_leaves_no_old_name_settled :
    ∃ report final, (relocate "v1" defaultMarker).Yields settledSample .empty report final ∧
      RunFits "v1" defaultMarker settledSample .empty ∧ '<' ∉ "v1".toList ∧
      (∀ e ∈ settledSample.siteTexts, e.1.Legible e.2) ∧
      (∀ e ∈ settledSample.siteTexts, ∀ s ∈ e.1.innerSegments e.2,
        s.Settled "v1" report.table.mapper) ∧
      report.propagation.written = ["q/U.class"] ∧ LeavesNoOldName report final := by
  have hcheck : (((relocate "v1" defaultMarker).on settledSample .empty).1.toOption.any fun report =>
      report.table.contains "p/A" && report.propagation.written = ["q/U.class"] &&
        report.table.relocated.keys.all fun key => key.toList.head? = some 'p') = true := by
    decide +kernel
  have hfits : RunFits "v1" defaultMarker settledSample .empty := by decide +kernel
  have hlegible : ∀ e ∈ settledSample.siteTexts, e.1.Legible e.2 := by decide +kernel
  have houtermost : ∀ e ∈ settledSample.siteTexts, ∀ s ∈ e.1.innerSegments e.2,
      s.outermost = "p/A" := by decide +kernel
  obtain ⟨report, hreport, hcheck⟩ := exists_ok_of_any hcheck
  simp only [Bool.and_eq_true, List.all_eq_true, decide_eq_true_eq] at hcheck
  obtain ⟨⟨hmarked, hwritten⟩, hkeys⟩ := hcheck
  have hyields : (relocate "v1" defaultMarker).Yields settledSample .empty report
      ((relocate "v1" defaultMarker).on settledSample .empty).2 := Prod.ext hreport rfl
  have hsettled : ∀ e ∈ settledSample.siteTexts, ∀ s ∈ e.1.innerSegments e.2,
      s.Settled "v1" report.table.mapper := by
    intro e he s hs
    refine ⟨fun _ => ?_, fun _ name => RelocationTable.mapper_eq_none ?_⟩
    · rw [houtermost e he s hs, RelocationTable.isSome_mapper, hmarked]
    · rw [houtermost e he s hs, Bool.eq_false_iff]
      intro hcontains
      have hhead := hkeys _ (Std.TreeMap.mem_keys.mpr (Std.TreeMap.contains_iff_mem.mp hcontains))
      simp [innerName, relocatedName, String.toList_append] at hhead
  exact ⟨report, _, hyields, hfits, by decide, hlegible, hsettled, hwritten,
    relocate_leaves_no_old_name hyields hfits (by decide) hlegible hsettled⟩

/-- A run that leaves an old name, of which some more is known. -/
theorem exists_old_name (tag path name : String) (input : MemoryStore) (p : RelocationReport → Bool)
    (hreport : (((relocate tag defaultMarker).on input .empty).1.toOption.any fun report =>
      p report && report.table.contains name && report.phases.any (·.written.contains path)) = true)
    (hfinal : ((((relocate tag defaultMarker).on input .empty).2.class? path).any fun d =>
      d.referencedNames.toOption.any (·.contains name)) = true) :
    ∃ report final, (relocate tag defaultMarker).Yields input .empty report final ∧
      p report = true ∧ ¬LeavesNoOldName report final := by
  obtain ⟨report, hreport, hcheck⟩ := exists_ok_of_any hreport
  simp only [Bool.and_eq_true, List.any_eq_true, List.contains_eq_mem, decide_eq_true_eq] at hcheck
  obtain ⟨⟨hp, hname⟩, hpath⟩ := hcheck
  refine ⟨report, _, Prod.ext hreport rfl, hp, fun hall => ?_⟩
  obtain ⟨d, hd, hnames⟩ := (Option.any_eq_true _ _).mp hfinal
  obtain ⟨names, hnames, hcontains⟩ := exists_ok_of_any hnames
  rw [hall path hpath d hd names hnames name hname] at hcontains
  cases hcontains

/-- Only the inner class is marked. -/
def unmarkedOuterSample : MemoryStore :=
  nestedSample [("p/A", false), ("p/A$B", true)] "Lp/A$B;" "Lp/A.B;"

/-- A marked class is named like an inner class of the relocated outermost one. -/
def takenInnerSample : MemoryStore :=
  nestedSample [("p/A", true), ("v1/p/A$B", true)] "Lp/A;" "Lp/A.B;"

/-- A marked class is named like the part of the tag in front of its bracket. -/
def bracketSample : MemoryStore :=
  nestedSample [("a", true), ("p/A", true)] "Lp/A;" "Lp/A;"

/-- None of the conditions on inner classes and on the tag can be left out. -/
theorem relocate_leaves_old_name :
    (¬∀ (tag marker : String) (input output final : MemoryStore) (report : RelocationReport),
      (relocate tag marker).Yields input output report final → RunFits tag marker input output →
      '<' ∉ tag.toList → (∀ e ∈ input.siteTexts, e.1.Legible e.2) → LeavesNoOldName report final) ∧
    (¬∀ (tag marker : String) (input output final : MemoryStore) (report : RelocationReport),
      (relocate tag marker).Yields input output report final → RunFits tag marker input output →
      '<' ∉ tag.toList → (∀ e ∈ input.siteTexts, e.1.Legible e.2) →
      (∀ e ∈ input.siteTexts, ∀ s ∈ e.1.innerSegments e.2,
        report.table.contains s.full = true → report.table.contains s.outermost = true) →
      LeavesNoOldName report final) ∧
    ¬∀ (tag marker : String) (input output final : MemoryStore) (report : RelocationReport),
      (relocate tag marker).Yields input output report final → RunFits tag marker input output →
      (∀ e ∈ input.siteTexts, e.1.Legible e.2) →
      (∀ e ∈ input.siteTexts, ∀ s ∈ e.1.innerSegments e.2, s.Settled tag report.table.mapper) →
      LeavesNoOldName report final := by
  refine ⟨fun hall => ?_, fun hall => ?_, fun hall => ?_⟩
  · obtain ⟨report, final, hyields, -, hleft⟩ := exists_old_name "v1" "q/U.class" "p/A$B"
      unmarkedOuterSample (fun _ => true) (by decide +kernel) (by decide +kernel)
    exact hleft (hall _ _ _ _ _ _ hyields (by decide +kernel) (by decide) (by decide +kernel))
  · obtain ⟨report, final, hyields, hmarked, hleft⟩ := exists_old_name "v1" "q/U.class" "v1/p/A$B"
      takenInnerSample (fun report => report.table.contains "p/A") (by decide +kernel)
      (by decide +kernel)
    have houtermost : ∀ e ∈ takenInnerSample.siteTexts, ∀ s ∈ e.1.innerSegments e.2,
        s.outermost = "p/A" := by decide +kernel
    refine hleft (hall _ _ _ _ _ _ hyields (by decide +kernel) (by decide) (by decide +kernel) ?_)
    intro e he s hs _
    rw [houtermost e he s hs, hmarked]
  · obtain ⟨report, final, hyields, -, hleft⟩ := exists_old_name "a<b" "q/U.class" "a" bracketSample
      (fun _ => true) (by decide +kernel)
      (by decide +kernel)
    have hnoInner : ∀ e ∈ bracketSample.siteTexts, e.1.innerSegments e.2 = [] := by
      decide +kernel
    refine hleft (hall _ _ _ _ _ _ hyields (by decide +kernel) (by decide +kernel) ?_)
    intro e he s hs
    rw [hnoInner e he] at hs
    cases hs

end JvmRelocation
