import JvmRelocation.Proofs.ClassFile.RenamedSites
import JvmRelocation.Proofs.Relocation.Naming
import JvmRelocation.Proofs.Relocation.Updates

/-!
# Which relocated classes survive a run

Discovery chooses its paths by names, propagation uses the paths that the input classes are kept
under, and only names are checked against each other. So an unmarked class that is kept where a
relocated one goes, and that refers to some relocated class, takes its place. Nothing else does: a
relocated class is lost exactly by such a collision, unless its name is an array's descriptor, which
cannot be put below a tag in the first place.
-/

namespace JvmRelocation

open StoreProgram

/-- An unmarked input class is kept at a path and refers to some relocated class. -/
def Collides (input : MemoryStore) (table : RelocationTable) (path : String) : Prop :=
  ∃ c s, path ∈ input.classPaths ∧ input.class? path = some c ∧
    table.contains c.declaredName = false ∧ c.substitute table.mapper = .ok s ∧ s.changed = true

/-- Content that comes from a class in two steps: it is renamed by itself, read again, and what it
says of other classes is renamed. -/
def RelocatedCopy (tag : String) (table : RelocationTable) (c : LoadedClass) (bytes : Bytes) : Prop :=
  ∃ s c₁ s', c.substitute (.single c.declaredName (relocatedName tag c.declaredName)) = .ok s ∧
    LoadedClass.parse s.bytes = .ok c₁ ∧ c₁.substitute table.mapper = .ok s' ∧ s'.bytes = bytes

/-- The store that a run leaves behind has, at the path of the new name, a class of that name which
comes from the input class of the old name. -/
def Survives (tag : String) (table : RelocationTable) (input final : MemoryStore)
    (old new : String) : Prop :=
  ∃ path c bytes c', path ∈ input.classPaths ∧ input.class? path = some c ∧ c.declaredName = old ∧
    final.get? (classPath new) = some bytes ∧ RelocatedCopy tag table c bytes ∧
    LoadedClass.parse bytes = .ok c' ∧ c'.declaredName = new

/-- A name that no renaming by a mapper turns into the given one: an array's descriptor, or another
name that the mapper keeps. -/
def Avoids (m : NameMapper) (new name : String) : Prop :=
  NameRole.isArray name = true ∨ m name = none ∧ name ≠ new

theorem Avoids.renamed {m : NameMapper} {new name : String} (h : Avoids m new name) :
    Avoids m new (NameRole.className.renamed m name) := by
  cases harray : NameRole.isArray name with
  | true => exact .inl (NameRole.isArray_renamed harray m)
  | false =>
    obtain htrue | ⟨hnone, hne⟩ := h
    · rw [harray] at htrue
      cases htrue
    · rw [NameRole.renamed_of_not_isArray harray, NameMapper.rename, hnone]
      exact .inr ⟨hnone, hne⟩

theorem Avoids.ne {m : NameMapper} {new name : String} (h : Avoids m new name)
    (hnew : NameRole.isArray new = false) : name ≠ new := by
  rintro rfl
  obtain htrue | ⟨-, hne⟩ := h
  · rw [hnew] at htrue
    cases htrue
  · exact hne rfl

theorem RelocationTable.mapper_eq_none {table : RelocationTable} {name : String}
    (h : table.contains name = false) : table.mapper name = none := by
  rw [contains, Std.TreeMap.contains_eq_isSome_getElem?, Option.isSome_eq_false_iff,
    Option.isNone_iff_eq_none] at h
  rwa [mapper, get?, Std.TreeMap.get?_eq_getElem?]

/-- What propagation writes is exactly what collides. -/
theorem collides_iff {input : MemoryStore} {table : RelocationTable} {path : String} :
    Collides input table path ↔
      path ∈ input.classPaths ∧ ∃ bytes, propagated input table path = some bytes := by
  constructor
  · rintro ⟨c, s, hpath, hclass, hunmarked, hsub, hchanged⟩
    refine ⟨hpath, s.bytes, ?_⟩
    rw [propagated_of_substitute hclass hunmarked hsub, hchanged]
    rfl
  · rintro ⟨hpath, bytes, hbytes⟩
    obtain ⟨c, s, hclass, hunmarked, hsub, hchanged, -⟩ := propagated_eq_some hbytes
    exact ⟨c, s, hpath, hclass, hunmarked, hsub, hchanged⟩

namespace Relocated

variable {tag marker : String} {input output : MemoryStore} {report : RelocationReport}
  {final : MemoryStore} {classes : List (String × LoadedClass)} {found : Discovery}
  {copied propagatedTo : MemoryStore}

theorem written_iff
    (h : Relocated tag marker input output report final classes found copied propagatedTo)
    {path : String} :
    path ∈ found.report.written ↔ ∃ e ∈ classes, e.2.hasMarker marker = true ∧
      classPath (relocatedName tag e.2.declaredName) = path := by
  simp only [h.discovered.written, List.mem_map, List.mem_filter, and_assoc]

/-- What fixup reads at a path that discovery has written: the propagated class, if there is one,
and otherwise what discovery has written. -/
theorem before_fixUp
    (h : Relocated tag marker input output report final classes found copied propagatedTo)
    (path : String) : propagatedTo.get? path =
      ((if path ∈ input.classPaths then propagated input found.table path else none).or
        (copied.get? path)) :=
  (yields_propagate h.propagate).2 path

theorem fixedUp
    (h : Relocated tag marker input output report final classes found copied propagatedTo)
    {path : String} (hpath : path ∈ found.report.written) :
    FixedUp found.table propagatedTo final path :=
  (yields_fixUp h.discovered.written_nodup h.fixUp).1 path hpath

/-- A path that some phase has written is written by discovery, or by propagation. -/
theorem written_cases
    (h : Relocated tag marker input output report final classes found copied propagatedTo)
    {path : String} (hpath : ∃ r ∈ report.phases, path ∈ r.written) :
    path ∈ found.report.written ∨ Collides input found.table path := by
  obtain ⟨r, hr, hmem⟩ := hpath
  simp only [RelocationReport.phases, List.mem_cons, List.not_mem_nil, or_false] at hr
  obtain rfl | rfl | rfl := hr
  · rw [h.discovery] at hmem
    exact .inl hmem
  · rw [(yields_propagate h.propagate).1, List.mem_filter, Option.isSome_iff_exists] at hmem
    exact .inr (collides_iff.mpr hmem)
  · exact .inl ((yields_fixUp h.discovered.written_nodup h.fixUp).2.2 path hmem)

/-- What fixup does not write is what was there before. -/
theorem get?_of_not_fixedUp
    (h : Relocated tag marker input output report final classes found copied propagatedTo)
    {path : String} (hpath : path ∉ found.report.written) :
    final.get? path = propagatedTo.get? path :=
  (yields_fixUp h.discovered.written_nodup h.fixUp).2.1 path hpath

/-- No input class has a relocated name. -/
theorem not_contains_relocated
    (h : Relocated tag marker input output report final classes found copied propagatedTo)
    {e : String × LoadedClass} (he : e ∈ classes) (hmarked : e.2.hasMarker marker = true) :
    found.table.contains (relocatedName tag e.2.declaredName) = false := by
  rw [Bool.eq_false_iff, ne_eq, h.discovered.contains_eq_true]
  rintro ⟨e', he', -, hname⟩
  exact h.discovered.fresh e he hmarked e' he' hname

/-- Where there is a collision, fixup finds the unmarked class, renamed. -/
theorem before_of_collides
    (h : Relocated tag marker input output report final classes found copied propagatedTo)
    {path : String} (hcollides : Collides input found.table path) :
    ∃ u s, (path, u) ∈ classes ∧ found.table.contains u.declaredName = false ∧
      u.substitute found.table.mapper = .ok s ∧ propagatedTo.get? path = some s.bytes := by
  obtain ⟨u, s, hpath, hclass, hunmarked, hsub, hchanged⟩ := hcollides
  refine ⟨u, s, h.discovered.mem_classes.mpr ⟨hpath, hclass⟩, hunmarked, hsub, ?_⟩
  rw [h.before_fixUp, if_pos hpath, propagated_of_substitute hclass hunmarked hsub, hchanged]
  rfl

theorem mem_renamings_of_unmarked
    (h : Relocated tag marker input output report final classes found copied propagatedTo)
    {path : String} {u : LoadedClass} (hu : (path, u) ∈ classes)
    (hunmarked : found.table.contains u.declaredName = false) :
    (u, found.table.mapper) ∈ renamings tag marker input output := by
  refine h.mem_renamings_of_input hu (if_neg ?_).symm
  rw [(h.discovered.contains_declaredName_eq_false hu).mp hunmarked]
  exact Bool.false_ne_true

/-- What renaming an unmarked class by the table writes fits. -/
theorem fits_unmarked
    (h : Relocated tag marker input output report final classes found copied propagatedTo)
    (hfits : RunFits tag marker input output) {path : String} {u : LoadedClass}
    (hu : (path, u) ∈ classes) (hunmarked : found.table.contains u.declaredName = false) :
    u.Fits found.table.mapper :=
  hfits (u, found.table.mapper) (h.mem_renamings_of_unmarked hu hunmarked)

/-- A class that takes the place of a relocated one has another name. -/
theorem declaredName_ne_of_collides
    (h : Relocated tag marker input output report final classes found copied propagatedTo)
    (hfits : RunFits tag marker input output) {e : String × LoadedClass} (he : e ∈ classes)
    (hmarked : e.2.hasMarker marker = true)
    (hcollides : Collides input found.table (classPath (relocatedName tag e.2.declaredName)))
    {bytes : Bytes} {c' : LoadedClass}
    (hfinal : final.get? (classPath (relocatedName tag e.2.declaredName)) = some bytes)
    (hparse : LoadedClass.parse bytes = .ok c') :
    c'.declaredName ≠ relocatedName tag e.2.declaredName := by
  have hnew := isArray_relocatedName (validTag_of_tagFault? h.tag_valid) e.2.declaredName
  obtain ⟨u, s, hu, hunmarked, hsub, hbefore⟩ := h.before_of_collides hcollides
  -- the unmarked class keeps away from the new name through both renamings
  have havoids : Avoids found.table.mapper (relocatedName tag e.2.declaredName) u.declaredName :=
    .inr ⟨RelocationTable.mapper_eq_none hunmarked, h.discovered.fresh e he hmarked _ hu⟩
  obtain ⟨source, -, hparseU⟩ := MemoryStore.class?_eq_some.mp (h.discovered.mem_classes.mp hu).2
  obtain ⟨-, u₁, pool, changes, -, hrenamed, hbytes⟩ := LoadedClass.substitute_eq_ok hparseU hsub
  obtain ⟨c₁, s', hclass₁, hsub', hafter⟩ := h.fixedUp (h.written_iff.mpr ⟨e, he, hmarked, rfl⟩)
  obtain ⟨source₁, hget₁, hparse₁⟩ := MemoryStore.class?_eq_some.mp hclass₁
  obtain rfl : s.bytes = source₁ := Option.some.inj (hbefore.symm.trans hget₁)
  obtain rfl : s'.bytes = bytes := Option.some.inj (hafter.symm.trans hfinal)
  have hname₁ : c₁.declaredName = NameRole.className.renamed found.table.mapper u.declaredName := by
    exact (LoadedClass.parse_renamed_eq_ok hparseU hrenamed (h.fits_unmarked hfits hu hunmarked)
      (hbytes ▸ hparse₁)).2
  obtain ⟨-, c₂, pool', changes', -, hrenamed', hbytes'⟩ := LoadedClass.substitute_eq_ok hparse₁ hsub'
  have hname : c'.declaredName =
      NameRole.className.renamed found.table.mapper c₁.declaredName := by
    refine (LoadedClass.parse_renamed_eq_ok hparse₁ hrenamed' ?_ (hbytes' ▸ hparse)).2
    exact h.fits_copied hfits (h.written_iff.mpr ⟨e, he, hmarked, rfl⟩) hclass₁
  rw [hname, hname₁]
  exact havoids.renamed.renamed.ne hnew

/-- A relocated class that nothing collides with is, in the end, its own copy with the names of all
relocated classes in place. -/
theorem copy_of_not_collides
    (h : Relocated tag marker input output report final classes found copied propagatedTo)
    {e : String × LoadedClass} (he : e ∈ classes) (hmarked : e.2.hasMarker marker = true)
    (hfree : ¬Collides input found.table (classPath (relocatedName tag e.2.declaredName))) :
    ∃ s c₁ s', e.2.substitute (.single e.2.declaredName (relocatedName tag e.2.declaredName)) = .ok s ∧
      propagatedTo.class? (classPath (relocatedName tag e.2.declaredName)) = some c₁ ∧
      LoadedClass.parse s.bytes = .ok c₁ ∧ c₁.substitute found.table.mapper = .ok s' ∧
      final.get? (classPath (relocatedName tag e.2.declaredName)) = some s'.bytes := by
  obtain ⟨s, hsub, hcopied⟩ := h.discovered.copied e he hmarked
  have hbefore := h.before_fixUp (classPath (relocatedName tag e.2.declaredName))
  -- propagation has not written here, so fixup reads what discovery has written
  have hnone : (if classPath (relocatedName tag e.2.declaredName) ∈ input.classPaths then
        propagated input found.table (classPath (relocatedName tag e.2.declaredName))
      else none) = none := by
    split
    case isFalse => rfl
    case isTrue hpath =>
      rw [← Option.not_isSome_iff_eq_none, Option.isSome_iff_exists]
      exact fun hsome => hfree (collides_iff.mpr ⟨hpath, hsome⟩)
  rw [hnone, Option.none_or, hcopied] at hbefore
  obtain ⟨c₁, s', hclass₁, hsub', hafter⟩ := h.fixedUp (h.written_iff.mpr ⟨e, he, hmarked, rfl⟩)
  obtain ⟨source₁, hget₁, hparse₁⟩ := MemoryStore.class?_eq_some.mp hclass₁
  obtain rfl : s.bytes = source₁ := Option.some.inj (hbefore.symm.trans hget₁)
  exact ⟨s, c₁, s', hsub, hclass₁, hparse₁, hsub', hafter⟩

/-- A relocated class that nothing collides with survives exactly if its name is no array's
descriptor. -/
theorem survives_iff_of_not_collides
    (h : Relocated tag marker input output report final classes found copied propagatedTo)
    (hfits : RunFits tag marker input output) {e : String × LoadedClass} (he : e ∈ classes)
    (hmarked : e.2.hasMarker marker = true)
    (hfree : ¬Collides input found.table (classPath (relocatedName tag e.2.declaredName))) :
    Survives tag found.table input final e.2.declaredName (relocatedName tag e.2.declaredName) ↔
      NameRole.isArray e.2.declaredName = false := by
  have hvalid := validTag_of_tagFault? h.tag_valid
  have hnew := isArray_relocatedName hvalid e.2.declaredName
  obtain ⟨hpath, hclass⟩ := h.discovered.mem_classes.mp he
  obtain ⟨source, -, hparse⟩ := MemoryStore.class?_eq_some.mp hclass
  obtain ⟨s, c₁, s', hsub, hclass₁, hparse₁, hsub', hfinal⟩ := h.copy_of_not_collides he hmarked hfree
  obtain ⟨-, copy, pool, changes, -, hrenamed, hbytes⟩ := LoadedClass.substitute_eq_ok hparse hsub
  obtain ⟨-, last, pool', changes', -, hrenamed', hbytes'⟩ := LoadedClass.substitute_eq_ok hparse₁ hsub'
  have hname₁ := (LoadedClass.parse_renamed_eq_ok hparse hrenamed
    (h.fits_input hfits he (by rw [if_pos hmarked])) (hbytes ▸ hparse₁)).2
  have hfits₁ := h.fits_copied hfits (h.written_iff.mpr ⟨e, he, hmarked, rfl⟩) hclass₁
  constructor
  · rintro ⟨-, -, bytes, c', -, -, -, hget, -, hparse', hname'⟩
    obtain rfl : s'.bytes = bytes := Option.some.inj (hfinal.symm.trans hget)
    have hname := (LoadedClass.parse_renamed_eq_ok hparse₁ hrenamed' hfits₁ (hbytes' ▸ hparse')).2
    rw [Bool.eq_false_iff]
    intro harray
    -- the descriptor of an array stays one through both renamings, and a new name is none
    have hstays := NameRole.isArray_renamed (NameRole.isArray_renamed harray
      (.single e.2.declaredName (relocatedName tag e.2.declaredName))) found.table.mapper
    rw [← hname₁, ← hname, hname', hnew] at hstays
    cases hstays
  · intro hplain
    have hone : c₁.declaredName = relocatedName tag e.2.declaredName := by
      rw [hname₁, NameRole.renamed_of_not_isArray hplain, NameMapper.rename, NameMapper.single,
        if_pos rfl]
      rfl
    have htwo : NameRole.className.renamed found.table.mapper c₁.declaredName =
        relocatedName tag e.2.declaredName := by
      rw [hone, NameRole.renamed_of_not_isArray hnew, NameMapper.rename,
        RelocationTable.mapper_eq_none (h.not_contains_relocated he hmarked)]
      rfl
    have husable : isPathName (relocatedName tag e.2.declaredName) = true :=
      isPathName_relocatedName hvalid
        (ClassFile.resolveHeader_eq_ok.mp (LoadedClass.parse_ok hparse).2.1).2.1
    have hparse' := LoadedClass.parse_renamed hparse₁ hrenamed' hfits₁ (htwo ▸ husable)
    exact ⟨e.1, e.2, s'.bytes, _, hpath, hclass, rfl, hfinal, ⟨s, c₁, s', hsub, hparse₁, hsub', rfl⟩,
      hbytes' ▸ hparse', htwo⟩

end Relocated

/-- **Which relocated classes survive.** A path that discovery has written is written again by
propagation exactly where there is a collision. A relocated class survives the run exactly if there
is none at its path and its old name is no array's descriptor. -/
theorem relocate_survives_iff {tag marker : String} {input output final : MemoryStore}
    {report : RelocationReport} (h : (relocate tag marker).Yields input output report final)
    (hfits : RunFits tag marker input output) :
    (∀ path ∈ report.discovery.written,
      path ∈ report.propagation.written ↔ Collides input report.table path) ∧
    ∀ old new, report.table.get? old = some new →
      (Survives tag report.table input final old new ↔
        NameRole.isArray old = false ∧ ¬Collides input report.table (classPath new)) := by
  obtain ⟨classes, found, copied, propagatedTo, hrun⟩ := yields_relocate h
  rw [hrun.table]
  constructor
  · intro path _
    rw [(yields_propagate hrun.propagate).1, List.mem_filter, Option.isSome_iff_exists, collides_iff]
  · intro old new hnew
    obtain ⟨rfl, e, he, hmarked, rfl⟩ := (hrun.discovered.table old new).mp hnew
    by_cases hcollides : Collides input found.table (classPath (relocatedName tag e.2.declaredName))
    -- the path ends up with the unmarked class, under another name
    · constructor
      · rintro ⟨-, -, bytes, c', -, -, -, hfinal, -, hparse, hname⟩
        exact absurd hname
          (hrun.declaredName_ne_of_collides hfits he hmarked hcollides hfinal hparse)
      · rintro ⟨-, hfree⟩
        exact absurd hcollides hfree
    · rw [hrun.survives_iff_of_not_collides hfits he hmarked hcollides]
      exact ⟨fun hplain => ⟨hplain, hcollides⟩, fun hboth => hboth.1⟩

/-- A store with a marked class `p/A`, a marked class `p/B` that refers to it and an unmarked class
`q/U` that does so too, of which the last is kept at the given path. -/
def surveySample (path : String) : MemoryStore :=
  .ofList [
    ("p/A.class", LoadedClass.built "p/A" (ClassBuilder.addVisible defaultMarker)),
    ("p/B.class", LoadedClass.built "p/B" do
      ClassBuilder.addVisible defaultMarker
      ClassBuilder.addField "a" "Lp/A;"),
    (path, LoadedClass.built "q/U" (ClassBuilder.addField "a" "[Lp/A;"))]

theorem relocate_survives_iff_misplaced :
    ∃ report final,
      (relocate "v1" defaultMarker).Yields (surveySample "lib/U.class") .empty report final ∧
      RunFits "v1" defaultMarker (surveySample "lib/U.class") .empty ∧
      (report.table.get? "p/A" = some "v1/p/A" ∧ report.propagation.written = ["lib/U.class"]) ∧
      (∀ path ∈ report.discovery.written, path ∈ report.propagation.written ↔
        Collides (surveySample "lib/U.class") report.table path) ∧
      ∀ old new, report.table.get? old = some new →
        (Survives "v1" report.table (surveySample "lib/U.class") final old new ↔
          NameRole.isArray old = false ∧
            ¬Collides (surveySample "lib/U.class") report.table (classPath new)) := by
  have hcheck : (((relocate "v1" defaultMarker).on (surveySample "lib/U.class") .empty).1.toOption.any
      fun report => report.table.get? "p/A" = some "v1/p/A" &&
        report.propagation.written = ["lib/U.class"]) = true := by
    decide +kernel
  have hfits : RunFits "v1" defaultMarker (surveySample "lib/U.class") .empty := by decide +kernel
  obtain ⟨report, hreport, hcheck⟩ := exists_ok_of_any hcheck
  simp only [Bool.and_eq_true, decide_eq_true_eq] at hcheck
  have hyields : (relocate "v1" defaultMarker).Yields (surveySample "lib/U.class") .empty report
      ((relocate "v1" defaultMarker).on (surveySample "lib/U.class") .empty).2 :=
    Prod.ext hreport rfl
  exact ⟨report, _, hyields, hfits, hcheck, relocate_survives_iff hyields hfits⟩

/-- A relocated class can be lost: `q/U` is kept where `p/A` goes, and `q/U` is what is there in the
end. -/
theorem relocate_loses_class :
    ¬∀ (tag marker : String) (input output final : MemoryStore) (report : RelocationReport),
      (relocate tag marker).Yields input output report final → RunFits tag marker input output →
      (∀ path ∈ report.discovery.written, path ∉ report.propagation.written) ∧
        ∀ old new, report.table.get? old = some new →
          Survives tag report.table input final old new := by
  intro hall
  have hcheck : (((relocate "v1" defaultMarker).on (surveySample "v1/p/A.class") .empty).1.toOption.any
      fun report => report.table.get? "p/A" = some "v1/p/A") = true := by
    decide +kernel
  have hfinal : ((((relocate "v1" defaultMarker).on (surveySample "v1/p/A.class") .empty).2.class?
      "v1/p/A.class").any fun c => c.declaredName = "q/U") = true := by
    decide +kernel
  have hfits : RunFits "v1" defaultMarker (surveySample "v1/p/A.class") .empty := by decide +kernel
  obtain ⟨report, hreport, hcheck⟩ := exists_ok_of_any hcheck
  simp only [Option.any_eq_true, decide_eq_true_eq] at hcheck hfinal
  have hyields : (relocate "v1" defaultMarker).Yields (surveySample "v1/p/A.class") .empty report
      ((relocate "v1" defaultMarker).on (surveySample "v1/p/A.class") .empty).2 :=
    Prod.ext hreport rfl
  obtain ⟨-, hsurvive⟩ := hall _ _ _ _ _ _ hyields hfits
  obtain ⟨-, -, bytes, c', -, -, -, hget, -, hparse, hname⟩ := hsurvive _ _ hcheck
  obtain ⟨c, hclass, hother⟩ := hfinal
  obtain ⟨bytes', hget', hparse'⟩ := MemoryStore.class?_eq_some.mp hclass
  obtain rfl : bytes = bytes' := Option.some.inj (hget.symm.trans hget')
  obtain rfl : c' = c := Except.ok.inj (hparse.symm.trans hparse')
  rw [hname] at hother
  exact absurd hother (by decide)

end JvmRelocation
