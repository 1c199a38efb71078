import JvmRelocation.Proofs.Name.TaggedPaths
import JvmRelocation.Proofs.Relocation.OldNames

/-!
# A relocated class is what one renaming makes of it

Discovery renames a marked class by itself, and fixup renames the result by the table. The class
could also be renamed by the table at once. Both ways lead to the same texts, except for inner
classes in signatures whose simple name does not come out as it was: the first renaming cuts that
name at its last dollar sign where the outermost class still has its old name.
-/

namespace JvmRelocation

namespace ClassFile

/-- Two sites at one place of two classes, which refer to the same text: to the same characters, or
to the same bytes where these are none. -/
structure SameText (d d' : ClassFile) (s s' : NameSite) : Prop where
  location : s'.location = s.location
  role : s'.role = s.role
  text : d'.pool.text? s'.index = d.pool.text? s.index
  raw : d.pool.text? s.index = none → d'.pool.utf8Bytes s'.index = d.pool.utf8Bytes s.index

variable {m₁ m : NameMapper} {c c₁ d d' : ClassFile} {s s₁ s₂ : NameSite}

/-- A text that is renamed twice is renamed by the second mapper, if that holds of its role. -/
theorem SiteRenamed.trans (h₁ : SiteRenamed m₁ c c₁ s s₁) (h₂ : SiteRenamed m c₁ d s₁ s₂)
    (h : ∀ v, c.pool.text? s.index = some v →
      s.role.renamed m (s.role.renamed m₁ v) = s.role.renamed m v) : SiteRenamed m c d s s₂ := by
  refine ⟨h₂.location.trans h₁.location, h₂.role.trans h₁.role, fun v hv => ?_, fun hnone => ?_⟩
  · rw [h₂.text _ (h₁.text v hv), h₁.role, h v hv]
  · have hnone₁ : c₁.pool.text? s₁.index = none := by
      rw [ConstantPool.text?_eq (h₁.raw hnone), hnone]
    rw [h₂.raw hnone₁, h₁.raw hnone]

/-- Two classes that come from one class by the same renaming refer to the same texts. -/
theorem SiteRenamed.sameText (h : SiteRenamed m c d s s₁) (h' : SiteRenamed m c d' s s₂) :
    SameText d d' s₁ s₂ := by
  refine ⟨h'.location.trans h.location.symm, h'.role.trans h.role.symm, ?_, fun hnone => ?_⟩
  · cases hv : c.pool.text? s.index with
    | none =>
      exact ConstantPool.text?_eq ((h'.raw hv).trans (h.raw hv).symm)
    | some v => rw [h'.text v hv, h.text v hv]
  · cases hv : c.pool.text? s.index with
    | none => rw [h'.raw hv, h.raw hv]
    | some v =>
      rw [h.text v hv] at hnone
      cases hnone

theorem sitesRenamed_trans {sites sites₁ sites₂ : List NameSite}
    (h₁ : List.Forall₂ (SiteRenamed m₁ c c₁) sites sites₁)
    (h₂ : List.Forall₂ (SiteRenamed m c₁ d) sites₁ sites₂)
    (h : ∀ s ∈ sites, ∀ v, c.pool.text? s.index = some v →
      s.role.renamed m (s.role.renamed m₁ v) = s.role.renamed m v) :
    List.Forall₂ (SiteRenamed m c d) sites sites₂ := by
  induction h₁ generalizing sites₂ with
  | nil =>
    cases h₂
    exact .nil
  | cons hfirst _ ih =>
    cases h₂ with
    | cons hsecond hrest =>
      rw [List.forall_mem_cons] at h
      exact .cons (hfirst.trans hsecond h.1) (ih hrest h.2)

theorem sitesSameText {sites sites₁ sites₂ : List NameSite}
    (h₁ : List.Forall₂ (SiteRenamed m c d) sites sites₁)
    (h₂ : List.Forall₂ (SiteRenamed m c d') sites sites₂) :
    List.Forall₂ (SameText d d') sites₁ sites₂ := by
  induction h₁ generalizing sites₂ with
  | nil =>
    cases h₂
    exact .nil
  | cons hfirst _ ih =>
    cases h₂ with
    | cons hsecond hrest => exact .cons (hfirst.sameText hsecond) (ih hrest)

/-- The sites of a renamed class are at the places they were. -/
theorem places_of_renamed {sites sites₁ : List NameSite}
    (h : List.Forall₂ (SiteRenamed m c d) sites sites₁) :
    sites₁.map (fun s => (s.location, s.role)) = sites.map fun s => (s.location, s.role) := by
  induction h with
  | nil => rfl
  | cons hfirst _ ih => rw [List.map_cons, List.map_cons, ih, hfirst.location, hfirst.role]

end ClassFile

/-- The results of two renamings are read again, have the name sites of the class, and refer to the
same texts there. -/
def ReachSameTexts (c : LoadedClass) (bytes bytes' : Bytes) : Prop :=
  ∃ d d' found found₁ found₂, LoadedClass.parse bytes = .ok d ∧ LoadedClass.parse bytes' = .ok d' ∧
    c.nameSites = .ok found ∧ d.nameSites = .ok found₁ ∧ d'.nameSites = .ok found₂ ∧
    found₁.sites.map (fun s => (s.location, s.role)) =
      found.sites.map (fun s => (s.location, s.role)) ∧
    List.Forall₂ (ClassFile.SameText d.toClassFile d'.toClassFile) found₁.sites found₂.sites

/-- Classes that refer to the same texts at their name sites have the same texts there. -/
theorem ReachSameTexts.siteTexts_eq {c d d' : LoadedClass} {bytes bytes' : Bytes}
    (h : ReachSameTexts c bytes bytes') (hd : LoadedClass.parse bytes = .ok d)
    (hd' : LoadedClass.parse bytes' = .ok d') : d.siteTexts = d'.siteTexts := by
  obtain ⟨e, e', -, sites, sites', he, he', -, hsites, hsites', -, hsame⟩ := h
  obtain rfl : d = e := Except.ok.inj (hd.symm.trans he)
  obtain rfl : d' = e' := Except.ok.inj (hd'.symm.trans he')
  rw [ClassFile.siteTexts, ClassFile.siteTexts, hsites, hsites']
  dsimp only
  generalize sites.sites = list, sites'.sites = list' at hsame
  induction hsame with
  | nil => rfl
  | cons hfirst _ ih => simp only [List.filterMap_cons, hfirst.text, hfirst.role, ih]

/-- The classes that get new names have names that are usable as paths. -/
theorem Discovered.isPathName_of_mapped {tag marker : String} {input output output' : MemoryStore}
    {classes : List (String × LoadedClass)} {found : Discovery}
    (h : Discovered tag marker input output classes found output') {name : String}
    (hname : (found.table.mapper name).isSome = true) : isPathName name = true := by
  rw [RelocationTable.isSome_mapper, h.contains_eq_true] at hname
  obtain ⟨e, he, -, rfl⟩ := hname
  obtain ⟨source, -, hparse⟩ := MemoryStore.class?_eq_some.mp (h.mem_classes.mp he).2
  exact (ClassFile.resolveHeader_eq_ok.mp (LoadedClass.parse_ok hparse).2.1).2.1

/-- Both ways from a class to its last form: it is renamed by itself, read again and renamed by the
table, or it is renamed by the table at once. -/
structure BothWays (tag : String) (table : RelocationTable) (c c₁ : LoadedClass)
    (s₁ s₂ s : Substitution) : Prop where
  first : c.substitute (.single c.declaredName (relocatedName tag c.declaredName)) = .ok s₁
  again : LoadedClass.parse s₁.bytes = .ok c₁
  second : c₁.substitute table.mapper = .ok s₂
  direct : c.substitute table.mapper = .ok s

/-- Every text that is written on either way fits its length field. -/
structure BothFit (tag : String) (table : RelocationTable) (c c₁ : LoadedClass) : Prop where
  first : c.Fits (.single c.declaredName (relocatedName tag c.declaredName))
  second : c₁.Fits table.mapper
  direct : c.Fits table.mapper

/-- **Both ways agree.** A marked class that is renamed by itself, read again and renamed by the
table refers at every name site to the text that the table at once makes of it. The texts that are
written have to fit, the tag must not hold the bracket that ends a class name in a signature, and
the simple names of inner classes in its signatures have to come out as they were. -/
theorem discover_agrees_with_table {tag marker : String} {input output copied : MemoryStore}
    {found : Discovery} (htag : tagFault? tag = none)
    (hdiscover : (discover tag marker).Yields input output found copied) {path : String}
    {c c₁ : LoadedClass} (hpath : path ∈ input.classPaths) (hclass : input.class? path = some c)
    (hmarked : c.hasMarker marker = true) {s₁ s₂ s : Substitution}
    (hways : BothWays tag found.table c c₁ s₁ s₂ s) (hfits : BothFit tag found.table c c₁)
    (hbracket : '<' ∉ tag.toList)
    (hstable : ∀ e ∈ c.siteTexts, ∀ segment ∈ e.1.innerSegments e.2,
      segment.Stable tag c.declaredName found.table.mapper) :
    ReachSameTexts c s₂.bytes s.bytes := by
  have hvalid := validTag_of_tagFault? htag
  obtain ⟨classes, h⟩ := yields_discover hdiscover
  have hstaged := h.staged_single (h.mem_classes.mpr ⟨hpath, hclass⟩) hmarked
  obtain ⟨source, -, hparse⟩ := MemoryStore.class?_eq_some.mp hclass
  -- what the table renames is read again, since a class keeps a name that is usable as a path
  have hread {source : Bytes} {c : LoadedClass} {s : Substitution}
      (hparse : LoadedClass.parse source = .ok c) (hsub : c.substitute found.table.mapper = .ok s)
      (hfits : c.Fits found.table.mapper) : ∃ d, LoadedClass.parse s.bytes = .ok d :=
    LoadedClass.exists_parse_of_substitute hparse hsub hfits
      (isPathName_renamed hstaged.tags hvalid (fun _ => h.isPathName_of_mapped)
        (ClassFile.resolveHeader_eq_ok.mp (LoadedClass.parse_ok hparse).2.1).2.1)
  obtain ⟨d, hd⟩ := hread hways.again hways.second hfits.second
  obtain ⟨d', hd'⟩ := hread hparse hways.direct hfits.direct
  obtain ⟨-, sites, sites₁, hsites, hsites₁, hfirst⟩ := LoadedClass.sitesRenamed_of_tags
    hstaged.tags_first hvalid hbracket hparse hways.first hfits.first hways.again
  obtain ⟨-, sites₁', sites₂, hsites₁', hsites₂, hsecond⟩ := LoadedClass.sitesRenamed_of_tags
    hstaged.tags hvalid hbracket hways.again hways.second hfits.second hd
  obtain ⟨-, sites', sites₃, hsites', hsites₃, hdirect⟩ := LoadedClass.sitesRenamed_of_tags
    hstaged.tags hvalid hbracket hparse hways.direct hfits.direct hd'
  obtain rfl : sites₁ = sites₁' := Except.ok.inj (hsites₁.symm.trans hsites₁')
  obtain rfl : sites = sites' := Except.ok.inj (hsites.symm.trans hsites')
  -- site by site, the two renamings in a row are the one by the table
  have htwice := ClassFile.sitesRenamed_trans hfirst hsecond fun site hsite v hv =>
    NameRole.renamed_single hstaged hvalid hbracket
      (hstable (site.role, v) ((ClassFile.mem_siteTexts hsites).mpr ⟨site, hsite, hv, rfl⟩))
  exact ⟨d, d', sites, sites₂, sites₃, hd, hd', hsites, hsites₂, hsites₃,
    ClassFile.places_of_renamed htwice, ClassFile.sitesSameText htwice hdirect⟩

/-! ### Classes with inner classes in their signatures -/

/-- A store with a marked class of the given signature, and other marked classes. -/
def signatureSample (name signature : String) (others : List String) : MemoryStore :=
  .ofList ((classPath name, LoadedClass.built name do
      ClassBuilder.addVisible defaultMarker
      ClassBuilder.addClassSignature signature) ::
    others.map fun other => (classPath other, LoadedClass.built other do
      ClassBuilder.addVisible defaultMarker))

/-- Checks that the marked class of the given name can be renamed on both ways, and that its
results have a property. -/
def checkBothWays (tag name : String) (input : MemoryStore)
    (P : RelocationTable → LoadedClass → Substitution → Substitution → Prop)
    [∀ table c s₂ s, Decidable (P table c s₂ s)] : Bool :=
  ((discover tag defaultMarker).on input .empty).1.toOption.any fun found =>
    (input.class? (classPath name)).any fun c => c.hasMarker defaultMarker &&
      (c.substitute (.single c.declaredName (relocatedName tag c.declaredName))).toOption.any
        fun s₁ => (LoadedClass.parse s₁.bytes).toOption.any fun c₁ =>
          (c₁.substitute found.table.mapper).toOption.any fun s₂ =>
            (c.substitute found.table.mapper).toOption.any fun s =>
              c.Fits (.single c.declaredName (relocatedName tag c.declaredName)) &&
                c₁.Fits found.table.mapper && c.Fits found.table.mapper && P found.table c s₂ s

theorem exists_bothWays {tag name : String} {input : MemoryStore}
    {P : RelocationTable → LoadedClass → Substitution → Substitution → Prop}
    [∀ table c s₂ s, Decidable (P table c s₂ s)] (hpath : classPath name ∈ input.classPaths)
    (hcheck : checkBothWays tag name input P = true) :
    ∃ found copied c c₁ s₁ s₂ s, (discover tag defaultMarker).Yields input .empty found copied ∧
      classPath name ∈ input.classPaths ∧ input.class? (classPath name) = some c ∧
      c.hasMarker defaultMarker = true ∧ BothWays tag found.table c c₁ s₁ s₂ s ∧
      BothFit tag found.table c c₁ ∧ P found.table c s₂ s := by
  obtain ⟨found, hfound, hcheck⟩ := exists_ok_of_any hcheck
  obtain ⟨c, hclass, hcheck⟩ := (Option.any_eq_true _ _).mp hcheck
  obtain ⟨hmarked, hcheck⟩ := Bool.and_eq_true_iff.mp hcheck
  obtain ⟨s₁, hfirst, hcheck⟩ := exists_ok_of_any hcheck
  obtain ⟨c₁, hagain, hcheck⟩ := exists_ok_of_any hcheck
  obtain ⟨s₂, hsecond, hcheck⟩ := exists_ok_of_any hcheck
  obtain ⟨s, hdirect, hcheck⟩ := exists_ok_of_any hcheck
  simp only [Bool.and_eq_true, decide_eq_true_eq] at hcheck
  obtain ⟨⟨⟨hfits₁, hfits₂⟩, hfits⟩, hp⟩ := hcheck
  exact ⟨found, _, c, c₁, s₁, s₂, s, Prod.ext hfound rfl, hpath, hclass, hmarked,
    ⟨hfirst, hagain, hsecond, hdirect⟩, ⟨hfits₁, hfits₂, hfits⟩, hp⟩

/-- A marked inner class whose signature mentions it inside its marked outermost class. -/
def ownInnerSample : MemoryStore :=
  signatureSample "p/A$B" "Lp/A<Lp/A$B;>.B;" ["p/A"]

theorem discover_agrees_with_table_ownInner :
    tagFault? "v1" = none ∧ '<' ∉ "v1".toList ∧ ∃ found copied c c₁ s₁ s₂ s,
      (discover "v1" defaultMarker).Yields ownInnerSample .empty found copied ∧
      "p/A$B.class" ∈ ownInnerSample.classPaths ∧
      ownInnerSample.class? "p/A$B.class" = some c ∧ c.hasMarker defaultMarker = true ∧
      BothWays "v1" found.table c c₁ s₁ s₂ s ∧ BothFit "v1" found.table c c₁ ∧
      (∀ e ∈ c.siteTexts, ∀ segment ∈ e.1.innerSegments e.2,
        segment.Stable "v1" c.declaredName found.table.mapper) ∧
      ReachSameTexts c s₂.bytes s.bytes := by
  obtain ⟨found, copied, c, c₁, s₁, s₂, s, hdiscover, hpath, hclass, hmarked, hways, hfits, hstable⟩ :=
    exists_bothWays (show classPath "p/A$B" ∈ ownInnerSample.classPaths by decide +kernel)
      (show checkBothWays "v1" "p/A$B" ownInnerSample (fun table c _ _ =>
        ∀ e ∈ c.siteTexts, ∀ segment ∈ e.1.innerSegments e.2,
          segment.Stable "v1" c.declaredName table.mapper) = true by decide +kernel)
  exact ⟨by decide, by decide, found, copied, c, c₁, s₁, s₂, s, hdiscover, hpath, hclass, hmarked,
    hways, hfits, hstable, discover_agrees_with_table (by decide) hdiscover hpath hclass hmarked
      hways hfits (by decide) hstable⟩

/-- Both ways agree for every marked input class of every discovery, if the tag, the table and the
class are as required. -/
def AgreeIf (required : String → RelocationTable → LoadedClass → Prop) : Prop :=
  ∀ (tag marker path : String) (input output copied : MemoryStore) (found : Discovery)
    (c c₁ : LoadedClass) (s₁ s₂ s : Substitution), tagFault? tag = none →
    (discover tag marker).Yields input output found copied → path ∈ input.classPaths →
    input.class? path = some c → c.hasMarker marker = true →
    BothWays tag found.table c c₁ s₁ s₂ s → BothFit tag found.table c c₁ →
    required tag found.table c → ReachSameTexts c s₂.bytes s.bytes

/-- The texts at the name sites of two results are not the same. -/
def textsDiffer (s s' : Substitution) : Bool :=
  (LoadedClass.parse s.bytes).toOption.any fun d =>
    (LoadedClass.parse s'.bytes).toOption.any fun d' => d.siteTexts != d'.siteTexts

theorem not_reachSameTexts {c : LoadedClass} {s s' : Substitution} (h : textsDiffer s s' = true) :
    ¬ReachSameTexts c s.bytes s'.bytes := by
  intro hsame
  obtain ⟨d, hd, h⟩ := exists_ok_of_any h
  obtain ⟨d', hd', h⟩ := exists_ok_of_any h
  rw [hsame.siteTexts_eq hd hd', bne_self_eq_false] at h
  cases h

/-- A class that is as required and comes out different on the two ways. -/
theorem not_agreeIf (tag name : String) (input : MemoryStore)
    {required : String → RelocationTable → LoadedClass → Prop}
    [∀ table c, Decidable (required tag table c)] (htag : tagFault? tag = none)
    (hpath : classPath name ∈ input.classPaths)
    (hcheck : checkBothWays tag name input (fun table c s₂ s =>
      textsDiffer s₂ s = true ∧ required tag table c) = true) : ¬AgreeIf required := by
  intro hall
  obtain ⟨found, copied, c, c₁, s₁, s₂, s, hdiscover, hpath, hclass, hmarked, hways, hfits,
    hdiffer, hrequired⟩ := exists_bothWays hpath hcheck
  exact not_reachSameTexts hdiffer (hall tag defaultMarker (classPath name) input .empty copied
    found c c₁ s₁ s₂ s htag hdiscover hpath hclass hmarked hways hfits hrequired)

/-- A marked inner class with a dollar sign in its simple name, whose outermost class is marked. -/
def dollarInnerSample : MemoryStore :=
  signatureSample "p/A$a$b" "Lp/A.a$b;" ["p/A"]

/-- A marked outermost class, where another marked class is named like the relocated inner one. -/
def dollarOuterSample : MemoryStore :=
  signatureSample "p/A" "Lp/A.a$b;" ["v1/p/A$a$b"]

/-- A marked class with a signature that mentions another one behind itself. -/
def twoTypesSample : MemoryStore :=
  signatureSample "p/A" "Lp/A;Lp/B;" ["p/B"]

/-- Neither condition on the simple names of inner classes can be left out, and neither can the one
on the tag. -/
theorem discover_disagrees_with_table :
    (¬AgreeIf fun tag table c => '<' ∉ tag.toList ∧
      ∀ e ∈ c.siteTexts, ∀ segment ∈ e.1.innerSegments e.2, segment.outermost = c.declaredName →
        segment.Stable tag c.declaredName table.mapper) ∧
    (¬AgreeIf fun tag table c => '<' ∉ tag.toList ∧
      ∀ e ∈ c.siteTexts, ∀ segment ∈ e.1.innerSegments e.2, segment.full = c.declaredName →
        segment.Stable tag c.declaredName table.mapper) ∧
    ¬AgreeIf fun tag table c => ∀ e ∈ c.siteTexts, ∀ segment ∈ e.1.innerSegments e.2,
      segment.Stable tag c.declaredName table.mapper := by
  refine ⟨?_, ?_, ?_⟩
  · exact not_agreeIf "v1" "p/A$a$b" dollarInnerSample (by decide) (by decide +kernel)
      (by decide +kernel)
  · exact not_agreeIf "v1" "p/A" dollarOuterSample (by decide) (by decide +kernel)
      (by decide +kernel)
  · exact not_agreeIf "a<b" "p/A" twoTypesSample (by decide) (by decide +kernel)
      (by decide +kernel)

end JvmRelocation
