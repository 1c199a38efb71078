import JvmRelocation.Proofs.Relocation.AnyStores
import JvmRelocation.Proofs.Relocation.Naming
import JvmRelocation.Proofs.Relocation.Survival
import JvmRelocation.Proofs.Relocation.TableEntries

/-!
# Variants under different tags

A tag that passes its check is the first segment of every name it is put in front of, so names under
two tags are never the same, even where a class has a name that starts with a tag already. Whatever
its stores answer, a discovery writes only at paths of names under its tag, one for each entry of its
table. So discoveries under two tags keep out of each other's way, and the second one may go into the
output of the first.
-/

namespace JvmRelocation

open StoreProgram

/-! ## Names under a tag -/

/-- A name tells the tag it was put under. -/
theorem ValidTag.eq_of_relocatedName {tag tag' name name' : String} (h : ValidTag tag)
    (h' : ValidTag tag') (heq : relocatedName tag name = relocatedName tag' name') : tag = tag' := by
  have hsegments := congrArg segments heq
  rw [segments_relocatedName h, segments_relocatedName h'] at hsegments
  exact (List.cons.inj hsegments).1

/-- A path of a name under a tag. -/
def UnderTag (tag path : String) : Prop :=
  ∃ name, path = classPath (relocatedName tag name)

/-- A path is not under two tags. -/
theorem UnderTag.unique {tag tag' path : String} (h : ValidTag tag) (h' : ValidTag tag')
    (hpath : UnderTag tag path) (hpath' : UnderTag tag' path) : tag = tag' := by
  obtain ⟨name, rfl⟩ := hpath
  obtain ⟨name', heq⟩ := hpath'
  exact h.eq_of_relocatedName h' (classPath_inj.mp heq)

/-! ## What a discovery writes and finds -/

/-- What a discovery under a tag has found: new names under the tag, with a path written for each. -/
structure Discovery.Variant (tag : String) (found : Discovery) : Prop where
  named : ∀ old new, found.table.get? old = some new → new = relocatedName tag old
  written : found.report.written.Perm (found.table.toList.map fun entry => classPath entry.2)

/-- The table of a survey lists the marked classes with their new names. -/
theorem Survey.Describes.toList_perm {tag marker : String} {s : Survey}
    {classes : List (String × LoadedClass)} (h : s.Describes tag marker classes) :
    s.table.toList.Perm ((classes.filter fun e => e.2.hasMarker marker).map fun e =>
      (e.2.declaredName, relocatedName tag e.2.declaredName)) := by
  have hlisted : s.table.toList.Nodup := by
    refine s.table.toList_sorted.imp fun hlt heq => ?_
    rw [heq] at hlt
    exact Std.OrientedCmp.not_lt_of_lt hlt hlt
  have hnames : ((classes.filter fun e => e.2.hasMarker marker).map fun e =>
      (e.2.declaredName, relocatedName tag e.2.declaredName)).Nodup := by
    refine List.Nodup.of_map (·.1) ?_
    rw [List.map_map]
    exact h.distinct.sublist (List.filter_sublist.map _)
  refine (List.perm_ext_iff_of_nodup hlisted hnames).mpr ?_
  rintro ⟨old, new⟩
  rw [RelocationTable.mem_toList, h.table, List.mem_map]
  constructor
  · rintro ⟨rfl, e, he, hmarked, rfl⟩
    exact ⟨e, List.mem_filter.mpr ⟨he, hmarked⟩, rfl⟩
  · rintro ⟨e, he, heq⟩
    obtain ⟨rfl, rfl⟩ := Prod.mk.inj heq
    exact ⟨rfl, e, (List.mem_filter.mp he).1, (List.mem_filter.mp he).2, rfl⟩

/-- Different names have different paths, and no path is written twice. -/
theorem Discovery.Variant.distinct {tag : String} {found : Discovery} (h : found.Variant tag) :
    found.report.written.Nodup ∧ ∀ old old' new new', found.table.get? old = some new →
      found.table.get? old' = some new' → old ≠ old' → classPath new ≠ classPath new' := by
  have hpaths (old old' new new' : String) (hnew : found.table.get? old = some new)
      (hnew' : found.table.get? old' = some new') (hne : old ≠ old') :
      classPath new ≠ classPath new' := by
    rw [h.named old new hnew, h.named old' new' hnew', ne_eq, classPath_inj, relocatedName_inj]
    exact hne
  refine ⟨?_, hpaths⟩
  rw [h.written.nodup_iff]
  refine List.pairwise_map.mpr (found.table.toList_sorted.imp_of_mem ?_)
  rintro ⟨old, new⟩ ⟨old', new'⟩ hlisted hlisted' hlt
  refine hpaths old old' new new' (RelocationTable.mem_toList.mp hlisted)
    (RelocationTable.mem_toList.mp hlisted') ?_
  rintro rfl
  exact Std.OrientedCmp.not_lt_of_lt hlt hlt

theorem Discovery.Variant.underTag {tag : String} {found : Discovery} (h : found.Variant tag) :
    ∀ path ∈ found.report.written, UnderTag tag path := by
  intro path hpath
  obtain ⟨⟨old, new⟩, hlisted, rfl⟩ := List.mem_map.mp (h.written.mem_iff.mp hpath)
  exact ⟨old, congrArg classPath (h.named old new (RelocationTable.mem_toList.mp hlisted))⟩

section

variable {writes : String → Prop} {tag marker : String}

theorem ensures_readClass (phase : Phase) (side : StoreSide) (path : String) :
    (readClass phase side path).Ensures writes (fun _ => True) fun _ => True := by
  refine (ensures_readFrom phase side path).bind fun bytes _ => ?_
  cases LoadedClass.parse bytes <;> trivial

theorem ensures_renameClass (phase : Phase) (path : String) (m : NameMapper) (c : LoadedClass) :
    (renameClass phase path m c).Ensures writes (fun _ => True) fun _ => True := by
  rw [renameClass]
  cases c.substitute m <;> trivial

theorem ensures_surveyPaths {s : Survey} {classes : List (String × LoadedClass)}
    (h : s.Describes tag marker classes) (paths : List String) :
    (surveyPaths tag marker s paths).Ensures writes (fun _ => True) fun s' =>
      ∃ classes', s'.Describes tag marker classes' := by
  induction paths generalizing s classes with
  | nil => exact ensures_pure ⟨classes, h⟩
  | cons path paths ih =>
    refine (ensures_readClass .discovery .input path).bind fun c _ => ?_
    refine (ensures_ofExcept (fun _ hnote => h.note hnote) fun _ _ => trivial).bind ?_
    exact fun s' hs' => ih hs'

theorem ensures_writeMarked {marked : List MarkedClass}
    (h : ∀ c ∈ marked, writes (classPath c.relocated)) (written : List String) :
    (writeMarked written marked).Ensures writes (fun _ => True) fun paths =>
      paths = written.reverse ++ marked.map fun c => classPath c.relocated := by
  induction marked generalizing written with
  | nil => exact ensures_pure (by simp)
  | cons c marked ih =>
    rw [List.forall_mem_cons] at h
    refine (ensures_renameClass .discovery c.path _ c.file).bind fun renamed _ => ?_
    refine (ensures_writeTo .discovery renamed.bytes h.1).bind fun _ _ => ?_
    have hrest := ih h.2 (classPath c.relocated :: written)
    rw [List.reverse_cons, List.append_assoc] at hrest
    exact hrest

/-- **A discovery writes under its tag**, whatever its stores answer. -/
theorem ensures_discover (tag marker : String) :
    (discover tag marker).Ensures (UnderTag tag) (fun _ => True) (·.Variant tag) := by
  refine (ensures_listInput .discovery).bind fun paths _ => ?_
  refine (ensures_surveyPaths (Survey.describes_empty tag marker) paths).bind ?_
  rintro s ⟨classes, hdescribes⟩
  refine (ensures_ofExcept (fun _ _ => trivial) fun _ _ => trivial).bind fun _ (_ : True) => ?_
  have hunder : ∀ c ∈ s.marked.reverse, UnderTag tag (classPath c.relocated) := by
    intro c hc
    rw [hdescribes.marked] at hc
    obtain ⟨e, -, rfl⟩ := List.mem_map.mp hc
    exact ⟨e.2.declaredName, rfl⟩
  refine (ensures_writeMarked hunder []).bind fun written hwritten => ensures_pure ?_
  constructor
  case named =>
    intro old new hnew
    exact ((hdescribes.table old new).mp hnew).1
  case written =>
    have hperm := hdescribes.toList_perm.map fun entry => classPath entry.2
    rw [List.map_map] at hperm
    rw [hwritten, hdescribes.marked, List.map_map]
    exact hperm.symm

end

/-- **Variants under two tags share an output.** Discoveries that succeed under different tags write no
path in common and give no name in common, whatever their stores are and whatever the classes are
called. Each writes one path for every name it gives, no path twice. A further discovery under the
second tag, however it ends, leaves what is kept at the paths of the first; in memory these are the
relocated classes. -/
theorem variants_share_output {σ σ' : Type} {tag tag' marker marker' : String}
    {input output : ClassStore (StateM σ)} {input' output' : ClassStore (StateM σ')}
    {s t : σ} {s' t' : σ'} {found found' : Discovery} (htag : validateTag tag = .ok ())
    (htag' : validateTag tag' = .ok ()) (hne : tag ≠ tag')
    (hrun : (discover tag marker).run (m := StateM σ) input output s = (.ok found, t))
    (hrun' : (discover tag' marker').run (m := StateM σ') input' output' s' = (.ok found', t')) :
    (∀ path ∈ found.report.written, path ∉ found'.report.written) ∧
    (∀ old old' new new', found.table.get? old = some new → found'.table.get? old' = some new' →
      new ≠ new') ∧
    (found.report.written.Perm (found.table.toList.map fun entry => classPath entry.2) ∧
      found.report.written.Nodup ∧
      ∀ old old' new new', found.table.get? old = some new → found.table.get? old' = some new' →
        old ≠ old' → classPath new ≠ classPath new') ∧
    (∀ content, TellsContent input' output' content → ∀ path ∈ found.report.written, ∀ start,
      content ((discover tag' marker').run (m := StateM σ') input' output' start).2 path =
        content start path) ∧
    ∀ (first second kept copied : MemoryStore) (inMemory : Discovery),
      (discover tag marker).Yields first kept inMemory copied →
      ∀ old new, inMemory.table.get? old = some new →
        ∃ bytes, copied.get? (classPath new) = some bytes ∧
          ((discover tag' marker').on second copied).2.get? (classPath new) = some bytes := by
  have hvalid := validTag_of_tagFault? (refuseFault_eq_ok htag)
  have hvalid' := validTag_of_tagFault? (refuseFault_eq_ok htag')
  have hvariant := (ensures_discover tag marker).result hrun
  have hvariant' := (ensures_discover tag' marker').result hrun'
  have hapart {path : String} (hpath : UnderTag tag path) : ¬UnderTag tag' path :=
    fun hpath' => hne (hpath.unique hvalid hvalid' hpath')
  refine ⟨?_, ?_, ⟨hvariant.written, hvariant.distinct⟩, ?_, ?_⟩
  · intro path hpath hpath'
    exact hapart (hvariant.underTag path hpath) (hvariant'.underTag path hpath')
  · intro old old' new new' hnew hnew' heq
    rw [hvariant.named old new hnew, hvariant'.named old' new' hnew'] at heq
    exact hne (hvalid.eq_of_relocatedName hvalid' heq)
  · intro content hcontent path hpath start
    exact (ensures_discover tag' marker').content_eq hcontent
      (hapart (hvariant.underTag path hpath)) start
  · intro first second kept copied inMemory hyields old new hnew
    obtain ⟨classes, hdiscovered⟩ := yields_discover hyields
    obtain ⟨rfl, e, he, hmarked, rfl⟩ := (hdiscovered.table old new).mp hnew
    obtain ⟨renamed, -, hcopied⟩ := hdiscovered.copied e he hmarked
    refine ⟨renamed.bytes, hcopied, ?_⟩
    rw [(ensures_discover tag' marker').get?_eq (hapart ⟨e.2.declaredName, rfl⟩), hcopied]

/-- A marked class whose name starts with a tag. -/
def taggedNameSample : MemoryStore :=
  .ofList [("v1/p/A.class", LoadedClass.built "v1/p/A" (ClassBuilder.addVisible defaultMarker))]

theorem variants_share_output_taggedName :
    ∃ found copied found' shared bytes,
      (discover "v1" defaultMarker).Yields (surveySample "q/U.class") .empty found copied ∧
      (discover "v2" defaultMarker).Yields taggedNameSample copied found' shared ∧
      (∀ path ∈ found.report.written, path ∉ found'.report.written) ∧
      copied.get? "v1/p/A.class" = some bytes ∧ shared.get? "v1/p/A.class" = some bytes := by
  have hcheck : (((discover "v1" defaultMarker).on (surveySample "q/U.class") .empty).1.toOption.any
      fun found => found.table.get? "p/A" = some "v1/p/A") = true := by
    decide +kernel
  have hcheck' : (((discover "v2" defaultMarker).on taggedNameSample
      ((discover "v1" defaultMarker).on (surveySample "q/U.class") .empty).2).1.toOption.any
        fun _ => true) = true := by
    decide +kernel
  obtain ⟨found, hyields, hnew⟩ := exists_yields_of_any hcheck
  obtain ⟨found', hyields', -⟩ := exists_yields_of_any hcheck'
  obtain ⟨stores, hrun⟩ := hyields.exists_run
  obtain ⟨stores', hrun'⟩ := hyields'.exists_run
  have htag : validateTag "v1" = .ok () := rfl
  have htag' : validateTag "v2" = .ok () := rfl
  obtain ⟨hapart, -, -, -, hkept⟩ := variants_share_output htag htag' (by decide) hrun hrun'
  obtain ⟨bytes, hcopied, hshared⟩ :=
    hkept _ taggedNameSample _ _ _ hyields "p/A" "v1/p/A" (by simpa using hnew)
  exact ⟨found, _, found', _, bytes, hyields, hyields', hapart, hcopied, hshared⟩

end JvmRelocation
