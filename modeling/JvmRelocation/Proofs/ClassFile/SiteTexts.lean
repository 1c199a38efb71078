import JvmRelocation.Proofs.ClassFile.RenamedSites
import JvmRelocation.Proofs.Name.StagedTexts

/-!
# The texts at the name sites of a class

The names a class mentions are those of the texts at its name sites, each in the role of its site.
A renaming under a tag works on these texts one by one, since no text that it writes can give an
attribute a known name.
-/

namespace JvmRelocation

namespace ClassFile

/-- The texts at the name sites of a class that decode, each with the role of its site. -/
def siteTexts (c : ClassFile) : List (NameRole × String) :=
  match c.nameSites with
  | .ok found => found.sites.filterMap fun s => (c.pool.text? s.index).map fun v => (s.role, v)
  | .error _ => []

theorem mem_siteTexts {c : ClassFile} {found : NameSites} (hfound : c.nameSites = .ok found)
    {role : NameRole} {v : String} : (role, v) ∈ c.siteTexts ↔
      ∃ s ∈ found.sites, c.pool.text? s.index = some v ∧ s.role = role := by
  rw [siteTexts, hfound]
  simp [List.mem_filterMap]

/-- A class mentions the names of the texts at its name sites. -/
theorem contains_referencedNames {c : ClassFile} {names : Std.TreeSet String}
    (h : c.referencedNames = .ok names) {name : String} (hname : names.contains name = true) :
    ∃ e ∈ c.siteTexts, name ∈ e.1.names e.2 := by
  obtain ⟨found, hfound, hend⟩ := exceptBind_eq_ok.mp h
  obtain rfl : _ = names := by simpa [pure, Except.pure] using hend
  rw [Std.TreeSet.contains_ofList, List.contains_iff_mem] at hname
  obtain ⟨_, hlist, hname⟩ := List.mem_flatten.mp hname
  obtain ⟨⟨index, sites⟩, hgroup, rfl⟩ := List.mem_map.mp hlist
  obtain rfl := NameSites.mem_byText hgroup
  dsimp only at hname
  split at hname
  case h_2 => cases hname
  case h_1 v hv =>
    obtain ⟨role, hrole, hmentioned⟩ := List.mem_flatMap.mp hname
    rw [List.mem_eraseDups] at hrole
    obtain ⟨s, hs, rfl⟩ := List.mem_map.mp hrole
    obtain ⟨hsite, hindex⟩ := List.mem_filter.mp hs
    obtain rfl : s.index = index := by simpa using hindex
    exact ⟨(s.role, v), (mem_siteTexts hfound).mpr ⟨s, hsite, hv, rfl⟩, hmentioned⟩

/-- Every text at a site of a renamed class comes from the text at the site it was. -/
theorem siteTexts_of_renamed {m : NameMapper} {c d : ClassFile} {found found' : NameSites}
    (hfound : c.nameSites = .ok found) (hfound' : d.nameSites = .ok found')
    (h : List.Forall₂ (SiteRenamed m c d) found.sites found'.sites) {role : NameRole} {w : String}
    (hmem : (role, w) ∈ d.siteTexts) : ∃ v, (role, v) ∈ c.siteTexts ∧ w = role.renamed m v := by
  obtain ⟨s', hs', hw, rfl⟩ := (mem_siteTexts hfound').mp hmem
  obtain ⟨s, hs, hrenamed⟩ := exists_of_forall₂ h.flip hs'
  cases hv : c.pool.text? s.index with
  | none =>
    have hraw := hrenamed.raw hv
    rw [ConstantPool.text?_eq hraw, hv] at hw
    cases hw
  | some v =>
    obtain rfl := Option.some.inj ((hrenamed.text v hv).symm.trans hw)
    rw [hrenamed.role]
    exact ⟨v, (mem_siteTexts hfound).mpr ⟨s, hs, hv, rfl⟩, rfl⟩

end ClassFile

namespace LoadedClass

/-- If the result of a renaming under a tag is read again at all, its name sites are those of the
class. -/
theorem sitesRenamed_of_tags {tag : String} {m : NameMapper} (hm : Tags tag m) (htag : ValidTag tag)
    (hbracket : '<' ∉ tag.toList) {source : Bytes} {c d : LoadedClass} {s : Substitution}
    (hparse : parse source = .ok c) (hsub : c.substitute m = .ok s) (hfits : c.Fits m)
    (hd : parse s.bytes = .ok d) : d.declaredName = NameRole.className.renamed m c.declaredName ∧
      ∃ found found', c.nameSites = .ok found ∧ d.nameSites = .ok found' ∧
        List.Forall₂ (ClassFile.SiteRenamed m c.toClassFile d.toClassFile) found.sites
          found'.sites := by
  refine sitesRenamed_of_parse hparse hsub hfits (fun _ w _ _ hw => ?_) hd
  obtain ⟨found, hfound, s, hs, v, hv, hremap⟩ := hw
  exact ofName?_of_remap hm htag hbracket hremap

/-- Every text at a site of the result comes from the text at the site it was. -/
theorem siteTexts_of_tags {tag : String} {m : NameMapper} (hm : Tags tag m) (htag : ValidTag tag)
    (hbracket : '<' ∉ tag.toList) {source : Bytes} {c d : LoadedClass} {s : Substitution}
    (hparse : parse source = .ok c) (hsub : c.substitute m = .ok s) (hfits : c.Fits m)
    (hd : parse s.bytes = .ok d) {role : NameRole} {w : String} (hw : (role, w) ∈ d.siteTexts) :
    ∃ v, (role, v) ∈ c.siteTexts ∧ w = role.renamed m v := by
  obtain ⟨-, found, found', hfound, hfound', hsites⟩ :=
    sitesRenamed_of_tags hm htag hbracket hparse hsub hfits hd
  exact ClassFile.siteTexts_of_renamed hfound hfound' hsites hw

end LoadedClass

end JvmRelocation
