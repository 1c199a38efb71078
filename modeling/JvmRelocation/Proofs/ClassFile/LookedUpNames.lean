import JvmRelocation.Proofs.ClassFile.SiteTexts
import JvmRelocation.Proofs.Name.LookedUpNames

/-!
# The names that a renaming of a class depends on

The class names that a class file refers to are all that a renaming of it looks up. So two mappers
that agree on them have the same result, in its bytes or in its error: nothing else that a mapper
says can leak into a class.
-/

namespace JvmRelocation

variable {m m' : NameMapper}

/-- A plan is decided by what the mapper makes of the texts at the sites. -/
theorem RenamingPlan.make_congr {pool : ConstantPool} {found : NameSites}
    (h : ∀ s ∈ found.sites, ∀ v, pool.text? s.index = some v →
      s.role.remap m v = s.role.remap m' v) : make m pool found = make m' pool found := by
  have hpart (group) (hgroup : group ∈ found.byText.toList) :
      part m pool found group = part m' pool found group := by
    obtain ⟨index, sites⟩ := group
    obtain rfl := NameSites.mem_byText hgroup
    rw [part, part]
    cases hv : pool.text? index with
    | none => rfl
    | some v =>
      have houtcomes : (found.sitesOf index).map (fun s => (s, s.role.remap m v)) =
          (found.sitesOf index).map fun s => (s, s.role.remap m' v) := by
        refine List.map_congr_left fun s hs => ?_
        obtain ⟨hsite, hindex⟩ := List.mem_filter.mp hs
        obtain rfl : s.index = index := by simpa using hindex
        rw [h s hsite v hv]
      simp only [houtcomes]
  rw [make_eq, make_eq, List.flatMap_congr fun group hgroup => congrArg replaced (hpart group hgroup),
    List.flatMap_congr fun group hgroup => congrArg moved (hpart group hgroup)]

namespace ClassFile

/-- The names in the text at a name site are among those that a class refers to. -/
theorem mem_referencedNames {c : ClassFile} {names : Std.TreeSet String}
    (h : c.referencedNames = .ok names) {e : NameRole × String} (he : e ∈ c.siteTexts)
    {name : String} (hname : name ∈ e.1.names e.2) : name ∈ names := by
  obtain ⟨found, hfound, hend⟩ := exceptBind_eq_ok.mp h
  obtain rfl : _ = names := by simpa [pure, Except.pure] using hend
  obtain ⟨s, hs, hv, hrole⟩ := (mem_siteTexts hfound).mp (show (e.1, e.2) ∈ c.siteTexts from he)
  rw [Std.TreeSet.mem_ofList, List.contains_iff_mem]
  refine List.mem_flatten.mpr ⟨_, List.mem_map_of_mem (NameSites.mem_byText_of_site hs), ?_⟩
  dsimp only
  rw [hv]
  refine List.mem_flatMap.mpr ⟨e.1, ?_, hname⟩
  rw [List.mem_eraseDups, ← hrole]
  exact List.mem_map_of_mem (List.mem_filter.mpr ⟨hs, by simp⟩)

/-- Mappers that agree on the names of a class plan the same for it. -/
theorem plan_congr {c : ClassFile} {names : Std.TreeSet String} (h : c.referencedNames = .ok names)
    (hagree : ∀ name ∈ names, m name = m' name) : c.plan m = c.plan m' := by
  obtain ⟨found, hfound, -⟩ := exceptBind_eq_ok.mp h
  have hmake : RenamingPlan.make m c.pool found = RenamingPlan.make m' c.pool found := by
    refine RenamingPlan.make_congr fun s hs v hv => NameRole.remap_congr fun name hname => ?_
    refine hagree name (mem_referencedNames h (e := (s.role, v)) ?_ hname)
    exact (mem_siteTexts hfound).mpr ⟨s, hs, hv, rfl⟩
  rw [plan, plan, hfound]
  exact congrArg Except.ok hmake

end ClassFile

namespace LoadedClass

/-- **A renaming depends on the referenced names only.** Two mappers that give the same answer for
every class name that a class refers to, be it a new name or none, have the same result: the same
bytes, changed or not, or the same error. -/
theorem substitute_determined_by_names {c : LoadedClass} {names : Std.TreeSet String}
    (hnames : c.referencedNames = .ok names) {m₁ m₂ : NameMapper}
    (hagree : ∀ name ∈ names, m₁ name = m₂ name) : c.substitute m₁ = c.substitute m₂ := by
  rw [substitute, substitute, ClassFile.plan_congr hnames hagree]

/-- Renames the class `p/A`, and besides two that are not mentioned by `sharingSample`: one whose name
starts with that of a class that is, and one that is the simple name of an inner class. -/
def widerMapper : NameMapper := fun name =>
  if name = "p/A" then some "v1/p/A"
  else if name = "p/A$Bc" || name = "B" then some "q/Other"
  else none

theorem substitute_determined_by_names_sharingSample :
    ∃ c names s, parse sharingSample = .ok c ∧ c.referencedNames = .ok names ∧
      (∀ name ∈ names, NameMapper.single "p/A" "v1/p/A" name = widerMapper name) ∧
      c.substitute (.single "p/A" "v1/p/A") = .ok s ∧ s.changed = true ∧
      c.substitute widerMapper = .ok s := by
  have hcheck : ((parse sharingSample).toOption.any fun c =>
      (c.substitute (.single "p/A" "v1/p/A")).toOption.any (·.changed) &&
        c.referencedNames.toOption.any fun names => names.toList.all fun name =>
          NameMapper.single "p/A" "v1/p/A" name = widerMapper name) = true := by
    decide +kernel
  obtain ⟨c, hparse, hcheck⟩ := exists_ok_of_any hcheck
  obtain ⟨hsub, hnames⟩ := Bool.and_eq_true_iff.mp hcheck
  obtain ⟨s, hsub, hchanged⟩ := exists_ok_of_any hsub
  obtain ⟨names, hnames, hall⟩ := exists_ok_of_any hnames
  have hagree : ∀ name ∈ names, NameMapper.single "p/A" "v1/p/A" name = widerMapper name := by
    intro name hname
    simpa using List.all_eq_true.mp hall name (Std.TreeSet.mem_toList.mpr hname)
  refine ⟨c, names, s, hparse, hnames, hagree, hsub, hchanged, ?_⟩
  rw [← substitute_determined_by_names hnames hagree, hsub]

end LoadedClass

end JvmRelocation
