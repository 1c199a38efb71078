import JvmRelocation.ClassFile.Substitution

/-!
# What a renaming plan holds

A text is replaced exactly if it is not pinned and all sites that refer to it agree on what it
becomes. Otherwise exactly those of its sites are moved where it becomes another text. So the plan
decides every site in one of two ways.
-/

namespace JvmRelocation

/-! ## Sites by their text -/

/-- The sites that refer to the text with the given index, in order. -/
def NameSites.sitesOf (found : NameSites) (index : UInt16) : List NameSite :=
  found.sites.filter fun s => s.index = index

theorem NameSites.getD_byText (found : NameSites) (index : UInt16) :
    found.byText.getD index [] = found.sitesOf index := by
  rw [byText, sitesOf]
  induction found.sites with
  | nil => rfl
  | cons s sites ih =>
    rw [List.foldr_cons, Std.TreeMap.getD_insert]
    split
    case isTrue heq =>
      -- the fold puts the first sites in last, so they end up in front
      have hindex : s.index = index := Std.LawfulEqOrd.eq_of_compare heq
      rw [List.filter_cons, if_pos (by simpa using hindex), ← ih, hindex]
    case isFalse hne =>
      have hindex : s.index ≠ index := fun heq => hne (Std.LawfulEqCmp.compare_eq_iff_eq.mpr heq)
      rw [List.filter_cons, if_neg (by simpa using hindex), ih]

theorem NameSites.contains_byText {found : NameSites} {s : NameSite} (hs : s ∈ found.sites) :
    found.byText.contains s.index = true := by
  rw [byText]
  induction hsites : found.sites generalizing found with
  | nil => simp [hsites] at hs
  | cons first sites ih =>
    rw [List.foldr_cons, Std.TreeMap.contains_insert]
    rw [hsites] at hs
    rcases List.mem_cons.mp hs with rfl | hs
    · simp
    · rw [@ih ⟨sites, found.pinned⟩ hs rfl, Bool.or_true]

theorem NameSites.mem_byText {found : NameSites} {index : UInt16} {sites : List NameSite}
    (h : (index, sites) ∈ found.byText.toList) : sites = found.sitesOf index := by
  have hget := Std.TreeMap.mem_toList_iff_getElem?_eq_some.mp h
  rw [← getD_byText, Std.TreeMap.getD_eq_getD_getElem?, hget]
  rfl

theorem NameSites.mem_byText_of_site {found : NameSites} {s : NameSite} (hs : s ∈ found.sites) :
    (s.index, found.sitesOf s.index) ∈ found.byText.toList := by
  rw [Std.TreeMap.mem_toList_iff_getElem?_eq_some, ← getD_byText]
  have hcontains := contains_byText hs
  exact Std.TreeMap.getElem?_eq_some_getD (Std.TreeMap.contains_iff_mem.mp hcontains)

namespace RenamingPlan

/-! ## What is replaced and what is moved -/

variable {m : NameMapper} {pool : ConstantPool} {found : NameSites}

/-- What the text `v` becomes at each of the sites of its index. -/
def outcomes (m : NameMapper) (found : NameSites) (index : UInt16) (v : String) :
    List (NameSite × Option String) :=
  (found.sitesOf index).map fun s => (s, s.role.remap m v)

theorem agreed?_eq_some {list : List (NameSite × Option String)} {t : String}
    (h : agreed? list = some t) : ∀ o ∈ list, o.2 = some t := by
  unfold agreed? at h
  split at h
  case h_2 => cases h
  case h_1 s first rest =>
    split at h
    case isFalse => cases h
    case isTrue hall =>
      obtain rfl : first = t := by simpa using h
      intro o ho
      rcases List.mem_cons.mp ho with rfl | ho
      · rfl
      · simpa using List.all_eq_true.mp hall o ho

/-- A text is replaced where it stands. -/
def Replaces (m : NameMapper) (pool : ConstantPool) (found : NameSites) (index : UInt16)
    (t : String) : Prop :=
  index ∉ found.pinned ∧ ∃ v, pool.text? index = some v ∧ agreed? (outcomes m found index v) = some t

theorem Replaces.unique {index : UInt16} {t t' : String} (h : Replaces m pool found index t)
    (h' : Replaces m pool found index t') : t = t' := by
  obtain ⟨-, v, hv, ht⟩ := h
  obtain ⟨-, v', hv', ht'⟩ := h'
  obtain rfl : v = v' := Option.some.inj (hv.symm.trans hv')
  exact Option.some.inj (ht.symm.trans ht')

/-- All sites of a replaced text become the new one. -/
theorem Replaces.remap {index : UInt16} {t v : String} (h : Replaces m pool found index t)
    (hv : pool.text? index = some v) {s : NameSite} (hs : s ∈ found.sites) (hindex : s.index = index) :
    s.role.remap m v = some t := by
  obtain ⟨-, v', hv', ht⟩ := h
  obtain rfl : v = v' := Option.some.inj (hv.symm.trans hv')
  refine agreed?_eq_some ht (s, s.role.remap m v) (List.mem_map.mpr ⟨s, ?_, rfl⟩)
  exact List.mem_filter.mpr ⟨hs, by simpa using hindex⟩

theorem Replaces.exists_site {index : UInt16} {t : String} (h : Replaces m pool found index t) :
    ∃ s ∈ found.sites, s.index = index := by
  obtain ⟨-, v, -, ht⟩ := h
  cases hsites : found.sitesOf index with
  | nil =>
    rw [outcomes, hsites] at ht
    cases ht
  | cons s rest =>
    have hmem : s ∈ found.sitesOf index := by rw [hsites]; exact List.mem_cons_self
    obtain ⟨hs, hindex⟩ := List.mem_filter.mp hmem
    exact ⟨s, hs, by simpa using hindex⟩

/-- What becomes of one text is one of two things. -/
theorem forText_cases (isPinned : Bool) (index : UInt16) (list : List (NameSite × Option String)) :
    (∃ t, isPinned = false ∧ agreed? list = some t ∧ forText isPinned index list = ⟨[(index, t)], []⟩) ∨
      (¬(isPinned = false ∧ ∃ t, agreed? list = some t) ∧ forText isPinned index list =
        ⟨[], list.filterMap fun (site, text) => text.map (site, ·)⟩) := by
  cases isPinned with
  | true => exact .inr ⟨by simp, rfl⟩
  | false =>
    cases hagreed : agreed? list with
    | some t => exact .inl ⟨t, rfl, rfl, by simp only [forText, hagreed]⟩
    | none => exact .inr ⟨by simp, by simp only [forText, hagreed]⟩

/-- The plan for one text and its sites, as `make` makes it. -/
def part (m : NameMapper) (pool : ConstantPool) (found : NameSites) (group : UInt16 × List NameSite) :
    RenamingPlan :=
  match pool.text? group.1 with
  | some text =>
    forText ((Std.TreeSet.ofList found.pinned).contains group.1) group.1
      (group.2.map fun site => (site, site.role.remap m text))
  | none => empty

theorem make_eq (m : NameMapper) (pool : ConstantPool) (found : NameSites) :
    make m pool found = ⟨found.byText.toList.flatMap fun group => (part m pool found group).replaced,
      found.byText.toList.flatMap fun group => (part m pool found group).moved⟩ := by
  simp only [make, List.flatMap_map]
  rfl

theorem contains_pinned (found : NameSites) (index : UInt16) :
    (Std.TreeSet.ofList found.pinned).contains index = false ↔ index ∉ found.pinned := by
  rw [Std.TreeSet.contains_ofList]
  simp

/-- What is replaced, and what is moved, for one text that decodes. -/
theorem part_of_text (m : NameMapper) (found : NameSites) {index : UInt16} {v : String}
    (hv : pool.text? index = some v) :
    (∃ t, Replaces m pool found index t ∧
        part m pool found (index, found.sitesOf index) = ⟨[(index, t)], []⟩) ∨
      ((∀ t, ¬Replaces m pool found index t) ∧
        part m pool found (index, found.sitesOf index) = ⟨[],
          (outcomes m found index v).filterMap fun (site, text) => text.map (site, ·)⟩) := by
  have hpart : part m pool found (index, found.sitesOf index) =
      forText ((Std.TreeSet.ofList found.pinned).contains index) index (outcomes m found index v) := by
    rw [part, hv]
    rfl
  rw [hpart]
  rcases forText_cases ((Std.TreeSet.ofList found.pinned).contains index) index
    (outcomes m found index v) with ⟨t, hpinned, hagreed, heq⟩ | ⟨hnot, heq⟩
  · exact .inl ⟨t, ⟨(contains_pinned found index).mp hpinned, v, hv, hagreed⟩, heq⟩
  · refine .inr ⟨?_, heq⟩
    rintro t ⟨hpinned, v', hv', hagreed⟩
    obtain rfl : v = v' := Option.some.inj (hv.symm.trans hv')
    exact hnot ⟨(contains_pinned found index).mpr hpinned, t, hagreed⟩

theorem mem_replaced {index : UInt16} {t : String} :
    (index, t) ∈ (make m pool found).replaced ↔ Replaces m pool found index t := by
  rw [make_eq]
  simp only [List.mem_flatMap]
  constructor
  · rintro ⟨⟨i, sites⟩, hmem, ht⟩
    obtain rfl := NameSites.mem_byText hmem
    cases hv : pool.text? i with
    -- a text that does not decode has an empty plan
    | none => simp [part, hv, empty] at ht
    | some v =>
      rcases part_of_text m found hv with ⟨t', hreplaces, heq⟩ | ⟨-, heq⟩
      · rw [heq] at ht
        obtain ⟨rfl, rfl⟩ : index = i ∧ t = t' := by simpa using ht
        exact hreplaces
      · rw [heq] at ht
        cases ht
  · intro h
    obtain ⟨s, hs, rfl⟩ := h.exists_site
    obtain ⟨-, v, hv, -⟩ := id h
    refine ⟨_, NameSites.mem_byText_of_site hs, ?_⟩
    rcases part_of_text m found hv with ⟨t', hreplaces, heq⟩ | ⟨hnot, -⟩
    · rw [heq, h.unique hreplaces]
      exact List.mem_cons_self
    · exact absurd h (hnot t)

theorem mem_moved {s : NameSite} {t : String} :
    (s, t) ∈ (make m pool found).moved ↔ s ∈ found.sites ∧ (∀ t, ¬Replaces m pool found s.index t) ∧
      ∃ v, pool.text? s.index = some v ∧ s.role.remap m v = some t := by
  rw [make_eq]
  simp only [List.mem_flatMap]
  constructor
  · rintro ⟨⟨i, sites⟩, hmem, ht⟩
    obtain rfl := NameSites.mem_byText hmem
    cases hv : pool.text? i with
    | none => simp [part, hv, empty] at ht
    | some v =>
      rcases part_of_text m found hv with ⟨t', -, heq⟩ | ⟨hnot, heq⟩
      · rw [heq] at ht
        cases ht
      -- what is moved was paired with what its text becomes, and goes back to a site of the index
      · rw [heq] at ht
        obtain ⟨⟨s', o⟩, ho, heq'⟩ := List.mem_filterMap.mp ht
        obtain ⟨s'', hs'', hpair⟩ := List.mem_map.mp ho
        obtain ⟨hs, hindex⟩ := List.mem_filter.mp hs''
        obtain ⟨rfl, rfl⟩ := Prod.mk.inj hpair
        obtain ⟨t', ht', hst⟩ := Option.map_eq_some_iff.mp heq'
        obtain ⟨rfl, rfl⟩ := Prod.mk.inj hst
        obtain rfl : s''.index = i := by simpa using hindex
        exact ⟨hs, hnot, v, hv, ht'⟩
  · rintro ⟨hs, hnot, v, hv, ht⟩
    refine ⟨_, NameSites.mem_byText_of_site hs, ?_⟩
    rcases part_of_text m found hv with ⟨t', hreplaces, -⟩ | ⟨-, heq⟩
    · exact absurd hreplaces (hnot t')
    · rw [heq]
      refine List.mem_filterMap.mpr ⟨(s, s.role.remap m v), List.mem_map.mpr ⟨s, ?_, rfl⟩, ?_⟩
      · exact List.mem_filter.mpr ⟨hs, by simp⟩
      · rw [ht]
        rfl

/-- A plan is empty if nothing becomes of any text. -/
theorem isEmpty_make
    (h : ∀ s ∈ found.sites, ∀ v, pool.text? s.index = some v → s.role.remap m v = none) :
    (make m pool found).isEmpty = true := by
  have hreplaced : (make m pool found).replaced = [] := by
    refine List.eq_nil_iff_forall_not_mem.mpr fun ⟨index, t⟩ hmem => ?_
    have hreplaces := mem_replaced.mp hmem
    obtain ⟨s, hs, rfl⟩ := hreplaces.exists_site
    obtain ⟨-, v, hv, -⟩ := id hreplaces
    have hremap := hreplaces.remap hv hs rfl
    rw [h s hs v hv] at hremap
    cases hremap
  have hmoved : (make m pool found).moved = [] := by
    refine List.eq_nil_iff_forall_not_mem.mpr fun ⟨s, t⟩ hmem => ?_
    obtain ⟨hs, -, v, hv, hremap⟩ := mem_moved.mp hmem
    rw [h s hs v hv] at hremap
    cases hremap
  rw [isEmpty, hreplaced, hmoved]
  rfl

end RenamingPlan

end JvmRelocation
