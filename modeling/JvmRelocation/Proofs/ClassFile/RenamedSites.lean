import JvmRelocation.ClassFile.Builder
import JvmRelocation.Proofs.ClassFile.Substitution

/-!
# The name sites of a renamed class

A renamed class that is read again has the name sites of the class it came from, in the same order,
and each refers to the renamed text. One thing has to be kept out: an attribute whose name has an
index behind the end of the pool is unknown before the renaming, but the first text that is appended
may give it a name. If that were the name of a known attribute, its body would be read.
-/

namespace JvmRelocation

open ModifiedUtf8 Layout TextReference

/-! ## Names of attributes -/

theorem Layout.exists_mention {use : IndexUse} {value : UInt16} {l : Layout}
    (h : .index use value ∈ l) (offset : Nat) :
    ∃ m ∈ mentionsAt offset l, m.use = use ∧ m.index = value := by
  induction l generalizing offset with
  | nil => cases h
  | cons part l ih =>
    obtain ⟨here, heq, -⟩ := mentionsAt_cons offset part l
    rw [heq]
    rcases List.mem_cons.mp h with rfl | h
    · rw [mentionsAt] at heq
      exact ⟨⟨offset, value, use⟩, by rw [← heq]; exact List.mem_cons_self, rfl, rfl⟩
    · obtain ⟨m, hm, huse⟩ := ih h (offset + part.toBytes.length)
      exact ⟨m, List.mem_append_right here hm, huse⟩

namespace ClassFile

theorem pinned_inAttributes {pool : ConstantPool} {owner : AttributeOwner}
    {attributes : Array Attribute} {a : Attribute} (ha : a ∈ attributes.toList) {name : UInt16}
    (hname : a.UsesName pool name) : pinned name ∈ inAttributes pool owner attributes := by
  obtain ⟨i, hi, rfl⟩ := List.getElem_of_mem ha
  refine List.mem_flatMap.mpr ⟨(attributes.toList[i], i),
    List.mem_zipIdx_iff_getElem?.mpr (List.getElem?_eq_getElem hi), ?_⟩
  rcases hname with rfl | ⟨length, hinside⟩
  · exact List.mem_cons_self
  · obtain ⟨m, hm, huse, rfl⟩ := exists_mention (hinside.mem List.mem_cons_self) 0
    refine List.mem_cons_of_mem _ (List.mem_map.mpr ⟨m, by rwa [mentions_eq], ?_⟩)
    rw [ofMention, huse]

theorem pinned_inMembers {pool : ConstantPool} {owner : Nat → AttributeOwner}
    {descriptor : Nat → Location} {members : Array Member} {i : Nat} {m : Member}
    (hm : members[i]? = some m) {name : UInt16}
    (h : pinned name ∈ inAttributes pool (owner i) m.attributes) :
    pinned name ∈ inMembers pool owner descriptor members := by
  refine List.mem_flatMap.mpr ⟨(m, i), List.mem_zipIdx_iff_getElem?.mpr (by simpa using hm), ?_⟩
  exact List.mem_cons_of_mem _ (List.mem_cons_of_mem _ h)

/-- The names of attributes are pinned. -/
theorem pinned_of_usesAttributeName {c : ClassFile} {name : UInt16} (h : c.UsesAttributeName name) :
    pinned name ∈ c.references := by
  obtain ⟨owner, a, ha, hname⟩ := h
  simp only [references, List.mem_append]
  cases owner with
  | theClass => exact .inr (pinned_inAttributes ha hname)
  | field i =>
    obtain ⟨k, hk, rfl⟩ := List.getElem_of_mem ha
    obtain ⟨m, hm, hattribute⟩ := member_of_attributesOf
      ((Array.getElem?_toList ..).symm.trans (List.getElem?_eq_getElem hk))
    exact .inl (.inl (.inr (pinned_inMembers hm
      (pinned_inAttributes (List.mem_of_getElem? (by simpa using hattribute)) hname))))
  | method i =>
    obtain ⟨k, hk, rfl⟩ := List.getElem_of_mem ha
    obtain ⟨m, hm, hattribute⟩ := member_of_attributesOf
      ((Array.getElem?_toList ..).symm.trans (List.getElem?_eq_getElem hk))
    exact .inl (.inr (pinned_inMembers hm
      (pinned_inAttributes (List.mem_of_getElem? (by simpa using hattribute)) hname)))

namespace RenamedBy

variable {m : NameMapper} {c c' : ClassFile} {pool : ConstantPool}
  {changes : Location → Option UInt16}

/-- A text behind the end of the old pool is one that was written. -/
theorem rewrites_of_behind (h : RenamedBy m c c' pool changes) {i : UInt16}
    (hi : c.pool.count ≤ i.toNat) {w : String} (hw : c'.pool.text? i = some w) : c.Rewrites m w := by
  obtain ⟨slots, more, hold, hslots, hmore⟩ := h.slots
  rw [h.text?_eq] at hw
  obtain ⟨bytes, hbytes, hdecode⟩ := ConstantPool.utf8Bytes_of_text? hw
  -- the old slots keep their places, so the text is one of those behind them
  have hlength : slots.length ≤ i.toNat := by
    rw [← hold.length_eq]
    simpa [ConstantPool.count] using hi
  have hget := ConstantPool.utf8Bytes_eq_ok.mp hbytes
  rw [ConstantPool.get?_eq, hslots, List.getElem?_append_right hlength] at hget
  obtain ⟨w', hw', heq⟩ := List.mem_map.mp (List.mem_of_getElem? hget)
  obtain rfl : encode w' = bytes := Constant.utf8.inj heq
  obtain rfl : w' = w := Option.some.inj ((decode_encode w').symm.trans hdecode)
  exact hmore w' hw'

/-- The name of an attribute stands for the same kind afterwards. -/
theorem sameKind (h : RenamedBy m c c' pool changes) {name : UInt16}
    (huses : c.UsesAttributeName name)
    (hbehind : c.pool.count ≤ name.toNat → ∀ w, c.Rewrites m w → AttributeKind.ofName? w = none) :
    SameKind c.pool c'.pool name := by
  -- a name in the pool is pinned; one behind it had no text, and gets one that names nothing known
  rcases Nat.lt_or_ge name.toNat c.pool.count with hlt | hge
  · have htext : c'.pool.text? name = c.pool.text? name := by
      rw [h.text?_eq]
      exact ConstantPool.text?_eq (h.pinned name (pinned_of_usesAttributeName huses) hlt)
    rw [SameKind, kindAt, kindAt, nameAt, nameAt, htext]
  · have hnone : c.pool.text? name = none := by
      cases htext : c.pool.text? name with
      | none => rfl
      | some v =>
        obtain ⟨bytes, hbytes, -⟩ := ConstantPool.utf8Bytes_of_text? htext
        have := ConstantPool.lt_count_of_get? (ConstantPool.utf8Bytes_eq_ok.mp hbytes)
        omega
    rw [SameKind, kindAt, kindAt, nameAt, nameAt, hnone]
    cases htext : c'.pool.text? name with
    | none => rfl
    | some w => exact (hbehind hge w (h.rewrites_of_behind hge htext)).symm

/-- The name sites of the renamed class: the same places, with the indices of the new texts. -/
theorem nameSites (h : RenamedBy m c c' pool changes) {found : NameSites}
    (hfound : c.nameSites = .ok found)
    (hkinds : ∀ name, c.UsesAttributeName name → SameKind c.pool c'.pool name) :
    ∃ found', c'.nameSites = .ok found' ∧
      found'.sites = found.sites.map fun s => { s with index := newIndex changes s } := by
  obtain ⟨⟨hreadable, hresolves⟩, rfl⟩ := nameSites_eq_ok.mp hfound
  obtain ⟨slots, more, hold, hslots, -⟩ := h.slots
  -- texts hold no references, so the new pool has those of the old one
  have hpool : pool.toList.flatMap ofConstant = c.pool.toList.flatMap ofConstant := by
    have htexts := references_retext hold (more.map encode) 0
    rw [List.map_map] at htexts
    rw [references_pool, references_pool, hslots]
    exact htexts
  have hclass := h.eq
  subst hclass
  obtain ⟨hreadable', hreferences⟩ := references_withIndices hpool hreadable changes hkinds
  refine ⟨_, nameSites_eq_ok.mpr ⟨⟨hreadable', fun r hr => ?_⟩, rfl⟩, ?_⟩
  · rw [hreferences] at hr
    obtain ⟨old, hold, rfl⟩ := List.mem_map.mp hr
    cases old with
    | pinned index => trivial
    | site s =>
      show ∃ bytes, (c.withIndices pool changes).pool.utf8Bytes (newIndex changes s) = .ok bytes
      rw [h.utf8Bytes_eq]
      cases htext : c.pool.text? s.index with
      | none =>
        rw [h.raw s hold htext]
        exact hresolves _ hold
      | some v =>
        obtain ⟨bytes, hbytes, -⟩ := ConstantPool.utf8Bytes_of_text? (h.text s hold v htext)
        exact ⟨bytes, hbytes⟩
  · simp only [hreferences, NameSites.ofReferences, List.filterMap_map, List.map_filterMap]
    congr 1
    funext r
    cases r <;> rfl

end RenamedBy

/-- A name site and the one at its place in a renamed class: the role is the same, a text that
decodes is the renamed one, and a text that does not has the same bytes. -/
structure SiteRenamed (m : NameMapper) (c c' : ClassFile) (s s' : NameSite) : Prop where
  location : s'.location = s.location
  role : s'.role = s.role
  text : ∀ v, c.pool.text? s.index = some v → c'.pool.text? s'.index = some (s.role.renamed m v)
  raw : c.pool.text? s.index = none → c'.pool.utf8Bytes s'.index = c.pool.utf8Bytes s.index

theorem RenamedBy.sitesRenamed {m : NameMapper} {c c' : ClassFile} {pool : ConstantPool}
    {changes : Location → Option UInt16} (h : RenamedBy m c c' pool changes) {found : NameSites}
    (hfound : c.nameSites = .ok found)
    (hkinds : ∀ name, c.UsesAttributeName name → SameKind c.pool c'.pool name) :
    ∃ found', c'.nameSites = .ok found' ∧
      List.Forall₂ (SiteRenamed m c c') found.sites found'.sites := by
  obtain ⟨found', hfound', hsites⟩ := h.nameSites hfound hkinds
  refine ⟨found', hfound', ?_⟩
  rw [hsites, List.forall₂_map_right_iff, List.forall₂_same]
  intro s hs
  have hsite := (mem_sites_of_nameSites hfound).mp hs
  refine ⟨rfl, rfl, fun v hv => ?_, fun hnone => ?_⟩
  · rw [h.text?_eq]
    exact h.text s hsite v hv
  · rw [h.utf8Bytes_eq]
    exact h.raw s hsite hnone

end ClassFile

namespace LoadedClass

/-- If the result of a renaming is read again at all, its name sites are those of the class. -/
theorem sitesRenamed_of_parse {source : Bytes} {c d : LoadedClass} {m : NameMapper} {s : Substitution}
    (hparse : parse source = .ok c) (hsub : c.substitute m = .ok s) (hfits : c.Fits m)
    (hbehind : ∀ name w, c.UsesAttributeName name → c.pool.count ≤ name.toNat →
      c.Rewrites m w → AttributeKind.ofName? w = none) (hd : parse s.bytes = .ok d) :
    d.declaredName = NameRole.className.renamed m c.declaredName ∧
      ∃ found found', c.nameSites = .ok found ∧ d.nameSites = .ok found' ∧
        List.Forall₂ (ClassFile.SiteRenamed m c.toClassFile d.toClassFile) found.sites
          found'.sites := by
  obtain ⟨found, c', pool, changes, hfound, hrenamed, hbytes⟩ := substitute_eq_ok hparse hsub
  obtain ⟨hclass, hname⟩ := parse_renamed_eq_ok hparse hrenamed hfits (hbytes ▸ hd)
  obtain ⟨found', hfound', hsites⟩ := hrenamed.sitesRenamed hfound fun name huses =>
    hrenamed.sameKind huses fun hge w hw => hbehind name w huses hge hw
  rw [← hclass] at hfound' hsites
  exact ⟨hname, found, found', hfound, hfound', hsites⟩

/-- The result of a renaming is read again, unless the class gets a name that is not usable as a
path. -/
theorem exists_parse_of_substitute {source : Bytes} {c : LoadedClass} {m : NameMapper}
    {s : Substitution} (hparse : parse source = .ok c) (hsub : c.substitute m = .ok s)
    (hfits : c.Fits m)
    (hpath : isPathName (NameRole.className.renamed m c.declaredName) = true) :
    ∃ d, parse s.bytes = .ok d := by
  obtain ⟨found, c', pool, changes, -, hrenamed, hbytes⟩ := substitute_eq_ok hparse hsub
  rw [hbytes]
  exact ⟨_, parse_renamed hparse hrenamed hfits hpath⟩

/-- **Renaming is right at every name site.** The result of a renaming is read again, and its name
sites are those of the class, in the same order and roles, with the renamed texts. Every text that
is written has to fit its length field, the class must keep a name that is usable as a path, and no
written text may name a known attribute if some attribute's name has an index behind the end of the
pool. -/
theorem substitute_renames_sites {source : Bytes} {c : LoadedClass} {m : NameMapper}
    {s : Substitution} (hparse : parse source = .ok c) (hsub : c.substitute m = .ok s)
    (hfits : c.Fits m)
    (hpath : isPathName (NameRole.className.renamed m c.declaredName) = true)
    (hbehind : ∀ name w, c.UsesAttributeName name → c.pool.count ≤ name.toNat →
      c.Rewrites m w → AttributeKind.ofName? w = none) :
    ∃ c' found found', parse s.bytes = .ok c' ∧ c.nameSites = .ok found ∧
      c'.nameSites = .ok found' ∧
      List.Forall₂ (ClassFile.SiteRenamed m c.toClassFile c'.toClassFile) found.sites
        found'.sites := by
  obtain ⟨d, hd⟩ := exists_parse_of_substitute hparse hsub hfits hpath
  obtain ⟨-, found, found', hfound, hfound', hsites⟩ :=
    sitesRenamed_of_parse hparse hsub hfits hbehind hd
  exact ⟨d, found, found', hd, hfound, hfound', hsites⟩

/-! ### Two classes -/

/-- The bytes of the class with a name that some building steps make. -/
def built (name : String) (steps : BuildStep Unit) : Bytes :=
  (steps.run (ClassBuilder.new name)).2.build

/-- A class that mentions itself in a type argument of its signature, as a field's type, as a literal
and as an annotation, where the last three share texts. -/
def sharingSample : Bytes :=
  built "p/A" do
    ClassBuilder.addClassSignature "Ljava/util/List<Lp/A.B;>;"
    ClassBuilder.addField "self" "Lp/A;"
    ClassBuilder.addVisible "Lp/A;"
    discard (ClassBuilder.literal "p/A")

theorem substitute_renames_sites_sharingSample :
    ∃ c s, parse sharingSample = .ok c ∧ c.substitute (.single "p/A" "v1/p/A") = .ok s ∧
      c.Fits (.single "p/A" "v1/p/A") ∧
      isPathName (NameRole.className.renamed (.single "p/A" "v1/p/A") c.declaredName) = true ∧
      (∀ name w, c.UsesAttributeName name → c.pool.count ≤ name.toNat →
        c.Rewrites (.single "p/A" "v1/p/A") w → AttributeKind.ofName? w = none) ∧
      ∃ c' found found', parse s.bytes = .ok c' ∧ c.nameSites = .ok found ∧
        c'.nameSites = .ok found' ∧ List.Forall₂
          (ClassFile.SiteRenamed (.single "p/A" "v1/p/A") c.toClassFile c'.toClassFile)
          found.sites found'.sites := by
  have hcheck : ((parse sharingSample).toOption.any fun c =>
      (c.substitute (.single "p/A" "v1/p/A")).isOk && c.Fits (.single "p/A" "v1/p/A") &&
        isPathName (NameRole.className.renamed (.single "p/A" "v1/p/A") c.declaredName) &&
        (c.rewrittenTexts (.single "p/A" "v1/p/A")).all fun w =>
          AttributeKind.ofName? w = none) = true := by
    decide +kernel
  obtain ⟨c, hparse, hcheck⟩ := exists_ok_of_any hcheck
  simp only [Bool.and_eq_true, List.all_eq_true, decide_eq_true_eq, isOk_iff] at hcheck
  obtain ⟨⟨⟨⟨s, hsub⟩, hfits⟩, hpath⟩, hunknown⟩ := hcheck
  have hbehind (name : UInt16) (w : String) (_ : c.UsesAttributeName name)
      (_ : c.pool.count ≤ name.toNat) (hw : c.Rewrites (.single "p/A" "v1/p/A") w) :=
    hunknown w (ClassFile.mem_rewrittenTexts.mpr hw)
  exact ⟨c, s, hparse, hsub, hfits, hpath, hbehind,
    substitute_renames_sites hparse hsub hfits hpath hbehind⟩

/-- A class with an attribute whose name has the first index behind the end of the pool. The text of
its own name is pinned by a literal. -/
def danglingNameSample : Bytes :=
  built "p/A" do
    discard (ClassBuilder.literal "p/A")
    ClassBuilder.pushAttribute (pure ⟨6, #[0]⟩)

/-- Without the last condition the name sites may be lost: the text that is appended gives the
attribute a name, and its body is no body of an attribute with that name. -/
theorem substitute_renames_sites_needs_known_names :
    ¬∀ (source : Bytes) (c : LoadedClass) (m : NameMapper) (s : Substitution),
      parse source = .ok c → c.substitute m = .ok s →
      c.Fits m →
      isPathName (NameRole.className.renamed m c.declaredName) = true →
      ∃ c' found found', parse s.bytes = .ok c' ∧ c.nameSites = .ok found ∧
        c'.nameSites = .ok found' ∧
        List.Forall₂ (ClassFile.SiteRenamed m c.toClassFile c'.toClassFile) found.sites
          found'.sites := by
  intro hall
  have hcheck : ((parse danglingNameSample).toOption.any fun c =>
      c.Fits (.single "p/A" "Signature") &&
        isPathName (NameRole.className.renamed (.single "p/A" "Signature") c.declaredName) &&
        (c.substitute (.single "p/A" "Signature")).toOption.any fun s =>
          (parse s.bytes).toOption.any fun c' => !c'.nameSites.isOk) = true := by
    decide +kernel
  obtain ⟨c, hparse, hcheck⟩ := exists_ok_of_any hcheck
  simp only [Bool.and_eq_true, decide_eq_true_eq] at hcheck
  obtain ⟨⟨hfits, hpath⟩, hsub⟩ := hcheck
  obtain ⟨s, hsub, hcheck⟩ := exists_ok_of_any hsub
  obtain ⟨c', hparse', hlost⟩ := exists_ok_of_any hcheck
  obtain ⟨c'', _, found', hparse'', _, hfound', _⟩ := hall _ c _ s hparse hsub hfits hpath
  obtain rfl : c' = c'' := Except.ok.inj (hparse'.symm.trans hparse'')
  rw [hfound'] at hlost
  cases hlost

end LoadedClass

end JvmRelocation
