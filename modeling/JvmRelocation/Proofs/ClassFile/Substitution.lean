import JvmRelocation.Proofs.ClassFile.References
import JvmRelocation.Proofs.ClassFile.RenamingPlan
import JvmRelocation.Proofs.Name.Role

/-!
# Renaming reaches every name site

After a renaming every name site refers to what its text becomes in its role, whatever else shares
the text: a text that is replaced where it stands is the same for all its sites, and a site that is
moved has a text of its own. Literals, member names and the names of attributes keep their texts.
The renamed class is one that the format can store, so its bytes are read back as it, and its name
sites are those of the class it came from.
-/

namespace JvmRelocation

open ModifiedUtf8 Layout TextReference

theorem mem_sites {refs : List TextReference} {s : NameSite} :
    s ∈ (NameSites.ofReferences refs).sites ↔ site s ∈ refs := by
  simp only [NameSites.ofReferences, List.mem_filterMap]
  constructor
  · rintro ⟨r, hr, heq⟩
    cases r with
    | pinned index => cases heq
    | site s' =>
      obtain rfl : s' = s := by simpa using heq
      exact hr
  · intro h
    exact ⟨_, h, rfl⟩

theorem mem_pinned {refs : List TextReference} {index : UInt16} :
    index ∈ (NameSites.ofReferences refs).pinned ↔ pinned index ∈ refs := by
  simp only [NameSites.ofReferences, List.mem_filterMap]
  constructor
  · rintro ⟨r, hr, heq⟩
    cases r with
    | site s => cases heq
    | pinned index' =>
      obtain rfl : index' = index := by simpa using heq
      exact hr
  · intro h
    exact ⟨_, h, rfl⟩

namespace ClassFile

theorem nameSites_eq_ok {c : ClassFile} {found : NameSites} : c.nameSites = .ok found ↔
    (c.Readable ∧ ∀ r ∈ c.references, r.Resolves c.pool) ∧
      found = NameSites.ofReferences c.references := by
  rw [nameSites, exceptMap_eq_ok]
  simp only [textReferences_eq_ok]
  constructor
  · rintro ⟨_, ⟨h, rfl⟩, rfl⟩
    exact ⟨h, rfl⟩
  · rintro ⟨h, rfl⟩
    exact ⟨_, ⟨h, rfl⟩, rfl⟩

theorem mem_sites_of_nameSites {c : ClassFile} {found : NameSites} (h : c.nameSites = .ok found)
    {s : NameSite} : s ∈ found.sites ↔ site s ∈ c.references := by
  obtain ⟨-, rfl⟩ := nameSites_eq_ok.mp h
  exact mem_sites

/-- A renaming puts the text `w` in place of the text of some name site. -/
def Rewrites (c : ClassFile) (m : NameMapper) (w : String) : Prop :=
  ∃ found, c.nameSites = .ok found ∧ ∃ s ∈ found.sites, ∃ v, c.pool.text? s.index = some v ∧
    s.role.remap m v = some w

/-- The texts that a renaming puts in place of those of name sites. -/
def rewrittenTexts (c : ClassFile) (m : NameMapper) : List String :=
  match c.nameSites with
  | .ok found => found.sites.filterMap fun s =>
      (c.pool.text? s.index).bind fun v => s.role.remap m v
  | .error _ => []

theorem mem_rewrittenTexts {c : ClassFile} {m : NameMapper} {w : String} :
    w ∈ c.rewrittenTexts m ↔ c.Rewrites m w := by
  rw [rewrittenTexts, Rewrites]
  cases c.nameSites with
  | error e => simp
  | ok found => simp [List.mem_filterMap, Option.bind_eq_some_iff]

/-- Every text that a renaming writes fits its length field. -/
def Fits (c : ClassFile) (m : NameMapper) : Prop :=
  ∀ w, c.Rewrites m w → (encode w).length ≤ 65535

instance (c : ClassFile) (m : NameMapper) : Decidable (c.Fits m) :=
  decidable_of_iff (∀ w ∈ c.rewrittenTexts m, (encode w).length ≤ 65535)
    (forall_congr' fun _ => imp_congr_left mem_rewrittenTexts)

/-! ## The pool of the renamed class -/

/-- Slots that are the same, or texts of which the second is one that is written. -/
def Retext (Written : String → Prop) (k k' : Constant) : Prop :=
  k = k' ∨ ∃ bytes w, k = .utf8 bytes ∧ Written w ∧ k' = .utf8 (encode w)

theorem Retext.text_left {Written : String → Prop} {k : Constant} {bytes : Bytes}
    (h : Retext Written k (.utf8 bytes)) : ∃ bytes', k = .utf8 bytes' := by
  rcases h with rfl | ⟨bytes', _, rfl, -, -⟩
  · exact ⟨bytes, rfl⟩
  · exact ⟨bytes', rfl⟩

theorem Retext.sameShape {Written : String → Prop} {k k' : Constant} (h : Retext Written k k')
    (hfits : ∀ w, Written w → (encode w).length < 65536) : ConstantPool.SameShape k k' := by
  rcases h with rfl | ⟨bytes, w, rfl, hw, rfl⟩
  · exact ⟨.rfl, rfl, id⟩
  · exact ⟨by simp, rfl, fun _ => hfits w hw⟩

theorem Retext.references {Written : String → Prop} {k k' : Constant} (h : Retext Written k k')
    (i : UInt16) : ofConstant (i, k') = ofConstant (i, k) := by
  rcases h with rfl | ⟨bytes, w, rfl, -, rfl⟩ <;> rfl

theorem retext_set {Written : String → Prop} {old : List Constant} {pool : ConstantPool}
    (h : List.Forall₂ (Retext Written) old pool.slots.toList) {index : UInt16} {bytes : Bytes}
    (hindex : pool.get? index = some (.utf8 bytes)) {w : String} (hw : Written w) :
    List.Forall₂ (Retext Written) old (pool.set index (.utf8 (encode w))).slots.toList := by
  rw [List.forall₂_iff_get] at h ⊢
  obtain ⟨hlength, hslots⟩ := h
  refine ⟨by simpa [ConstantPool.set] using hlength, fun i hi _ => ?_⟩
  have hi' : i < pool.slots.toList.length := hlength ▸ hi
  have hslot := hslots i hi hi'
  simp only [List.get_eq_getElem, ConstantPool.set, Array.toList_setIfInBounds,
    List.getElem_set] at hslot ⊢
  split
  case isFalse => exact hslot
  case isTrue heq =>
    subst heq
    -- the slot may have been replaced before, but it was a text in the beginning
    rw [ConstantPool.get?_eq, List.getElem?_eq_getElem hi'] at hindex
    rw [Option.some.inj hindex] at hslot
    obtain ⟨bytes', hold⟩ := hslot.text_left
    exact .inr ⟨bytes', w, hold, hw, rfl⟩

/-- Replacing texts leaves every other slot as it is. -/
theorem retext_replaceTexts {Written : String → Prop} {old : List Constant} {pool : ConstantPool}
    (h : List.Forall₂ (Retext Written) old pool.slots.toList) {replaced : List (UInt16 × String)}
    (hwritten : ∀ r ∈ replaced, Written r.2)
    (htexts : ∀ r ∈ replaced, ∃ bytes, pool.get? r.1 = some (.utf8 bytes)) :
    List.Forall₂ (Retext Written) old (pool.replaceTexts replaced).slots.toList := by
  induction replaced generalizing pool with
  | nil => exact h
  | cons r replaced ih =>
    obtain ⟨hr, hreplaced⟩ := List.forall_mem_cons.mp hwritten
    obtain ⟨⟨bytes, hbytes⟩, htexts'⟩ := List.forall_mem_cons.mp htexts
    refine ih (retext_set h hbytes hr) hreplaced fun r' hr' => ?_
    obtain ⟨bytes', hbytes'⟩ := htexts' r' hr'
    rw [ConstantPool.get?_set]
    split
    · exact ⟨_, rfl⟩
    · exact ⟨bytes', hbytes'⟩

/-- The references of constants do not depend on texts. -/
theorem references_retext {Written : String → Prop} {old slots : List Constant}
    (h : List.Forall₂ (Retext Written) old slots) (more : List Bytes) (start : Nat) :
    ((slots ++ more.map Constant.utf8).zipIdx start).flatMap
        (fun x => ofConstant (UInt16.ofNat x.2, x.1)) =
      (old.zipIdx start).flatMap fun x => ofConstant (UInt16.ofNat x.2, x.1) := by
  induction h generalizing start with
  | nil =>
    -- texts refer to nothing, so what is appended adds no references
    rw [List.nil_append, List.zipIdx_nil, List.flatMap_nil, List.flatMap_eq_nil_iff]
    rintro ⟨k, i⟩ hk
    obtain ⟨bytes, -, rfl⟩ := List.mem_map.mp (List.fst_mem_of_mem_zipIdx hk)
    rfl
  | cons hk _ ih =>
    rw [List.cons_append, List.zipIdx_cons, List.zipIdx_cons, List.flatMap_cons, List.flatMap_cons,
      ih, hk.references]

/-! ## The indices that sites are given -/

theorem indicesOf_of_not_mem {known : ConstantPool.Appended} {moved : List (NameSite × String)}
    {changes : Location → Option UInt16} {place : Location}
    (h : ∀ e ∈ moved, e.1.location ≠ place) : indicesOf known moved changes place = changes place := by
  induction moved generalizing changes with
  | nil => rfl
  | cons e moved ih =>
    obtain ⟨he, hmoved⟩ := List.forall_mem_cons.mp h
    rw [indicesOf, List.foldl_cons, ← indicesOf, ih hmoved, exchange_of_ne he.symm]

theorem indicesOf_of_mem {known : ConstantPool.Appended} {moved : List (NameSite × String)}
    {changes : Location → Option UInt16} {place : Location} {t : String}
    (h : ∃ e ∈ moved, e.1.location = place)
    (hunique : ∀ e ∈ moved, e.1.location = place → e.2 = t) :
    indicesOf known moved changes place = some (known.getD t 0) := by
  induction moved generalizing changes with
  | nil =>
    obtain ⟨e, he, -⟩ := h
    cases he
  | cons e moved ih =>
    obtain ⟨he, hmoved⟩ := List.forall_mem_cons.mp hunique
    rw [indicesOf, List.foldl_cons, ← indicesOf]
    -- the last entry for a place counts, and all of them have one text
    by_cases hlater : ∃ e ∈ moved, e.1.location = place
    · exact ih hlater hmoved
    · rw [indicesOf_of_not_mem fun e' he' heq => hlater ⟨e', he', heq⟩]
      obtain ⟨e', hmem, hplace⟩ := h
      rcases List.mem_cons.mp hmem with rfl | hmem
      · rw [hplace, exchange_self, he hplace]
      · exact absurd ⟨e', hmem, hplace⟩ hlater

/-! ## What a renaming makes of a class -/

/-- The index that a name site holds after the indices at locations are exchanged. -/
def newIndex (changes : Location → Option UInt16) (s : NameSite) : UInt16 :=
  (changes s.location).getD s.index

/-- A text may be replaced where it stands: it is not pinned, and it becomes the same text at all of
its sites. -/
structure AgreesOn (c : ClassFile) (m : NameMapper) (i : UInt16) (w : String) : Prop where
  unpinned : pinned i ∉ c.references
  site : ∃ s, site s ∈ c.references ∧ s.index = i
  remap : ∃ v, c.pool.text? i = some v ∧
    ∀ s, TextReference.site s ∈ c.references → s.index = i → s.role.remap m v = some w

/-- A class is another one with its classes renamed: over a pool that has some texts replaced and
some appended, with indices exchanged so that every name site refers to the right text. -/
structure RenamedBy (m : NameMapper) (c c' : ClassFile) (pool : ConstantPool)
    (changes : Location → Option UInt16) : Prop where
  eq : c' = c.withIndices pool changes
  slots : ∃ slots, ∃ more : List String,
    List.Forall₂ (Retext (c.Rewrites m)) c.pool.slots.toList slots ∧
    pool.slots.toList = slots ++ more.map (fun w => .utf8 (encode w)) ∧ ∀ w ∈ more, c.Rewrites m w
  count_le : pool.count ≤ ConstantPool.maxCount
  /-- A slot stays as it is, or holds a text that is replaced where it stands. -/
  slot : ∀ i, i.toNat < c.pool.count → pool.get? i = c.pool.get? i ∨
    ∃ w, c.AgreesOn m i w ∧ pool.get? i = some (.utf8 (encode w))
  /-- What a text becomes at a site is what the site refers to afterwards. -/
  written : ∀ s, site s ∈ c.references → ∀ v w, c.pool.text? s.index = some v →
    s.role.remap m v = some w → pool.utf8Bytes (newIndex changes s) = .ok (encode w)
  /-- A text that does not decode, or that becomes nothing else, stays. -/
  stays : ∀ s, site s ∈ c.references →
    (∀ v, c.pool.text? s.index = some v → s.role.remap m v = none) →
    pool.utf8Bytes (newIndex changes s) = c.pool.utf8Bytes s.index

theorem carryOut_eq_ok {c c' : ClassFile} {plan : RenamingPlan} (h : c.carryOut plan = .ok c') :
    ∃ pool known, (c.pool.replaceTexts plan.replaced).appendTexts {} (plan.moved.map (·.2)) =
        .ok (pool, known) ∧ c' = { c with pool := pool }.moveSites known plan.moved := by
  obtain ⟨⟨pool, known⟩, hpool, hclass⟩ := exceptBind_eq_ok.mp h
  obtain rfl : _ = c' := by simpa [pure, Except.pure] using hclass
  exact ⟨pool, known, hpool, rfl⟩

section CarryOut

variable {c c' : ClassFile} {m : NameMapper} {found : NameSites} {pool : ConstantPool}
  {known : ConstantPool.Appended}

/-- The indices that the sites of a class are given by a plan. -/
abbrev planned (c : ClassFile) (m : NameMapper) (found : NameSites)
    (known : ConstantPool.Appended) : Location → Option UInt16 :=
  indicesOf known (RenamingPlan.make m c.pool found).moved fun _ => none

theorem hasPlace_of_moved (hcount : c.pool.count ≤ 65536) (hfound : c.nameSites = .ok found)
    {e : NameSite × String} (he : e ∈ (RenamingPlan.make m c.pool found).moved) :
    c.HoldsSite e.1 := by
  obtain ⟨hs, -⟩ := RenamingPlan.mem_moved.mp he
  exact holdsSite_of_mem hcount ((mem_sites_of_nameSites hfound).mp hs)

theorem rewrites_of_moved (hfound : c.nameSites = .ok found) {e : NameSite × String}
    (he : e ∈ (RenamingPlan.make m c.pool found).moved) : c.Rewrites m e.2 := by
  obtain ⟨hs, -, v, hv, ht⟩ := RenamingPlan.mem_moved.mp he
  exact ⟨found, hfound, e.1, hs, v, hv, ht⟩

theorem rewrites_of_replaces (hfound : c.nameSites = .ok found) {index : UInt16} {t : String}
    (h : RenamingPlan.Replaces m c.pool found index t) : c.Rewrites m t := by
  obtain ⟨s, hs, rfl⟩ := h.exists_site
  obtain ⟨-, v, hv, -⟩ := id h
  exact ⟨found, hfound, s, hs, v, hv, h.remap hv hs rfl⟩

/-- A site that is moved is given the index of its own text. -/
theorem planned_of_moved (hcount : c.pool.count ≤ 65536) (hfound : c.nameSites = .ok found)
    {s : NameSite} {t : String} (h : (s, t) ∈ (RenamingPlan.make m c.pool found).moved) :
    planned c m found known s.location = some (known.getD t 0) := by
  refine indicesOf_of_mem ⟨(s, t), h, rfl⟩ fun e he heq => ?_
  -- a place holds one site, so two entries for it are about the same site and the same text
  have hsame : e.1 = s :=
    (hasPlace_of_moved hcount hfound he).unique (hasPlace_of_moved hcount hfound h) heq
  obtain ⟨-, -, v, hv, ht⟩ := RenamingPlan.mem_moved.mp he
  obtain ⟨-, -, v', hv', ht'⟩ := RenamingPlan.mem_moved.mp h
  rw [hsame] at hv ht
  obtain rfl : v = v' := Option.some.inj (hv.symm.trans hv')
  exact Option.some.inj (ht.symm.trans ht')

/-- A site that is not moved keeps its index. -/
theorem planned_of_not_moved (hcount : c.pool.count ≤ 65536) (hfound : c.nameSites = .ok found)
    {s : NameSite} (hs : site s ∈ c.references)
    (h : ∀ t, (s, t) ∉ (RenamingPlan.make m c.pool found).moved) :
    planned c m found known s.location = none := by
  refine indicesOf_of_not_mem fun e he heq => ?_
  have hsame : e.1 = s :=
    (hasPlace_of_moved hcount hfound he).unique (holdsSite_of_mem hcount hs) heq
  exact h e.2 (hsame ▸ he)

end CarryOut

theorem knows_empty (pool : ConstantPool) : pool.Knows {} := by
  intro t index h
  rw [Std.TreeMap.get?_eq_getElem?] at h
  simp at h

theorem utf8Bytes_getD {pool : ConstantPool} {known : ConstantPool.Appended}
    (hknows : pool.Knows known) {t : String} (h : known.contains t = true) :
    pool.utf8Bytes (known.getD t 0) = .ok (encode t) := by
  refine ConstantPool.utf8Bytes_eq_ok.mpr (hknows t _ ?_)
  exact Std.TreeMap.getElem?_eq_some_getD (Std.TreeMap.contains_iff_mem.mp h)

/-- The pool after a plan is carried out: the replaced texts are replaced, and the texts of the moved
sites are appended where they are known to be. -/
structure CarriedOut (c : ClassFile) (m : NameMapper) (found : NameSites) (pool : ConstantPool)
    (known : ConstantPool.Appended) : Prop where
  sites : c.nameSites = .ok found
  count : c.pool.count ≤ ConstantPool.maxCount
  slots : ∃ more : List String,
    (∀ w ∈ more, w ∈ (RenamingPlan.make m c.pool found).moved.map (·.2)) ∧
    pool.slots.toList =
      (c.pool.replaceTexts (RenamingPlan.make m c.pool found).replaced).slots.toList ++
        more.map fun w => .utf8 (encode w)
  count_le : pool.count ≤ ConstantPool.maxCount
  knows : pool.Knows known
  moved : ∀ e ∈ (RenamingPlan.make m c.pool found).moved, known.contains e.2 = true

theorem carriedOut_of_carryOut {c c' : ClassFile} {m : NameMapper} {found : NameSites}
    (hcount : c.pool.count ≤ ConstantPool.maxCount) (hfound : c.nameSites = .ok found)
    (h : c.carryOut (RenamingPlan.make m c.pool found) = .ok c') :
    ∃ pool known, CarriedOut c m found pool known ∧
      c' = { c with pool := pool }.moveSites known (RenamingPlan.make m c.pool found).moved := by
  obtain ⟨pool, known, happend, rfl⟩ := carryOut_eq_ok h
  obtain ⟨hslots, hcountPool, hknows, -, hall⟩ :=
    ConstantPool.appendTexts_eq_ok happend (knows_empty _)
      (by rw [ConstantPool.count_replaceTexts]; exact hcount)
  exact ⟨pool, known, ⟨hfound, hcount, hslots, hcountPool, hknows,
    fun e he => hall e.2 (List.mem_map.mpr ⟨e, he, rfl⟩)⟩, rfl⟩

namespace CarriedOut

variable {c : ClassFile} {m : NameMapper} {found : NameSites} {pool : ConstantPool}
  {known : ConstantPool.Appended} {s : NameSite}

theorem count_le_indices (h : CarriedOut c m found pool known) : c.pool.count ≤ 65536 := by
  have hcount := h.count
  simp only [ConstantPool.maxCount] at hcount
  omega

theorem index_lt (h : CarriedOut c m found pool known) (hs : site s ∈ c.references) :
    s.index.toNat < c.pool.count := by
  obtain ⟨⟨-, hresolves⟩, -⟩ := nameSites_eq_ok.mp h.sites
  obtain ⟨bytes, hbytes⟩ := hresolves _ hs
  exact ConstantPool.lt_count_of_get? (ConstantPool.utf8Bytes_eq_ok.mp hbytes)

theorem mem_sites (h : CarriedOut c m found pool known) (hs : site s ∈ c.references) :
    s ∈ found.sites :=
  (mem_sites_of_nameSites h.sites).mpr hs

/-- In front of the appended texts the pool is the one with replaced texts. -/
theorem get?_eq (h : CarriedOut c m found pool known) {i : UInt16} (hi : i.toNat < c.pool.count) :
    pool.get? i =
      (c.pool.replaceTexts (RenamingPlan.make m c.pool found).replaced).get? i := by
  obtain ⟨more, -, hslots⟩ := h.slots
  exact ConstantPool.get?_of_append hslots (by rwa [ConstantPool.count_replaceTexts])

/-- A text that is not replaced stays. -/
theorem utf8Bytes_eq (h : CarriedOut c m found pool known) {i : UInt16}
    (hi : i.toNat < c.pool.count) (hnot : ∀ t, ¬RenamingPlan.Replaces m c.pool found i t) :
    pool.utf8Bytes i = c.pool.utf8Bytes i := by
  have hget : pool.get? i = c.pool.get? i := by
    rw [h.get?_eq hi, ConstantPool.get?_replaceTexts_of_not_mem fun t ht =>
      hnot t (RenamingPlan.mem_replaced.mp ht)]
  exact ConstantPool.utf8Bytes_congr fun bytes => by rw [hget]

/-- A site that is not moved refers to the index that it referred to. -/
theorem newIndex_eq (h : CarriedOut c m found pool known) (hs : site s ∈ c.references)
    (hnot : ∀ t, (s, t) ∉ (RenamingPlan.make m c.pool found).moved) :
    newIndex (planned c m found known) s = s.index := by
  rw [newIndex, planned_of_not_moved h.count_le_indices h.sites hs hnot]
  rfl

/-- The slots are those of the old pool with some texts rewritten, and rewritten texts behind. -/
theorem retext (h : CarriedOut c m found pool known) : ∃ slots, ∃ more : List String,
    List.Forall₂ (Retext (c.Rewrites m)) c.pool.slots.toList slots ∧
    pool.slots.toList = slots ++ more.map (fun w => .utf8 (encode w)) ∧
      ∀ w ∈ more, c.Rewrites m w := by
  obtain ⟨more, hmore, hslots⟩ := h.slots
  refine ⟨_, more, ?_, hslots, fun w hw => ?_⟩
  · refine retext_replaceTexts (List.forall₂_same.mpr fun _ _ => .inl rfl) ?_ ?_
    · intro r hr
      exact rewrites_of_replaces h.sites (RenamingPlan.mem_replaced.mp hr)
    · intro r hr
      obtain ⟨-, v, hv, -⟩ := RenamingPlan.mem_replaced.mp hr
      obtain ⟨bytes, hbytes, -⟩ := ConstantPool.utf8Bytes_of_text? hv
      exact ⟨bytes, ConstantPool.utf8Bytes_eq_ok.mp hbytes⟩
  · obtain ⟨e, he, rfl⟩ := List.mem_map.mp (hmore w hw)
    exact rewrites_of_moved h.sites he

/-- A slot stays as it is, or holds a text that is replaced where it stands. -/
theorem slot (h : CarriedOut c m found pool known) {i : UInt16} (hi : i.toNat < c.pool.count) :
    pool.get? i = c.pool.get? i ∨
      ∃ w, c.AgreesOn m i w ∧ pool.get? i = some (.utf8 (encode w)) := by
  by_cases hreplaces : ∃ w, RenamingPlan.Replaces m c.pool found i w
  · obtain ⟨w, hw⟩ := hreplaces
    obtain ⟨hunpinned, v, hv, -⟩ := id hw
    obtain ⟨-, hsites⟩ := nameSites_eq_ok.mp h.sites
    refine .inr ⟨w, ⟨?_, ?_, v, hv, fun s hs => hw.remap hv (h.mem_sites hs)⟩, ?_⟩
    · rwa [hsites, mem_pinned] at hunpinned
    · obtain ⟨s, hs, hindex⟩ := hw.exists_site
      rw [hsites, JvmRelocation.mem_sites] at hs
      exact ⟨s, hs, hindex⟩
    · rw [h.get?_eq hi]
      exact ConstantPool.get?_replaceTexts_of_mem (RenamingPlan.mem_replaced.mpr hw)
        (fun w' hw' => (RenamingPlan.mem_replaced.mp hw').unique hw) hi
  · refine .inl ?_
    rw [h.get?_eq hi, ConstantPool.get?_replaceTexts_of_not_mem fun w hw =>
      hreplaces ⟨w, RenamingPlan.mem_replaced.mp hw⟩]

/-- A site whose text is renamed stays, if all sites of the text agree and it is replaced, and is
moved otherwise. -/
theorem written (h : CarriedOut c m found pool known) (hs : site s ∈ c.references) {v w : String}
    (hv : c.pool.text? s.index = some v) (hremap : s.role.remap m v = some w) :
    pool.utf8Bytes (newIndex (planned c m found known) s) = .ok (encode w) := by
  by_cases hreplaces : ∃ t, RenamingPlan.Replaces m c.pool found s.index t
  · obtain ⟨t, ht⟩ := hreplaces
    obtain rfl : t = w := Option.some.inj ((ht.remap hv (h.mem_sites hs) rfl).symm.trans hremap)
    have hnot (u) : (s, u) ∉ (RenamingPlan.make m c.pool found).moved := fun hu =>
      (RenamingPlan.mem_moved.mp hu).2.1 t ht
    rw [h.newIndex_eq hs hnot, ConstantPool.utf8Bytes_eq_ok, h.get?_eq (h.index_lt hs)]
    exact ConstantPool.get?_replaceTexts_of_mem (RenamingPlan.mem_replaced.mpr ht)
      (fun t' ht' => (RenamingPlan.mem_replaced.mp ht').unique ht) (h.index_lt hs)
  · have hmoved : (s, w) ∈ (RenamingPlan.make m c.pool found).moved :=
      RenamingPlan.mem_moved.mpr ⟨h.mem_sites hs, fun t ht => hreplaces ⟨t, ht⟩, v, hv, hremap⟩
    rw [newIndex, planned_of_moved h.count_le_indices h.sites hmoved]
    exact utf8Bytes_getD h.knows (h.moved _ hmoved)

/-- A text that does not decode, or that becomes nothing else, is neither replaced nor moved. -/
theorem stays (h : CarriedOut c m found pool known) (hs : site s ∈ c.references)
    (hnone : ∀ v, c.pool.text? s.index = some v → s.role.remap m v = none) :
    pool.utf8Bytes (newIndex (planned c m found known) s) = c.pool.utf8Bytes s.index := by
  have hnot (t) : ¬RenamingPlan.Replaces m c.pool found s.index t := by
    intro ht
    obtain ⟨-, v, hv, -⟩ := id ht
    have hremap := ht.remap hv (h.mem_sites hs) rfl
    rw [hnone v hv] at hremap
    cases hremap
  have hkept (u) : (s, u) ∉ (RenamingPlan.make m c.pool found).moved := by
    intro hu
    obtain ⟨-, -, v, hv, hremap⟩ := RenamingPlan.mem_moved.mp hu
    rw [hnone v hv] at hremap
    cases hremap
  rw [h.newIndex_eq hs hkept]
  exact h.utf8Bytes_eq (h.index_lt hs) hnot

end CarriedOut

/-- **Carrying out a plan renames the class.** -/
theorem renamedBy_of_carryOut {c c' : ClassFile} {m : NameMapper} {found : NameSites}
    (hcount : c.pool.count ≤ ConstantPool.maxCount) (hfound : c.nameSites = .ok found)
    (hcarry : c.carryOut (RenamingPlan.make m c.pool found) = .ok c') :
    ∃ pool changes, RenamedBy m c c' pool changes := by
  obtain ⟨pool, known, h, rfl⟩ := carriedOut_of_carryOut hcount hfound hcarry
  have hcountPool := h.count_le
  refine ⟨pool, planned c m found known, ?_, h.retext, hcountPool, fun _ => h.slot,
    fun _ hs _ _ => h.written hs, fun _ => h.stays⟩
  refine moveSites_eq ?_ known _ fun e he =>
    (hasPlace_of_moved h.count_le_indices hfound he).hasPlace
  simp only [ConstantPool.maxCount] at hcountPool
  omega

/-- A plan that does nothing leaves the class as it is. -/
theorem carryOut_of_isEmpty (c : ClassFile) {plan : RenamingPlan} (h : plan.isEmpty = true) :
    c.carryOut plan = .ok c := by
  obtain ⟨replaced, moved⟩ := plan
  obtain ⟨rfl, rfl⟩ : replaced = [] ∧ moved = [] := by simpa [RenamingPlan.isEmpty] using h
  rfl

/-- The structure that a renaming makes of a class. -/
def renamed (c : ClassFile) (m : NameMapper) : Except FormatError ClassFile := do
  c.carryOut (← c.plan m)

theorem renamedBy_of_renamed {c c' : ClassFile} {m : NameMapper}
    (hcount : c.pool.count ≤ ConstantPool.maxCount) (h : c.renamed m = .ok c') :
    ∃ found pool changes, c.nameSites = .ok found ∧ RenamedBy m c c' pool changes := by
  obtain ⟨plan, hplan, hcarry⟩ := exceptBind_eq_ok.mp h
  obtain ⟨found, hfound, heq⟩ := exceptBind_eq_ok.mp hplan
  obtain rfl : _ = plan := by simpa [pure, Except.pure] using heq
  obtain ⟨pool, changes, hrenamed⟩ := renamedBy_of_carryOut hcount hfound hcarry
  exact ⟨found, pool, changes, hfound, hrenamed⟩

namespace RenamedBy

variable {m : NameMapper} {c c' : ClassFile} {pool : ConstantPool}
  {changes : Location → Option UInt16}

/-- A text that decodes is the renamed one afterwards. -/
theorem text (h : RenamedBy m c c' pool changes) (s : NameSite) (hs : site s ∈ c.references)
    (v : String) (hv : c.pool.text? s.index = some v) :
    pool.text? (newIndex changes s) = some (s.role.renamed m v) := by
  cases hremap : s.role.remap m v with
  | some w =>
    rw [NameRole.renamed, hremap]
    exact ConstantPool.text?_encode (h.written s hs v w hv hremap)
  | none =>
    rw [NameRole.renamed, hremap, Option.getD_none, ← hv]
    refine ConstantPool.text?_eq (h.stays s hs fun v' hv' => ?_)
    rwa [Option.some.inj (hv'.symm.trans hv)]

/-- A text that does not decode stays. -/
theorem raw (h : RenamedBy m c c' pool changes) (s : NameSite) (hs : site s ∈ c.references)
    (hv : c.pool.text? s.index = none) :
    pool.utf8Bytes (newIndex changes s) = c.pool.utf8Bytes s.index := by
  refine h.stays s hs fun v hv' => ?_
  rw [hv] at hv'
  cases hv'

/-- A pinned text stays. -/
theorem pinned (h : RenamedBy m c c' pool changes) (i : UInt16)
    (hi : TextReference.pinned i ∈ c.references) (hlt : i.toNat < c.pool.count) :
    pool.utf8Bytes i = c.pool.utf8Bytes i := by
  rcases h.slot i hlt with hget | ⟨w, hagrees, -⟩
  · exact ConstantPool.utf8Bytes_congr fun bytes => by rw [hget]
  · exact absurd hi hagrees.unpinned

theorem pool_eq (h : RenamedBy m c c' pool changes) :
    c'.pool = pool.withIndices fun i => changes (.slot i) := by
  rw [h.eq]
  rfl

theorem utf8Bytes_eq (h : RenamedBy m c c' pool changes) (i : UInt16) :
    c'.pool.utf8Bytes i = pool.utf8Bytes i := by
  rw [h.pool_eq, ConstantPool.utf8Bytes_withIndices]

theorem text?_eq (h : RenamedBy m c c' pool changes) (i : UInt16) :
    c'.pool.text? i = pool.text? i :=
  ConstantPool.text?_eq (h.utf8Bytes_eq i)

/-- A slot that holds no text stays what it is, up to the index in it. -/
theorem get?_of_not_text (h : RenamedBy m c c' pool changes) {i : UInt16} {k : Constant}
    (hk : c.pool.get? i = some k) (htext : ∀ bytes, k ≠ .utf8 bytes) :
    c'.pool.get? i = some (k.withIndex (changes (.slot i))) := by
  obtain ⟨slots, more, hold, hslots, -⟩ := h.slots
  rw [ConstantPool.get?_eq] at hk
  obtain ⟨hlt, rfl⟩ := List.getElem?_eq_some_iff.mp hk
  obtain ⟨hlength, hall⟩ := List.forall₂_iff_get.mp hold
  have hlt' : i.toNat < slots.length := hlength ▸ hlt
  rw [h.pool_eq, ConstantPool.get?_withIndices, ConstantPool.get?_eq, hslots,
    List.getElem?_append_left hlt', List.getElem?_eq_getElem hlt', Option.map_some]
  -- only texts are replaced
  rcases hall i.toNat hlt hlt' with heq | ⟨bytes, w, htext', -, -⟩
  · exact congrArg (fun k => some (Constant.withIndex _ k)) heq.symm
  · exact absurd htext' (htext bytes)

/-- A class entry names the renamed class. -/
theorem className (h : RenamedBy m c c' pool changes) {i : UInt16} {name : String}
    (hname : c.pool.className i = .ok name) :
    c'.pool.className i = .ok (NameRole.className.renamed m name) := by
  obtain ⟨index, hget, htext⟩ := ConstantPool.className_eq_ok.mp hname
  refine ConstantPool.className_eq_ok.mpr ⟨newIndex changes ⟨.slot i, index, .className⟩, ?_, ?_⟩
  · rw [h.get?_of_not_text hget (by simp), newIndex]
    cases changes (.slot i) <;> rfl
  · rw [h.text?_eq]
    exact h.text _ (site_of_classInfo hget) name htext

/-- The header of the renamed class resolves, unless the class gets a name that is not usable as a
path. -/
theorem resolveHeader (h : RenamedBy m c c' pool changes) {name : String}
    (hheader : c.resolveHeader = .ok name)
    (hpath : isPathName (NameRole.className.renamed m name) = true) :
    c'.resolveHeader = .ok (NameRole.className.renamed m name) := by
  obtain ⟨hthis, -, hsuper, hinterfaces⟩ := resolveHeader_eq_ok.mp hheader
  obtain ⟨hthisClass, hsuperClass, hinterfaceList⟩ : c'.thisClass = c.thisClass ∧
      c'.superClass = c.superClass ∧ c'.interfaces = c.interfaces := by
    rw [h.eq]
    exact ⟨rfl, rfl, rfl⟩
  rw [resolveHeader_eq_ok, hthisClass, hsuperClass, hinterfaceList]
  refine ⟨h.className hthis, hpath, fun hne => ?_, fun i hi => ?_⟩
  · obtain ⟨super, hsuper⟩ := hsuper hne
    exact ⟨_, h.className hsuper⟩
  · obtain ⟨interface, hinterface⟩ := hinterfaces i hi
    exact ⟨_, h.className hinterface⟩

/-! ### The renamed class can be stored -/

theorem attributes_storable {pool : ConstantPool} {attributes : Array Attribute}
    {changes : Nat → Nat → Option UInt16}
    (h : attributes.toList.length < 65536 ∧ ∀ a ∈ attributes.toList, a.Storable) :
    let renamed := attributes.mapIdx fun i a => a.withIndices pool (changes i)
    renamed.toList.length < 65536 ∧ ∀ a ∈ renamed.toList, a.Storable := by
  refine ⟨by simpa using h.1, fun a ha => ?_⟩
  obtain ⟨i, hi, rfl⟩ := List.mem_mapIdx.mp (Array.toList_mapIdx ▸ ha)
  have hstorable := h.2 _ (List.getElem_mem hi)
  rw [Attribute.Storable] at hstorable ⊢
  rwa [Attribute.size_withIndices]

theorem members_storable {pool : ConstantPool} {members : Array Member}
    {descriptors : Nat → Option UInt16} {changes : Nat → Nat → Nat → Option UInt16}
    (h : members.toList.length < 65536 ∧ ∀ m ∈ members.toList, m.Storable) :
    let renamed := members.mapIdx fun i m => m.withIndices pool (descriptors i) (changes i)
    renamed.toList.length < 65536 ∧ ∀ m ∈ renamed.toList, m.Storable := by
  refine ⟨by simpa using h.1, fun m hm => ?_⟩
  obtain ⟨i, hi, rfl⟩ := List.mem_mapIdx.mp (Array.toList_mapIdx ▸ hm)
  exact attributes_storable (h.2 _ (List.getElem_mem hi))

theorem wellFormed (h : RenamedBy m c c' pool changes) (hc : c.WellFormed)
    (hfits : c.Fits m) : c'.WellFormed := by
  obtain ⟨slots, more, hold, hslots, hmore⟩ := h.slots
  obtain rfl := h.eq
  refine ⟨hc.version, ?_, hc.interfaces, members_storable hc.fields, members_storable hc.methods,
    attributes_storable hc.attributes⟩
  refine hc.pool.of_shape
    (slots.mapIdx fun i k => k.withIndex (changes (.slot (UInt16.ofNat i)))) (more.map encode)
    ?_ ?_ ?_ ?_
  · rw [List.forall₂_iff_get] at hold ⊢
    refine ⟨by simpa using hold.1, fun i hi hi' => ?_⟩
    have hslot := hold.2 i hi (hold.1 ▸ hi)
    simp only [List.get_eq_getElem, List.getElem_mapIdx] at hslot ⊢
    exact (hslot.sameShape fun w hw => Nat.lt_succ_of_le (hfits w hw)).withIndex _
  · intro bytes hbytes
    obtain ⟨w, hw, rfl⟩ := List.mem_map.mp hbytes
    exact Nat.lt_succ_of_le (hfits w (hmore w hw))
  -- there is no index in a text that could be exchanged
  · have htexts (i : Nat) (k : Constant) (hk : k ∈ more.map fun w => Constant.utf8 (encode w)) :
        k.withIndex (changes (.slot (UInt16.ofNat i))) = k := by
      obtain ⟨w, -, rfl⟩ := List.mem_map.mp hk
      cases changes (.slot (UInt16.ofNat i)) <;> rfl
    simp only [withIndices, ConstantPool.withIndices, Array.toList_mapIdx, hslots, List.mapIdx_append,
      List.map_map]
    congr 1
    apply List.ext_getElem
    · simp
    · intro i hi _
      simp only [List.getElem_mapIdx]
      rw [htexts _ _ (List.getElem_mem _)]
      simp
  · rw [withIndices, ConstantPool.count_withIndices]
    exact h.count_le

end RenamedBy

end ClassFile

/-! ## Classes that are read, renamed and read again -/

namespace LoadedClass

/-- The result of a renaming is the bytes of the structure that it makes. -/
theorem renamed_of_substitute {source : Bytes} {c : LoadedClass} {m : NameMapper} {s : Substitution}
    (hparse : parse source = .ok c) (hsub : c.substitute m = .ok s) :
    ∃ c', c.renamed m = .ok c' ∧ s.bytes = c'.toBytes := by
  obtain ⟨plan, hplan, hrest⟩ := exceptBind_eq_ok.mp hsub
  split at hrest
  case isTrue hempty =>
    obtain rfl : _ = s := by simpa [pure, Except.pure] using hrest
    refine ⟨c.toClassFile, exceptBind_eq_ok.mpr ⟨plan, hplan, c.carryOut_of_isEmpty hempty⟩, ?_⟩
    -- the source itself is returned, and a class that was read is written as its source
    rw [toBytes_of_parse hparse, (parse_ok hparse).1]
  case isFalse =>
    obtain ⟨c', hcarry, hrest⟩ := exceptBind_eq_ok.mp hrest
    obtain rfl : _ = s := by simpa [pure, Except.pure] using hrest
    exact ⟨c', exceptBind_eq_ok.mpr ⟨plan, hplan, hcarry⟩, rfl⟩

/-- A class for which there is a renamed structure can be renamed. -/
theorem exists_substitute_of_renamed {c : LoadedClass} {m : NameMapper} {c' : ClassFile}
    (h : c.renamed m = .ok c') : ∃ s, c.substitute m = .ok s := by
  obtain ⟨plan, hplan, hcarry⟩ := exceptBind_eq_ok.mp h
  by_cases hempty : plan.isEmpty = true
  · exact ⟨_, exceptBind_eq_ok.mpr ⟨plan, hplan, if_pos hempty⟩⟩
  · refine ⟨⟨c'.toBytes, c'.toBytes != c.source⟩, exceptBind_eq_ok.mpr ⟨plan, hplan, ?_⟩⟩
    rw [if_neg hempty]
    exact exceptBind_eq_ok.mpr ⟨c', hcarry, rfl⟩

/-- A class at whose name sites nothing becomes of any text keeps its bytes. -/
theorem substitute_of_remap {c : LoadedClass} {m : NameMapper} {found : NameSites}
    (hfound : c.nameSites = .ok found)
    (h : ∀ s ∈ found.sites, ∀ v, c.pool.text? s.index = some v → s.role.remap m v = none) :
    c.substitute m = .ok ⟨c.source, false⟩ := by
  rw [substitute, ClassFile.plan, hfound]
  show (if (RenamingPlan.make m c.pool found).isEmpty = true then _ else _) = _
  rw [if_pos (RenamingPlan.isEmpty_make h)]
  rfl

theorem substitute_eq_ok {source : Bytes} {c : LoadedClass} {m : NameMapper} {s : Substitution}
    (hparse : parse source = .ok c) (hsub : c.substitute m = .ok s) :
    ∃ found c' pool changes, c.nameSites = .ok found ∧
      ClassFile.RenamedBy m c.toClassFile c' pool changes ∧ s.bytes = c'.toBytes := by
  obtain ⟨c', hrenamed, hbytes⟩ := renamed_of_substitute hparse hsub
  obtain ⟨found, pool, changes, hfound, hby⟩ :=
    ClassFile.renamedBy_of_renamed (wellFormed_of_parse hparse).pool.count_le hrenamed
  exact ⟨found, c', pool, changes, hfound, hby, hbytes⟩

/-- The renamed class is read back, under its new name. -/
theorem parse_renamed {source : Bytes} {c : LoadedClass} {m : NameMapper} {c' : ClassFile}
    {pool : ConstantPool} {changes : Location → Option UInt16} (hparse : parse source = .ok c)
    (h : ClassFile.RenamedBy m c.toClassFile c' pool changes)
    (hfits : c.Fits m)
    (hpath : isPathName (NameRole.className.renamed m c.declaredName) = true) :
    parse c'.toBytes = .ok { c' with
      declaredName := NameRole.className.renamed m c.declaredName, source := c'.toBytes } := by
  have hformed := h.wellFormed (wellFormed_of_parse hparse) hfits
  exact parse_toBytes hformed (h.resolveHeader (parse_ok hparse).2.1 hpath)

/-- A renamed class that is read is the renamed structure, under the renamed name. -/
theorem parse_renamed_eq_ok {c : LoadedClass} {source : Bytes} {m : NameMapper} {c' : ClassFile}
    {pool : ConstantPool} {changes : Location → Option UInt16} (hparse : parse source = .ok c)
    (h : ClassFile.RenamedBy m c.toClassFile c' pool changes)
    (hfits : c.Fits m) {d : LoadedClass}
    (hd : parse c'.toBytes = .ok d) :
    d.toClassFile = c' ∧ d.declaredName = NameRole.className.renamed m c.declaredName := by
  have hformed := h.wellFormed (wellFormed_of_parse hparse) hfits
  obtain ⟨-, hheader, last, hdecode, -⟩ := parse_ok hd
  -- the renamed structure is what its bytes are read as, so it is the class that was read
  have hagain := ClassFile.decode_complete hformed 0 []
  rw [List.append_nil] at hagain
  rw [Cursor.start, hagain] at hdecode
  obtain ⟨hclass, -⟩ := EStateM.Result.ok.inj hdecode
  refine ⟨hclass.symm, ?_⟩
  have hthis := (ClassFile.resolveHeader_eq_ok.mp hheader).1
  have hold := (ClassFile.resolveHeader_eq_ok.mp (parse_ok hparse).2.1).1
  have hthisClass : c'.thisClass = c.thisClass := by
    rw [h.eq]
    rfl
  rw [← hclass, hthisClass, h.className hold] at hthis
  exact (Except.ok.inj hthis).symm

end LoadedClass

end JvmRelocation
