import JvmRelocation.Proofs.ClassFile.RenamedSites
import JvmRelocation.Proofs.ClassFile.Repointing

/-!
# A renaming fails for two reasons

It fails with the error of collecting the name sites, or because there is no room in the pool for the
texts that it appends. Those are the texts of the sites that cannot be rewritten where their text
stands, each counted once: sites in different roles share a text that is the same. There is no third
reason, whatever a class was made into after it was read.
-/

namespace JvmRelocation

open ModifiedUtf8 TextReference

namespace RenamingPlan

theorem agreed?_of_forall {list : List (NameSite × Option String)} {t : String} (hne : list ≠ [])
    (h : ∀ o ∈ list, o.2 = some t) : agreed? list = some t := by
  cases list with
  | nil => exact absurd rfl hne
  | cons first rest =>
    obtain ⟨s, outcome⟩ := first
    obtain ⟨hfirst, hrest⟩ := List.forall_mem_cons.mp h
    obtain rfl : outcome = some t := hfirst
    have hall : rest.all (·.2 == some t) = true :=
      List.all_eq_true.mpr fun o ho => beq_iff_eq.mpr (hrest o ho)
    unfold agreed?
    dsimp only
    rw [if_pos hall]

end RenamingPlan

namespace ClassFile

variable {c : ClassFile} {m : NameMapper} {found : NameSites}

/-- What a plan replaces is what may be replaced. -/
theorem replaces_iff_agreesOn (hfound : c.nameSites = .ok found) {i : UInt16} {w : String} :
    RenamingPlan.Replaces m c.pool found i w ↔ c.AgreesOn m i w := by
  obtain ⟨-, rfl⟩ := nameSites_eq_ok.mp hfound
  constructor
  · intro h
    obtain ⟨hunpinned, v, hv, -⟩ := id h
    obtain ⟨s, hs, hindex⟩ := h.exists_site
    refine ⟨fun hmem => hunpinned (mem_pinned.mpr hmem), ⟨s, mem_sites.mp hs, hindex⟩, v, hv, ?_⟩
    exact fun s hs hindex => h.remap hv (mem_sites.mpr hs) hindex
  · rintro ⟨hunpinned, ⟨s, hs, hindex⟩, v, hv, hall⟩
    refine ⟨fun hmem => hunpinned (mem_pinned.mp hmem), v, hv, ?_⟩
    refine RenamingPlan.agreed?_of_forall ?_ fun o ho => ?_
    · have hmem : s ∈ (NameSites.ofReferences c.references).sitesOf i :=
        List.mem_filter.mpr ⟨mem_sites.mpr hs, by simpa using hindex⟩
      exact List.ne_nil_of_mem (List.mem_map_of_mem hmem)
    · obtain ⟨s', hs', rfl⟩ := List.mem_map.mp ho
      obtain ⟨hsite, hindex'⟩ := List.mem_filter.mp hs'
      exact hall s' (mem_sites.mp hsite) (by simpa using hindex')

/-- The text `w` has to be appended: it is what the text of some site becomes, and that text may not
be replaced where it stands. -/
def NeedsSlot (c : ClassFile) (m : NameMapper) (w : String) : Prop :=
  ∃ s v, site s ∈ c.references ∧ c.pool.text? s.index = some v ∧ s.role.remap m v = some w ∧
    ∀ t, ¬c.AgreesOn m s.index t

theorem mem_moved_iff_needsSlot (hfound : c.nameSites = .ok found) {w : String} :
    w ∈ (RenamingPlan.make m c.pool found).moved.map (·.2) ↔ c.NeedsSlot m w := by
  simp only [List.mem_map, Prod.exists, exists_eq_right, RenamingPlan.mem_moved,
    replaces_iff_agreesOn hfound, NeedsSlot, mem_sites_of_nameSites hfound]
  constructor
  · rintro ⟨s, hs, hnot, v, hv, hw⟩
    exact ⟨s, v, hs, hv, hw, hnot⟩
  · rintro ⟨s, v, hs, hv, hw, hnot⟩
    exact ⟨s, hs, hnot, v, hv, hw⟩

/-- The texts that a plan appends, each once, in the order in which its sites need them. -/
def ownTexts (c : ClassFile) (m : NameMapper) (found : NameSites) : List String :=
  ConstantPool.freshTexts (fun _ => false) ((RenamingPlan.make m c.pool found).moved.map (·.2))

theorem mem_ownTexts_iff (hfound : c.nameSites = .ok found) {w : String} :
    w ∈ c.ownTexts m found ↔ c.NeedsSlot m w := by
  rw [ownTexts, ConstantPool.mem_freshTexts, mem_moved_iff_needsSlot hfound]
  exact and_iff_left rfl

/-- There is room for the texts of a plan, or there is none. -/
theorem appendTexts_ownTexts (hcount : c.pool.count ≤ ConstantPool.maxCount) (m : NameMapper)
    (found : NameSites) :
    let pool := c.pool.replaceTexts (RenamingPlan.make m c.pool found).replaced
    let texts := (RenamingPlan.make m c.pool found).moved.map (·.2)
    (ConstantPool.maxCount < c.pool.count + (c.ownTexts m found).length ∧
        pool.appendTexts {} texts = .error .poolOverflow) ∨
      (c.pool.count + (c.ownTexts m found).length ≤ ConstantPool.maxCount ∧
        ∃ pool' known, pool.appendTexts {} texts = .ok (pool', known) ∧
          pool'.slots.toList =
            pool.slots.toList ++ (c.ownTexts m found).map fun w => .utf8 (encode w)) := by
  intro pool texts
  have hreplaced : pool.count = c.pool.count := ConstantPool.count_replaceTexts _ _
  have hnone : (({} : ConstantPool.Appended).contains) = fun _ => false := by
    funext t
    simp
  have houtcome := pool.appendTexts_outcome (by rwa [hreplaced]) {} texts
  rw [hnone, hreplaced] at houtcome
  exact houtcome

/-- A plan is empty exactly if there is nothing to rewrite. -/
theorem isEmpty_make_iff (hfound : c.nameSites = .ok found) :
    (RenamingPlan.make m c.pool found).isEmpty = true ↔ ∀ w, ¬c.Rewrites m w := by
  constructor
  · rintro hempty w ⟨found', hfound', s, hs, v, hv, hw⟩
    obtain rfl : found = found' := Except.ok.inj (hfound.symm.trans hfound')
    have hparts : (RenamingPlan.make m c.pool found).replaced = [] ∧
        (RenamingPlan.make m c.pool found).moved = [] := by
      simpa [RenamingPlan.isEmpty] using hempty
    by_cases hreplaces : ∃ t, RenamingPlan.Replaces m c.pool found s.index t
    · obtain ⟨t, ht⟩ := hreplaces
      have hmem := RenamingPlan.mem_replaced.mpr ht
      rw [hparts.1] at hmem
      cases hmem
    · have hmem := RenamingPlan.mem_moved.mpr ⟨hs, fun t ht => hreplaces ⟨t, ht⟩, v, hv, hw⟩
      rw [hparts.2] at hmem
      cases hmem
  · intro hnone
    refine RenamingPlan.isEmpty_make fun s hs v hv => ?_
    cases hremap : s.role.remap m v with
    | none => rfl
    | some w => exact absurd ⟨found, hfound, s, hs, v, hv, hremap⟩ (hnone w)

/-- The class `c'` is `c` with its texts rewritten where they stand, as far as they may be, and with
the texts `more` behind its pool for the sites of the others. -/
structure RewrittenWith (m : NameMapper) (c c' : ClassFile) (more : List String) : Prop where
  count : c'.pool.count = c.pool.count + more.length
  behind : c'.pool.slots.toList.drop c.pool.count = more.map fun w => .utf8 (encode w)
  /-- A site that is rewritten in place keeps its index; any other one has an index behind the end
  of the pool that was there. Both refer to the new text. -/
  site : ∀ s, site s ∈ c.references → ∀ v w, c.pool.text? s.index = some v →
    s.role.remap m v = some w →
      (c.AgreesOn m s.index w ∧ c'.indexAt s.location = some s.index ∧
        c'.pool.get? s.index = some (.utf8 (encode w))) ∨
      ((∀ t, ¬c.AgreesOn m s.index t) ∧ ∃ index, c'.indexAt s.location = some index ∧
        c.pool.count ≤ index.toNat ∧ c'.pool.get? index = some (.utf8 (encode w)))

/-- What the pool holds behind the old one is not touched by exchanged indices. -/
theorem drop_withIndices {pool : ConstantPool} {slots : List Constant} {more : List String}
    (hslots : pool.slots.toList = slots ++ more.map fun w => .utf8 (encode w))
    (changes : UInt16 → Option UInt16) :
    (pool.withIndices changes).slots.toList.drop slots.length =
      more.map fun w => .utf8 (encode w) := by
  rw [ConstantPool.withIndices, Array.toList_mapIdx, hslots, List.mapIdx_append,
    List.drop_left' (by simp)]
  apply List.ext_getElem
  · simp
  · intro i hi _
    simp [Constant.withIndex_utf8]

theorem rewrittenWith_of_appendTexts (hcount : c.pool.count ≤ ConstantPool.maxCount)
    (hfound : c.nameSites = .ok found) {pool : ConstantPool} {known : ConstantPool.Appended}
    {more : List String}
    (happend : (c.pool.replaceTexts (RenamingPlan.make m c.pool found).replaced).appendTexts {}
      ((RenamingPlan.make m c.pool found).moved.map (·.2)) = .ok (pool, known))
    (hslots : pool.slots.toList =
      (c.pool.replaceTexts (RenamingPlan.make m c.pool found).replaced).slots.toList ++
        more.map fun w => .utf8 (encode w)) :
    c.RewrittenWith m (c.withIndices pool (planned c m found known)) more := by
  have hcountReplaced := c.pool.count_replaceTexts (RenamingPlan.make m c.pool found).replaced
  obtain ⟨hsome, hcountPool, hknows, -, hall⟩ := ConstantPool.appendTexts_eq_ok happend
    (knows_empty _) (hcountReplaced ▸ hcount)
  have hdone : CarriedOut c m found pool known := ⟨hfound, hcount, hsome, hcountPool, hknows,
    fun e he => hall e.2 (List.mem_map.mpr ⟨e, he, rfl⟩)⟩
  have hsmall := hdone.count_le_indices
  have hkeeps : c.pool.KeepsOthers pool := by
    intro i k hk hother
    have hreplaced : (c.pool.replaceTexts (RenamingPlan.make m c.pool found).replaced).get? i =
        some k := keepsOthers_replaceTexts i k hk hother
    rw [ConstantPool.get?_of_append hslots (ConstantPool.lt_count_of_get? hreplaced), hreplaced]
  have hget {i : UInt16} {w : String} (h : pool.utf8Bytes i = .ok (encode w)) :
      (c.withIndices pool (planned c m found known)).pool.get? i = some (.utf8 (encode w)) := by
    rw [← ConstantPool.utf8Bytes_eq_ok]
    exact (ConstantPool.utf8Bytes_withIndices _ _ _).trans h
  refine ⟨?_, ?_, fun s hs v w hv hw => ?_⟩
  · show (pool.withIndices _).count = _
    rw [ConstantPool.count_withIndices, ConstantPool.count_of_append hslots, hcountReplaced]
  · have hlength : c.pool.count =
        (c.pool.replaceTexts (RenamingPlan.make m c.pool found).replaced).slots.toList.length := by
      rw [← hcountReplaced, Array.length_toList]
      rfl
    rw [hlength]
    exact drop_withIndices hslots _
  · have hholds := holdsSite_of_mem hsmall hs
    have hwritten := hget (hdone.written hs hv hw)
    have hplace := indexAt_withIndices hholds hkeeps (planned c m found known)
    by_cases hagrees : ∃ t, c.AgreesOn m s.index t
    · obtain ⟨t, ht⟩ := hagrees
      obtain ⟨v', hv', hremap⟩ := ht.remap
      obtain rfl : v' = v := Option.some.inj (hv'.symm.trans hv)
      obtain rfl : t = w := Option.some.inj ((hremap s hs rfl).symm.trans hw)
      have hindex := hdone.newIndex_eq hs fun u hu =>
        (RenamingPlan.mem_moved.mp hu).2.1 t ((replaces_iff_agreesOn hfound).mpr ht)
      rw [hindex] at hwritten hplace
      exact .inl ⟨ht, hplace, hwritten⟩
    · have hnot (t) (ht : c.AgreesOn m s.index t) : False := hagrees ⟨t, ht⟩
      refine .inr ⟨hnot, _, hplace, ?_, hwritten⟩
      have hmoved : (s, w) ∈ (RenamingPlan.make m c.pool found).moved :=
        RenamingPlan.mem_moved.mpr ⟨hdone.mem_sites hs,
          fun t ht => hnot t ((replaces_iff_agreesOn hfound).mp ht), v, hv, hw⟩
      rw [newIndex, planned_of_moved hsmall hfound hmoved, Option.getD_some, ← hcountReplaced]
      refine ConstantPool.le_getD_of_appendTexts happend (Nat.le_refl _) (fun t ht => ?_)
        (hdone.moved _ hmoved)
      simp at ht

end ClassFile

namespace LoadedClass

section Outcome

variable {c : LoadedClass} {m : NameMapper} {found : NameSites}

theorem plan_of_nameSites (hfound : c.nameSites = .ok found) :
    c.plan m = .ok (RenamingPlan.make m c.pool found) := by
  rw [ClassFile.plan, hfound]
  rfl

theorem substitute_of_nameSites (hfound : c.nameSites = .ok found) :
    c.substitute m =
      if (RenamingPlan.make m c.pool found).isEmpty = true then .ok ⟨c.source, false⟩
      else c.carryOut (RenamingPlan.make m c.pool found) >>= fun c' =>
        .ok ⟨c'.toBytes, c'.toBytes != c.source⟩ := by
  rw [substitute, plan_of_nameSites hfound]
  rfl

theorem substitute_without_room (hcount : c.pool.count ≤ ConstantPool.maxCount)
    (hfound : c.nameSites = .ok found)
    (hover : ConstantPool.maxCount < c.pool.count + (c.ownTexts m found).length) :
    c.carryOutEach (RenamingPlan.make m c.pool found) = .error (.refused .poolOverflow) ∧
      c.substitute m = .error .poolOverflow := by
  obtain ⟨-, herror⟩ | ⟨hroom, -⟩ := c.appendTexts_ownTexts hcount m found
  · have hcarry : c.carryOut (RenamingPlan.make m c.pool found) = .error .poolOverflow := by
      rw [ClassFile.carryOut, herror]
      rfl
    -- an empty plan appends nothing, and there was room for the pool that was there
    have hnotEmpty : ¬(RenamingPlan.make m c.pool found).isEmpty = true := by
      intro hempty
      have hmoved : (RenamingPlan.make m c.pool found).moved = [] := by
        simpa [RenamingPlan.isEmpty] using (Bool.and_eq_true_iff.mp hempty).2
      rw [ClassFile.ownTexts, hmoved] at hover
      exact absurd hover (Nat.not_lt.mpr hcount)
    refine ⟨by rw [ClassFile.carryOutEach_eq hcount hfound, hcarry]; rfl, ?_⟩
    rw [substitute_of_nameSites hfound, if_neg hnotEmpty, hcarry]
    rfl
  · omega

theorem substitute_with_room (hcount : c.pool.count ≤ ConstantPool.maxCount)
    (hfound : c.nameSites = .ok found)
    (hroom : c.pool.count + (c.ownTexts m found).length ≤ ConstantPool.maxCount) :
    ((∀ w, ¬c.Rewrites m w) ∧ c.substitute m = .ok ⟨c.source, false⟩) ∨
      ((∃ w, c.Rewrites m w) ∧ ∃ c',
        c.carryOutEach (RenamingPlan.make m c.pool found) = .ok c' ∧
        c.substitute m = .ok ⟨c'.toBytes, c'.toBytes != c.source⟩ ∧
        c.RewrittenWith m c' (c.ownTexts m found)) := by
  have hempty := ClassFile.isEmpty_make_iff (m := m) hfound
  obtain ⟨hover, -⟩ | ⟨-, pool, known, happend, hslots⟩ := c.appendTexts_ownTexts hcount m found
  · omega
  · by_cases hnothing : (RenamingPlan.make m c.pool found).isEmpty = true
    · refine .inl ⟨hempty.mp hnothing, ?_⟩
      rw [substitute_of_nameSites hfound, if_pos hnothing]
    · have hcarry := ClassFile.carryOut_of_appendTexts hcount hfound happend
      refine .inr ⟨?_, _, ?_, ?_,
        ClassFile.rewrittenWith_of_appendTexts hcount hfound happend hslots⟩
      · by_contra hnone
        exact hnothing (hempty.mpr fun w hw => hnone ⟨w, hw⟩)
      · rw [ClassFile.carryOutEach_eq hcount hfound, hcarry]
        rfl
      · rw [substitute_of_nameSites hfound, if_neg hnothing, hcarry]
        rfl

end Outcome

/-- **A renaming fails for want of name sites or of room.** Let a class have a pool that the format
can store, as every pool has that was read; nothing else is assumed of it. If collecting its name
sites fails, the renaming fails with that error. Otherwise there is a list of different texts, those
that need a slot of their own. Without room for them the renaming ends with an overflow. With room it
succeeds: a class with nothing to rewrite keeps its bytes, and any other one is written with exactly
these texts behind its pool and all other texts rewritten where they stand. Carried out site by site,
the plan misses no location. -/
theorem substitute_fails_only_without_room {c : LoadedClass}
    (hcount : c.pool.count ≤ ConstantPool.maxCount) (m : NameMapper) :
    (∀ e, c.nameSites = .error e → c.substitute m = .error e) ∧
      ∀ found, c.nameSites = .ok found → ∃ (plan : RenamingPlan) (more : List String),
        c.plan m = .ok plan ∧
        (∀ location, c.carryOutEach plan ≠ .error (.misses location)) ∧
        more.Nodup ∧ (∀ w, w ∈ more ↔ c.NeedsSlot m w) ∧
        (ConstantPool.maxCount < c.pool.count + more.length →
          c.carryOutEach plan = .error (.refused .poolOverflow) ∧
          c.substitute m = .error .poolOverflow) ∧
        (c.pool.count + more.length ≤ ConstantPool.maxCount →
          ((∀ w, ¬c.Rewrites m w) ∧ c.substitute m = .ok ⟨c.source, false⟩) ∨
          ((∃ w, c.Rewrites m w) ∧ ∃ c', c.carryOutEach plan = .ok c' ∧
            c.substitute m = .ok ⟨c'.toBytes, c'.toBytes != c.source⟩ ∧
            c.RewrittenWith m c' more)) := by
  constructor
  · intro e he
    rw [substitute, ClassFile.plan, he]
    rfl
  · intro found hfound
    refine ⟨_, c.ownTexts m found, plan_of_nameSites hfound, fun location => ?_,
      ConstantPool.nodup_freshTexts _ _, fun w => ClassFile.mem_ownTexts_iff hfound,
      substitute_without_room hcount hfound, substitute_with_room hcount hfound⟩
    rw [ClassFile.carryOutEach_eq hcount hfound]
    cases c.carryOut (RenamingPlan.make m c.pool found) <;> simp [Except.mapError]

theorem substitute_fails_only_without_room_sharingSample :
    ∃ c, parse sharingSample = .ok c ∧ c.pool.count ≤ ConstantPool.maxCount ∧
      c.Rewrites (.single "p/A" "v1/p/A") "v1/p/A" ∧ ∃ c' more,
        c.substitute (.single "p/A" "v1/p/A") = .ok ⟨c'.toBytes, c'.toBytes != c.source⟩ ∧
        c.RewrittenWith (.single "p/A" "v1/p/A") c' more := by
  have hcheck : ((parse sharingSample).toOption.any fun c =>
      (c.substitute (.single "p/A" "v1/p/A")).isOk && c.pool.count ≤ ConstantPool.maxCount &&
        (c.rewrittenTexts (.single "p/A" "v1/p/A")).contains "v1/p/A") = true := by
    decide +kernel
  obtain ⟨c, hparse, hc⟩ := exists_ok_of_any hcheck
  simp only [Bool.and_eq_true, decide_eq_true_eq, List.contains_iff_mem,
    ClassFile.mem_rewrittenTexts] at hc
  obtain ⟨⟨hok, hcount⟩, hrewrites⟩ := hc
  obtain ⟨found, hfound, -⟩ := id hrewrites
  obtain ⟨-, houtcome⟩ := substitute_fails_only_without_room hcount (.single "p/A" "v1/p/A")
  obtain ⟨plan, more, -, -, -, -, hover, hroom⟩ := houtcome found hfound
  obtain ⟨s, hs⟩ := isOk_iff.mp hok
  rcases Nat.lt_or_ge ConstantPool.maxCount (c.pool.count + more.length) with hlt | hle
  · rw [(hover hlt).2] at hs
    cases hs
  · obtain ⟨hnone, -⟩ | ⟨-, c', -, hsub, hwritten⟩ := hroom hle
    · exact absurd hrewrites (hnone _)
    · exact ⟨c, hparse, hcount, hrewrites, c', more, hsub, hwritten⟩

end LoadedClass

end JvmRelocation
