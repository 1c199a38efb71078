import JvmRelocation.Proofs.Relocation.DiscoveryEnds
import JvmRelocation.Proofs.Relocation.Faults

/-!
# The outcome of a discovery

Discovery reads all of its input before it writes anything. It refuses to go on if some listed file is
not read as a class, if two files declare one name, or if a file declares the new name of a marked
class; the output store is then as it was. Names are compared before the table is asked to take an
entry, and renaming keeps them apart, so the table never refuses one. Otherwise the table gets an entry
for each marked class, and one file is written for each entry. With faults a discovery makes the calls
that it makes on sound stores, up to the first one that fails.
-/

namespace JvmRelocation

open StoreProgram

/-- Not every listed file is read as a class: a call fails, or there is no class at a path. -/
inductive Unread (faults : Faults) (input : MemoryStore) : Prop where
  | failed (h : ¬faults.Spare [] (surveyCalls input.classPaths))
  | noClass (path : String) (hlisted : path ∈ input.classPaths) (h : input.class? path = none)

/-- None of the writings among some calls fails. -/
def Faults.SpareWrites (faults : Faults) (calls : List StoreCall) : Prop :=
  ∀ before call, before ++ [call] <+: calls → call.request.kind = .write →
    faults.failure? (requestsOf before) call.request = none

/-- Every marked class can be renamed. -/
def Renamable (tag marker : String) (input : MemoryStore) : Prop :=
  ∀ path c, input.Keeps path c → c.hasMarker marker = true →
    ∃ s, c.substitute (.single c.declaredName (relocatedName tag c.declaredName)) = .ok s

/-- The files that a run writes, in order. -/
def FailingRun.files {α : Type} (run : FailingRun α) : List (String × Bytes) :=
  run.requests.filterMap (·.file?)

/-- A discovery finds the marked classes, no more and no less, and writes one file for each. -/
structure FoundExactly (tag marker : String) (input output : MemoryStore) (found : Discovery)
    (run : FailingRun Discovery) : Prop where
  keys : ∀ name, found.table.contains name = true ↔
    ∃ path c, input.Keeps path c ∧ c.hasMarker marker = true ∧ c.declaredName = name
  entries : ∀ path c, input.Keeps path c → c.hasMarker marker = true →
    found.table.get? c.declaredName = some (relocatedName tag c.declaredName) ∧
      found.table.source? c.declaredName = some path
  /-- No new name is an old one. -/
  fresh : ∀ name, found.table.contains name = true →
    found.table.contains (relocatedName tag name) = false
  written : (run.files.map (·.1)).Perm
    (found.table.toList.map fun (old, _) => classPath (relocatedName tag old))
  distinct : (run.files.map (·.1)).Nodup
  output : run.output = output.insertAll run.files

/-- How a discovery ends on stores that may fail. -/
structure DiscoveryOutcome (tag marker : String) (faults : Faults) (input output : MemoryStore)
    (run : FailingRun Discovery) : Prop where
  /-- A discovery that is stopped before it writes leaves the output store as it was. -/
  stopped : (Unread faults input ∨
      ∃ name first second, NameClash tag marker input name first second) →
    (∃ e, run.result = .error e) ∧ run.output = output
  duplicate : ¬Unread faults input →
    (∃ name first second, NameClash tag marker input name first second) →
    ∃ name first second, run.result = .error (.duplicate name first second)
  /-- A duplicate that is reported is one. -/
  clash : ∀ name first second, run.result = .error (.duplicate name first second) →
    NameClash tag marker input name first second
  /-- It is not the table that reports it: no entry is refused for a class whose name has not been
  declared before. -/
  accepts : ∀ paths path s (c : LoadedClass),
    (surveyPaths tag marker .empty paths).Yields input output s output →
    c.hasMarker marker = true → s.declared.get? c.declaredName = none →
    ∃ table, s.table.insert c.declaredName (relocatedName tag c.declaredName) path = .ok table
  succeeds : ¬Unread faults input →
    (¬∃ name first second, NameClash tag marker input name first second) →
    Renamable tag marker input → faults.SpareWrites ((discover tag marker).calls input output) →
    ∃ found, run.result = .ok found ∧ FoundExactly tag marker input output found run

section

variable {tag marker : String} {faults : Faults} {input output copied : MemoryStore}

theorem FailingRun.EndsAsSound.files {α : Type} {run : FailingRun α} {p : StoreProgram α}
    (h : run.EndsAsSound p input output) : run.files = filesOf (p.calls input output) := by
  rw [FailingRun.files, h.requests, requestsOf, List.filterMap_map]
  rfl

theorem foundExactly_of_yields {classes : List (String × LoadedClass)} {found : Discovery}
    {run : FailingRun Discovery} (h : Discovered tag marker input output classes found copied)
    (hyields : (discover tag marker).Yields input output found copied)
    (hrun : run.EndsAsSound (discover tag marker) input output) :
    FoundExactly tag marker input output found run := by
  have hrecorded := recorded_of_discover h.read hyields
  have hpaths : run.files.map (·.1) = found.report.written := by
    rw [hrun.files, filesOf_discover hyields]
  constructor
  case keys =>
    intro name
    rw [h.contains_eq_true]
    constructor
    · rintro ⟨e, he, hmarked, hname⟩
      exact ⟨e.1, e.2, h.read.mem_iff.mp he, hmarked, hname⟩
    · rintro ⟨path, c, hkeeps, hmarked, hname⟩
      exact ⟨_, h.read.mem_iff.mpr hkeeps, hmarked, hname⟩
  case entries =>
    intro path c hkeeps hmarked
    apply hrecorded.oneToOne.mem_withSources.mp
    rw [hrecorded.entries.mem_iff]
    exact List.mem_map.mpr
      ⟨(path, c), List.mem_filter.mpr ⟨h.read.mem_iff.mpr hkeeps, hmarked⟩, rfl⟩
  case fresh =>
    intro name hname
    obtain ⟨e, he, hmarked, rfl⟩ := h.contains_eq_true.mp hname
    rw [Bool.eq_false_iff, ne_eq, h.contains_eq_true]
    rintro ⟨e', he', -, htaken⟩
    exact h.fresh e he hmarked e' he' htaken
  case written =>
    have hperm := hrecorded.entries.symm.map fun e => classPath (relocatedName tag e.1)
    rw [RelocationTable.withSources, List.map_map, List.map_map] at hperm
    rw [hpaths, h.written]
    exact hperm
  case distinct =>
    rw [hpaths]
    exact h.written_nodup
  case output => rw [hrun.output, on_output, hrun.files]

/-- A discovery that is stopped while it reads fails, with or without faults, and leaves the output
store as it was. -/
theorem Stopped.fails {e : RelocationError} (h : Stopped tag marker input output e) :
    let run := (discover tag marker).withFaults faults input output
    (∃ e', run.result = .error e') ∧ run.output = output := by
  intro run
  obtain ⟨-, ⟨-, hrun⟩ | ⟨before, call, cause, hrun⟩⟩ :=
    (discover tag marker).withFaults_cases faults input output
  · exact ⟨⟨e, by rw [hrun.result, h.on]⟩, by rw [hrun.output, h.on]⟩
  · have hnothing := hrun.written.trans (h.calls.filterMap _)
    rw [← filesOf, filesOf_surveyCalls, List.prefix_nil] at hnothing
    refine ⟨⟨_, hrun.result⟩, ?_⟩
    rw [hrun.output, hnothing]
    rfl

namespace GotThrough

/-- A call that is made is one of those that read the input, or a writing. -/
theorem made (h : GotThrough tag marker input output) {before : List StoreCall} {call : StoreCall}
    (hmade : before ++ [call] <+: (discover tag marker).calls input output) :
    before ++ [call] <+: surveyCalls input.classPaths ∨
      surveyCalls input.classPaths <+: before ∧ call.request.kind = .write := by
  obtain ⟨writes, hwrites, hcalls⟩ := h.calls
  rw [hcalls] at hmade
  rcases List.prefix_or_prefix_of_prefix hmade (List.prefix_append _ writes) with hreading | hbehind
  · exact .inl hreading
  · obtain ⟨more, hmore⟩ := hbehind
    rcases more.eq_nil_or_concat with rfl | ⟨more, last, rfl⟩
    · rw [← hmore, List.append_nil]
      exact .inl (List.prefix_refl _)
    · rw [List.concat_eq_append, ← List.append_assoc] at hmore
      obtain ⟨rfl, hlast⟩ := List.append_inj' hmore rfl
      obtain rfl := List.singleton_inj.mp hlast
      rw [List.append_assoc, List.prefix_append_right_inj] at hmade
      exact .inr ⟨List.prefix_append _ _, hwrites _ (hmade.subset (by simp))⟩

/-- Where a call that reads the input fails, nothing is written. -/
theorem fails_of_reading (h : GotThrough tag marker input output)
    (hfails : ¬faults.Spare [] (surveyCalls input.classPaths)) :
    let run := (discover tag marker).withFaults faults input output
    (∃ e, run.result = .error e) ∧ run.output = output := by
  intro run
  obtain ⟨-, ⟨hspare, -⟩ | ⟨before, call, cause, hrun⟩⟩ :=
    (discover tag marker).withFaults_cases faults input output
  · obtain ⟨writes, -, hcalls⟩ := h.calls
    rw [hcalls] at hspare
    exact absurd (hspare.of_append (List.prefix_append _ writes)) hfails
  · rcases h.made hrun.made with hreading | ⟨hbehind, -⟩
    · have hnothing := ((List.prefix_append before [call]).trans hreading).filterMap
        (·.request.file?)
      rw [← filesOf, ← filesOf, filesOf_surveyCalls, List.prefix_nil] at hnothing
      refine ⟨⟨_, hrun.result⟩, ?_⟩
      rw [hrun.output, hnothing]
      rfl
    · exact absurd (hrun.spared.of_append hbehind) hfails

end GotThrough

/-- Where everything is read, no reading fails and there is a class at every listed path. -/
theorem spare_of_not_unread (h : ¬Unread faults input) :
    faults.Spare [] (surveyCalls input.classPaths) ∧
      ¬∃ path ∈ input.classPaths, input.class? path = none := by
  constructor
  · by_contra hfails
    exact h (.failed hfails)
  · rintro ⟨path, hlisted, hnone⟩
    exact h (.noClass path hlisted hnone)

/-- The table never refuses an entry for a class whose name has not been declared before. -/
theorem exists_insert_of_survey {paths : List String} {path : String} {s : Survey} {c : LoadedClass}
    (hsurvey : (surveyPaths tag marker .empty paths).Yields input output s output)
    (hmarked : c.hasMarker marker = true) (hfresh : s.declared.get? c.declaredName = none) :
    ∃ table, s.table.insert c.declaredName (relocatedName tag c.declaredName) path = .ok table := by
  obtain ⟨-, classes, -, hdescribes⟩ := yields_surveyPaths hsurvey
  have hdescribed : s.Describes tag marker classes :=
    hdescribes [] (Survey.describes_empty tag marker)
  have hnew : ¬∃ e ∈ classes, e.2.declaredName = c.declaredName := by
    rw [← hdescribed.declared]
    simpa [Std.TreeMap.get?_eq_getElem?] using hfresh
  obtain ⟨s', hnote⟩ := hdescribed.exists_note path hnew
  rcases (Survey.noted_of_note hnote).entered with ⟨-, htable, -⟩ | ⟨hunmarked, -⟩
  · exact ⟨_, htable⟩
  · rw [hmarked] at hunmarked
    cases hunmarked

end

/-- **The outcome of a discovery is determined**, and nothing is written before its input has been
read. -/
theorem discover_outcome (tag marker : String) (faults : Faults) (input output : MemoryStore) :
    DiscoveryOutcome tag marker faults input output
      ((discover tag marker).withFaults faults input output) := by
  have hends := discover_ends tag marker input output
  obtain ⟨-, hrun⟩ := (discover tag marker).withFaults_cases faults input output
  constructor
  case stopped =>
    intro hstops
    rcases hends with ⟨-, e, -, hstopped⟩ | ⟨name, first, second, -, hstopped⟩ | hthrough
    · exact hstopped.fails
    · exact hstopped.fails
    · rcases hstops with (hfails | ⟨path, hlisted, hnone⟩) | hclash
      · exact hthrough.fails_of_reading hfails
      · obtain ⟨classes, hclasses, hall⟩ := hthrough.read
        rw [← hclasses] at hlisted
        obtain ⟨e, he, rfl⟩ := List.mem_map.mp hlisted
        rw [hall e he] at hnone
        cases hnone
      · exact absurd hclash hthrough.noClash
  case duplicate =>
    intro hread hclash
    obtain ⟨hspare, hclass⟩ := spare_of_not_unread hread
    rcases hends with ⟨hnone, -⟩ | ⟨name, first, second, -, hstopped⟩ | hthrough
    · exact absurd hnone hclass
    · rcases hrun with ⟨-, hrun⟩ | ⟨before, call, cause, hrun⟩
      · exact ⟨name, first, second, by rw [hrun.result, hstopped.on]⟩
      · exact (hspare.not_fails (hrun.made.trans hstopped.calls) hrun.fails).elim
    · exact absurd hclash hthrough.noClash
  case clash =>
    intro name first second hresult
    rcases hrun with ⟨-, hrun⟩ | ⟨before, call, cause, hrun⟩
    · rw [hrun.result] at hresult
      rcases hends with ⟨-, e, hother, hstopped⟩ | ⟨name', first', second', hclash, hstopped⟩ |
        hthrough
      · rw [hstopped.on] at hresult
        obtain rfl := Except.error.inj hresult
        cases hother
      · rw [hstopped.on] at hresult
        obtain ⟨rfl, rfl, rfl⟩ : name' = name ∧ first' = first ∧ second' = second := by
          simpa using hresult
        exact hclash
      · cases hthrough.error _ hresult
    · rw [hrun.result] at hresult
      cases hresult
  case accepts =>
    intro paths path s c hsurvey hmarked hfresh
    exact exists_insert_of_survey hsurvey hmarked hfresh
  case succeeds =>
    intro hread hclash hrenamable hwrites
    obtain ⟨hspare, hclass⟩ := spare_of_not_unread hread
    rcases hends with ⟨hnone, -⟩ | ⟨name, first, second, hclash', -⟩ | hthrough
    · exact absurd hnone hclass
    · exact absurd ⟨name, first, second, hclash'⟩ hclash
    · obtain ⟨classes, hclasses⟩ := hthrough.read
      obtain ⟨hdistinct, hfresh⟩ := (no_clash_iff hclasses).mp hclash
      have hdiscoverable : Discoverable tag marker classes :=
        ⟨hdistinct, hfresh, fun e he => hrenamable e.1 e.2 (hclasses.mem_iff.mp he)⟩
      obtain ⟨found, copied, hyields, hfound⟩ :=
        exists_yields_discover output hclasses hdiscoverable
      rcases hrun with ⟨-, hrun⟩ | ⟨before, call, cause, hrun⟩
      · refine ⟨found, ?_, foundExactly_of_yields hfound hyields hrun⟩
        rw [hrun.result, hyields]
      · rcases hthrough.made hrun.made with hreading | ⟨-, hwrite⟩
        · exact (hspare.not_fails hreading hrun.fails).elim
        · have hspared := hwrites before call hrun.made hwrite
          rw [hrun.fails] at hspared
          cases hspared

/-- A marked class `p/A`, and a class that has its new name already. -/
def takenNameSample : MemoryStore :=
  .ofList [
    ("p/A.class", LoadedClass.built "p/A" (ClassBuilder.addVisible defaultMarker)),
    ("q/B.class", LoadedClass.built "v1/p/A" (pure ()))]

theorem discover_outcome_takenName :
    let run := (discover "v1" defaultMarker).withFaults ⟨[], []⟩ takenNameSample .empty
    ∃ name first second, run.result = .error (.duplicate name first second) ∧
      NameClash "v1" defaultMarker takenNameSample name first second ∧ run.output = .empty := by
  intro run
  have hduplicate : (run.result.map fun _ => ()).mapError RelocationError.isDuplicate =
      .error true := by
    decide +kernel
  have houtcome := discover_outcome "v1" defaultMarker ⟨[], []⟩ takenNameSample .empty
  cases hresult : run.result with
  | ok found =>
    rw [hresult] at hduplicate
    cases hduplicate
  | error e =>
    rw [hresult] at hduplicate
    cases e with
    | duplicate name first second =>
      have hclash := houtcome.clash name first second hresult
      exact ⟨name, first, second, rfl, hclash, (houtcome.stopped (.inr ⟨_, _, _, hclash⟩)).2⟩
    | _ => cases hduplicate

end JvmRelocation
