import JvmRelocation.Proofs.ClassFile.TextLengths
import JvmRelocation.Proofs.Relocation.PhaseAgreement
import JvmRelocation.Proofs.Relocation.Success

/-!
# Which class files of a run can be read

Every file that a run has written is in the end the writing of an input class, or of the class that
fixup has read, with its classes renamed by the table. Such a class keeps a name that is usable as a
path, its header resolves and its pool is not too large. So what has been written can be read unless
a text in it is too long for its length field. What propagation and fixup have written is not read
again, so a run does not notice such a text.
-/

namespace JvmRelocation

open StoreProgram

theorem RelocationReport.contains_outputPaths {report : RelocationReport} {path : String} :
    report.outputPaths.contains path = true ↔ ∃ r ∈ report.phases, path ∈ r.written := by
  rw [outputPaths, Std.TreeSet.contains_ofList, List.contains_iff_mem, List.mem_flatMap]

namespace Relocated

variable {tag marker : String} {input output : MemoryStore} {report : RelocationReport}
  {final : MemoryStore} {classes : List (String × LoadedClass)} {found : Discovery}
  {copied propagatedTo : MemoryStore}

/-- A file that the run has written is in the end a class that has been read, renamed by the
table. -/
theorem last_renaming
    (h : Relocated tag marker input output report final classes found copied propagatedTo)
    {path : String} (hpath : ∃ r ∈ report.phases, path ∈ r.written) :
    ∃ source c s, LoadedClass.parse source = .ok c ∧
      (c, found.table.mapper) ∈ renamings tag marker input output ∧
      c.substitute found.table.mapper = .ok s ∧ final.get? path = some s.bytes := by
  by_cases hwritten : path ∈ found.report.written
  -- fixup has renamed what it has read at the path
  · obtain ⟨c, s, hclass, hsub, hfinal⟩ := h.fixedUp hwritten
    obtain ⟨source, -, hparse⟩ := MemoryStore.class?_eq_some.mp hclass
    exact ⟨source, c, s, hparse, h.mem_renamings_of_copied hwritten hclass, hsub, hfinal⟩
  -- propagation has renamed an unmarked class, and fixup leaves it alone
  · obtain ⟨u, s, hu, hunmarked, hsub, hbefore⟩ :=
      h.before_of_collides ((h.written_cases hpath).resolve_left hwritten)
    obtain ⟨source, -, hparse⟩ := MemoryStore.class?_eq_some.mp (h.discovered.mem_classes.mp hu).2
    refine ⟨source, u, s, hparse, h.mem_renamings_of_unmarked hu hunmarked, hsub, ?_⟩
    rw [h.get?_of_not_fixedUp hwritten, hbefore]

/-- A class keeps a name that is usable as a path when it is renamed by the table. -/
theorem isPathName_renamed
    (h : Relocated tag marker input output report final classes found copied propagatedTo)
    {source : Bytes} {c : LoadedClass} (hparse : LoadedClass.parse source = .ok c) :
    isPathName (NameRole.className.renamed found.table.mapper c.declaredName) = true := by
  have htags := (h.discovered.staged fun _ _ htarget => htarget).tags
  have hname := (ClassFile.resolveHeader_eq_ok.mp (LoadedClass.parse_ok hparse).2.1).2.1
  exact JvmRelocation.isPathName_renamed htags (validTag_of_tagFault? h.tag_valid)
    (fun _ => h.discovered.isPathName_of_mapped) hname

end Relocated

/-- A class is written with its classes renamed, and its bytes tell it: its length fields are true,
and it is read back as what was written, exactly if every text that the renaming puts in fits. -/
structure WrittenRenamed (m : NameMapper) (c : LoadedClass) (c' : ClassFile) : Prop where
  renamed : c.renamed m = .ok c'
  lengths : c.Fits m ↔ c'.pool.TrueLengths
  read : c.Fits m ↔ ∃ d, LoadedClass.parse c'.toBytes = .ok d ∧ d.toClassFile = c'

namespace Relocated

variable {tag marker : String} {input output : MemoryStore} {report : RelocationReport}
  {final : MemoryStore} {classes : List (String × LoadedClass)} {found : Discovery}
  {copied propagatedTo : MemoryStore}

theorem writtenRenamed
    (h : Relocated tag marker input output report final classes found copied propagatedTo)
    {path : String} (hpath : ∃ r ∈ report.phases, path ∈ r.written) :
    ∃ c c', (c, found.table.mapper) ∈ renamings tag marker input output ∧
      WrittenRenamed found.table.mapper c c' ∧ final.get? path = some c'.toBytes := by
  obtain ⟨source, c, s, hparse, hmem, hsub, hfinal⟩ := h.last_renaming hpath
  obtain ⟨c', hrenamed, hbytes⟩ := LoadedClass.renamed_of_substitute hparse hsub
  have hformed := LoadedClass.wellFormed_of_parse hparse
  obtain ⟨-, pool, changes, -, hby⟩ :=
    ClassFile.renamedBy_of_renamed hformed.pool.count_le hrenamed
  refine ⟨c, c', hmem, ⟨hrenamed, hby.fits_iff_trueLengths hformed, ?_⟩, by rw [hfinal, hbytes]⟩
  exact LoadedClass.fits_iff_read hparse hby (h.isPathName_renamed hparse)

/-- An unmarked class that the table changes is among what the run has written. -/
theorem contains_outputPaths_of_changed
    (h : Relocated tag marker input output report final classes found copied propagatedTo)
    {path : String} {c : LoadedClass} {s : Substitution} (hc : input.Keeps path c)
    (hunmarked : c.hasMarker marker = false) (hsub : c.substitute found.table.mapper = .ok s)
    (hchanged : s.changed = true) : report.outputPaths.contains path = true := by
  have hnot := (h.discovered.contains_declaredName_eq_false (h.discovered.mem_classes.mpr hc)).mpr
    hunmarked
  refine RelocationReport.contains_outputPaths.mpr ⟨report.propagation, ?_, ?_⟩
  · simp [RelocationReport.phases]
  · rw [(yields_propagate h.propagate).1, List.mem_filter, Option.isSome_iff_exists]
    exact collides_iff.mp ⟨c, s, hc.1, hc.2, hnot, hsub, hchanged⟩

end Relocated

/-- **Which files can be read.** A run whose texts fit writes nothing but class files. In any run,
whatever stands in the end at a path that the run has written is the writing of a class renamed by
the table; its length fields are true, and it is read back as what was written, exactly if every text
that this last renaming puts in fits. -/
theorem relocate_writes_readable_iff {tag marker : String} {input output final : MemoryStore}
    {report : RelocationReport} (h : (relocate tag marker).Yields input output report final) :
    (RunFits tag marker input output → ∀ path, report.outputPaths.contains path = true →
      ∃ c, final.class? path = some c) ∧
    ∀ path, report.outputPaths.contains path = true →
      ∃ c c', (c, report.table.mapper) ∈ renamings tag marker input output ∧
        WrittenRenamed report.table.mapper c c' ∧ final.get? path = some c'.toBytes := by
  obtain ⟨classes, found, copied, propagatedTo, hrun⟩ := yields_relocate h
  rw [hrun.table]
  constructor
  · intro hfits path hpath
    obtain ⟨c, c', hmem, hwritten, hfinal⟩ :=
      hrun.writtenRenamed (RelocationReport.contains_outputPaths.mp hpath)
    have hfit : c.Fits found.table.mapper := hfits (c, found.table.mapper) hmem
    obtain ⟨d, hd, -⟩ := hwritten.read.mp hfit
    exact ⟨d, MemoryStore.class?_eq_some.mpr ⟨_, hfinal, hd⟩⟩
  · intro path hpath
    exact hrun.writtenRenamed (RelocationReport.contains_outputPaths.mp hpath)

theorem relocate_writes_readable_iff_surveySample :
    ∃ report final,
      (relocate "v1" defaultMarker).Yields (surveySample "q/U.class") .empty report final ∧
      RunFits "v1" defaultMarker (surveySample "q/U.class") .empty ∧
      report.outputPaths.contains "q/U.class" = true ∧
      (∃ c, final.class? "q/U.class" = some c) ∧
      ∃ c c', (c, report.table.mapper) ∈ renamings "v1" defaultMarker (surveySample "q/U.class") .empty ∧
        WrittenRenamed report.table.mapper c c' ∧ final.get? "q/U.class" = some c'.toBytes := by
  have hcheck : (((relocate "v1" defaultMarker).on (surveySample "q/U.class") .empty).1.toOption.any
      fun report => report.outputPaths.contains "q/U.class") = true := by
    decide +kernel
  have hfits : RunFits "v1" defaultMarker (surveySample "q/U.class") .empty := by decide +kernel
  obtain ⟨report, hyields, hpath⟩ := exists_yields_of_any hcheck
  obtain ⟨hread, hwritten⟩ := relocate_writes_readable_iff hyields
  exact ⟨report, _, hyields, hfits, hpath, hread hfits _ hpath, hwritten _ hpath⟩

/-! ## A run that writes what cannot be read -/

/-- A method descriptor whose parameter has the given type, and whose result has a name of `n`
letters. -/
def longDescriptor (n : Nat) (name : String) : Descriptor :=
  ⟨[⟨['('], name⟩, ⟨[')'], String.ofList (List.replicate n 'a')⟩], []⟩

def longText (n : Nat) (name : String) : String :=
  String.ofList (longDescriptor n name).toText

theorem length_encode_longText (n : Nat) (name : String)
    (h : name.toList.all (fun c => 1 ≤ c.toNat ∧ c.toNat < 0x80) = true) :
    (ModifiedUtf8.encode (longText n name)).length = n + name.toList.length + 6 := by
  rw [longText, ModifiedUtf8.length_encode_plain]
  · simp [longDescriptor, Descriptor.toText, Descriptor.ObjectType.written]
    omega
  · simp only [longDescriptor, Descriptor.toText, Descriptor.ObjectType.written, List.flatMap_cons,
      List.flatMap_nil, List.all_append, List.all_cons, List.all_replicate, String.toList_ofList, h]
    simp

theorem encode_longText (n : Nat) :
    ∃ rest, ModifiedUtf8.encode (longText n "v1/p/A") = 40 :: 76 :: 118 :: rest := by
  obtain ⟨list, hlist⟩ : ∃ list, (longDescriptor n "v1/p/A").toText = '(' :: 'L' :: 'v' :: list :=
    ⟨_, rfl⟩
  rw [longText, hlist]
  simp only [ModifiedUtf8.encode_cons]
  exact ⟨_, rfl⟩

theorem remap_longText {m : NameMapper} {n : Nat} {name new : String} (hname : ';' ∉ name.toList)
    (hm : m name = some new) (hne : new ≠ name)
    (hother : m (String.ofList (List.replicate n 'a')) = none) :
    Descriptor.remap m (longText n name) = some (longText n new) := by
  have hproper : (longDescriptor n name).Proper := by
    constructor
    · simp [longDescriptor]
    · simp [longDescriptor, hname, List.mem_replicate]
  rw [Descriptor.remap, longText, String.toList_ofList, Descriptor.ofText_toText hproper rfl]
  simp [longDescriptor, Descriptor.rename, Descriptor.names, NameMapper.rename, hm, hother, hne,
    Descriptor.isClosed, longText]

/-- A store with a marked class `p/A` and an unmarked class `q/U` that mentions it in a long
descriptor. -/
def paddedSample (n : Nat) : MemoryStore :=
  .ofList [
    ("p/A.class", LoadedClass.built "p/A" (ClassBuilder.addVisible defaultMarker)),
    ("q/U.class", (methodTypeSample (ModifiedUtf8.encode (longText n "p/A"))).toBytes)]

/-- The class `q/U` of the store, as it is read. -/
def paddedUser (n : Nat) : LoadedClass :=
  { methodTypeSample (ModifiedUtf8.encode (longText n "p/A")) with
    declaredName := "q/U"
    source := (methodTypeSample (ModifiedUtf8.encode (longText n "p/A"))).toBytes }

theorem parse_paddedUser {n : Nat} (h : n + 9 ≤ 65535) :
    LoadedClass.parse (paddedUser n).source = .ok (paddedUser n) := by
  refine LoadedClass.parse_toBytes (wellFormed_methodTypeSample ?_) (resolveHeader_methodTypeSample _)
  rw [length_encode_longText n "p/A" (by decide)]
  exact h

theorem renamed_paddedUser (n : Nat) :
    (paddedUser n).renamed (.single "p/A" "v1/p/A") =
      .ok (methodTypeSample (ModifiedUtf8.encode (longText n "v1/p/A"))) := by
  have hother : String.ofList (List.replicate n 'a') ≠ "p/A" := by
    intro heq
    have hmem : 'p' ∈ (String.ofList (List.replicate n 'a')).toList := by
      rw [heq]
      decide
    rw [String.toList_ofList, List.mem_replicate] at hmem
    exact absurd hmem.2 (by decide)
  refine renamed_methodTypeSample rfl (remap_longText (by decide) rfl (by decide) ?_)
  rw [NameMapper.single, if_neg hother]

/-- With 65526 letters the descriptor just fits before the renaming, and no longer after it. -/
theorem parse_renamed_paddedUser {n : Nat} (h : n + 9 = 65535) {s : Substitution}
    (hsub : (paddedUser n).substitute (.single "p/A" "v1/p/A") = .ok s) :
    LoadedClass.parse s.bytes = .error (.unknownTag 4 118) := by
  obtain ⟨c', hrenamed, hbytes⟩ := LoadedClass.renamed_of_substitute (parse_paddedUser h.le) hsub
  rw [renamed_paddedUser] at hrenamed
  rw [hbytes, ← Except.ok.inj hrenamed]
  have hlength := length_encode_longText n "v1/p/A" (by decide)
  obtain ⟨rest, hrest⟩ := encode_longText n
  rw [hrest] at hlength ⊢
  refine parse_methodTypeSample (hlength.trans ?_)
  show n + 6 + 6 = 65538
  omega

/-- The marked class can be read, renamed by itself, read again and renamed again. -/
theorem exists_copy_of_marked : ∃ a s c s',
    LoadedClass.parse (LoadedClass.built "p/A" (ClassBuilder.addVisible defaultMarker)) = .ok a ∧
      a.declaredName = "p/A" ∧ a.hasMarker defaultMarker = true ∧
      a.substitute (.single "p/A" "v1/p/A") = .ok s ∧ LoadedClass.parse s.bytes = .ok c ∧
      c.substitute (.single "p/A" "v1/p/A") = .ok s' := by
  have hcheck : ((LoadedClass.parse (LoadedClass.built "p/A" (ClassBuilder.addVisible
      defaultMarker))).toOption.any fun a => a.declaredName = "p/A" && a.hasMarker defaultMarker &&
        (a.substitute (.single "p/A" "v1/p/A")).toOption.any fun s =>
          (LoadedClass.parse s.bytes).toOption.any fun c =>
            (c.substitute (.single "p/A" "v1/p/A")).isOk) = true := by
    decide +kernel
  obtain ⟨a, ha, hcheck⟩ := exists_ok_of_any hcheck
  simp only [Bool.and_eq_true, decide_eq_true_eq] at hcheck
  obtain ⟨⟨hname, hmarked⟩, hcheck⟩ := hcheck
  obtain ⟨s, hs, hcheck⟩ := exists_ok_of_any hcheck
  obtain ⟨c, hc, hcheck⟩ := exists_ok_of_any hcheck
  obtain ⟨s', hs'⟩ := isOk_iff.mp hcheck
  exact ⟨a, s, c, s', ha, hname, hmarked, hs, hc, hs'⟩

theorem classPaths_paddedSample (n : Nat) :
    (paddedSample n).classPaths = ["p/A.class", "q/U.class"] := by
  rfl

theorem class?_paddedSample {n : Nat} (h : n + 9 ≤ 65535) :
    (paddedSample n).class? "q/U.class" = some (paddedUser n) :=
  MemoryStore.class?_eq_some.mpr ⟨_, rfl, parse_paddedUser h⟩

theorem placedByName_paddedSample {n : Nat} (h : n + 9 ≤ 65535) : (paddedSample n).PlacedByName := by
  obtain ⟨a, -, -, -, ha, hname, -⟩ := exists_copy_of_marked
  have hclassA : (paddedSample n).class? "p/A.class" = some a :=
    MemoryStore.class?_eq_some.mpr ⟨_, rfl, ha⟩
  intro path hpath c hc
  rw [classPaths_paddedSample] at hpath
  simp only [List.mem_cons, List.not_mem_nil, or_false] at hpath
  rcases hpath with rfl | rfl
  · obtain rfl : a = c := Option.some.inj (hclassA.symm.trans hc)
    rw [hname]
    rfl
  · obtain rfl : paddedUser n = c := Option.some.inj ((class?_paddedSample h).symm.trans hc)
    rfl

/-- The run on the store succeeds, and renames `p/A` and nothing else. -/
theorem yields_paddedSample {n : Nat} (h : n + 9 ≤ 65535) :
    ∃ report final, (relocate "v1" defaultMarker).Yields (paddedSample n) .empty report final ∧
      report.table.mapper = .single "p/A" "v1/p/A" := by
  obtain ⟨a, s, c, s', ha, hname, hmarked, hs, hc, hs'⟩ := exists_copy_of_marked
  have hunmarked : (paddedUser n).hasMarker defaultMarker = false := rfl
  have hnameU : (paddedUser n).declaredName = "q/U" := rfl
  have hread : (paddedSample n).HasClasses (paddedSample n).classPaths
      [("p/A.class", a), ("q/U.class", paddedUser n)] := by
    refine ⟨(classPaths_paddedSample n).symm, ?_⟩
    have hclassA : (paddedSample n).class? "p/A.class" = some a :=
      MemoryStore.class?_eq_some.mpr ⟨_, rfl, ha⟩
    simp [hclassA, class?_paddedSample h]
  have hdiscoverable : Discoverable "v1" defaultMarker
      [("p/A.class", a), ("q/U.class", paddedUser n)] := by
    constructor
    · simp [hname, hnameU]
    · simp only [List.forall_mem_cons, hmarked, hunmarked, hname, hnameU]
      decide
    · simp only [List.forall_mem_cons, hmarked, hunmarked, hname]
      exact ⟨fun _ => ⟨s, hs⟩, by simp⟩
  obtain ⟨found, copied, hdiscover, hfound⟩ :=
    exists_yields_discover .empty hread hdiscoverable
  have hmapper : found.table.mapper = .single "p/A" "v1/p/A" := by
    have honly : ∀ e ∈ [("p/A.class", a), ("q/U.class", paddedUser n)],
        e.2.hasMarker defaultMarker = true → e = ("p/A.class", a) := by
      simp [hunmarked]
    rw [hfound.mapper_eq_single List.mem_cons_self hmarked honly, hname]
    rfl
  have hupdatable : ∀ e ∈ [("p/A.class", a), ("q/U.class", paddedUser n)],
      Updatable "v1" defaultMarker found.table e.2 := by
    simp only [List.forall_mem_cons]
    refine ⟨⟨?_, fun _ => ?_⟩, ⟨fun _ => ?_, ?_⟩, by simp⟩
    · intro hnot
      cases hmarked.symm.trans hnot
    · refine ⟨s'.bytes, s, c, s', ?_, hc, hmapper ▸ hs', rfl⟩
      rw [hname]
      exact hs
    · rw [hmapper]
      exact LoadedClass.exists_substitute_of_renamed (renamed_paddedUser n)
    · intro hmark
      cases hunmarked.symm.trans hmark
  obtain ⟨report, final, hyields⟩ :=
    (relocate_succeeds_iff rfl (placedByName_paddedSample h) hfound hdiscover).mpr hupdatable
  refine ⟨report, final, hyields, ?_⟩
  obtain ⟨classes, found', copied', propagatedTo, hrun⟩ := yields_relocate hyields
  obtain ⟨rfl, -⟩ := hdiscover.unique hrun.discover
  rw [hrun.table, hmapper]

/-- A run can write a file that is no class file: the descriptor of `q/U` gets longer than its length
field can tell. -/
theorem relocate_writes_unreadable :
    ¬∀ (tag marker : String) (input output final : MemoryStore) (report : RelocationReport),
      (relocate tag marker).Yields input output report final →
      ∀ path, report.outputPaths.contains path = true → ∃ c, final.class? path = some c := by
  intro hall
  obtain ⟨n, hn⟩ : ∃ n, n + 9 = 65535 := ⟨65526, rfl⟩
  obtain ⟨report, final, hyields, hmapper⟩ := yields_paddedSample hn.le
  obtain ⟨classes, found, copied, propagatedTo, hrun⟩ := yields_relocate hyields
  rw [hrun.table] at hmapper
  have hkeeps : (paddedSample n).Keeps "q/U.class" (paddedUser n) := by
    refine ⟨?_, class?_paddedSample hn.le⟩
    rw [classPaths_paddedSample]
    decide
  have hunmarked : (paddedUser n).hasMarker defaultMarker = false := rfl
  obtain ⟨s, hsub, hfinal⟩ :=
    (hrun.emits (placedByName_paddedSample hn.le)).updated _ _ hkeeps hunmarked
  have hbad := parse_renamed_paddedUser hn (hmapper ▸ hsub)
  -- what was read could be read, so what is written is something else
  have hchanged : s.changed = true := by
    by_contra hnot
    have hsame := LoadedClass.bytes_of_unchanged hsub (Bool.eq_false_iff.mpr hnot)
    rw [hsame, parse_paddedUser hn.le] at hbad
    cases hbad
  rw [hchanged, if_pos rfl] at hfinal
  obtain ⟨c, hc⟩ := hall _ _ _ _ _ _ hyields _
    (hrun.contains_outputPaths_of_changed hkeeps hunmarked hsub hchanged)
  obtain ⟨bytes, hget, hread⟩ := MemoryStore.class?_eq_some.mp hc
  obtain rfl : s.bytes = bytes := Option.some.inj (hfinal.symm.trans hget)
  cases hbad.symm.trans hread

end JvmRelocation
