import JvmRelocation.Proofs.ClassFile.ChangedFlag
import JvmRelocation.Proofs.Relocation.StoreCalls

/-!
# Updates are silent where no name changes

Propagation and fixup write a class back only if its renaming reports a change, and a change is
reported of classes only that refer to a name with another one in the table. This is a property of
the programs, whatever the stores answer: every write goes to the path that was read last, and what
was read there calls for it.
-/

namespace JvmRelocation

namespace StoreProgram

variable {α β : Type} {side : StoreSide} {due : Bytes → Prop} {last : Option (String × Bytes)}

/-- Whatever the answers, only one of the stores is read, and every write goes to the path that was
read last, at most once, where what was read calls for it. The path and content of the read in front
of the program are given, if there is one that no write has answered. -/
def WritesOnly (side : StoreSide) (due : Bytes → Prop) :
    Option (String × Bytes) → StoreProgram α → Prop
  | _, done _ => True
  | _, fail _ => True
  | last, list _ next => ∀ paths, (next paths).WritesOnly side due last
  | _, read _ side' path next =>
    side' = side ∧ ∀ bytes, (next bytes).WritesOnly side due (some (path, bytes))
  | last, write _ path _ next =>
    (∃ bytes, last = some (path, bytes) ∧ due bytes) ∧ next.WritesOnly side due none

theorem WritesOnly.bind {p : StoreProgram α} {f : α → StoreProgram β}
    (hp : p.WritesOnly side due last) (hf : ∀ a last, (f a).WritesOnly side due last) :
    (p >>= f).WritesOnly side due last := by
  show (p.andThen f).WritesOnly side due last
  induction p generalizing last with
  | done a => exact hf a last
  | fail e => trivial
  | list phase next ih => exact fun paths => ih paths (hp paths)
  | read phase side' path next ih => exact ⟨hp.1, fun bytes => ih bytes (hp.2 bytes)⟩
  | write phase path bytes next ih => exact ⟨hp.1, ih hp.2⟩

theorem writesOnly_pure (a : α) : (pure a : StoreProgram α).WritesOnly side due last := trivial

/-- What is done with a class that was read, is done with its content in mind. -/
theorem writesOnly_readClass {phase : Phase} {path : String} {f : LoadedClass → StoreProgram α}
    (h : ∀ bytes c, LoadedClass.parse bytes = .ok c →
      (f c).WritesOnly side due (some (path, bytes))) :
    (readClass phase side path >>= f).WritesOnly side due last := by
  refine ⟨rfl, fun bytes => ?_⟩
  simp only [andThen]
  cases hparse : LoadedClass.parse bytes with
  | error e => trivial
  | ok c => exact h bytes c hparse

end StoreProgram

open StoreProgram

/-- A content is a class that refers to a name with another one in a mapper. -/
def CallsFor (m : NameMapper) (bytes : Bytes) : Prop :=
  ∃ c, LoadedClass.parse bytes = .ok c ∧ c.MentionsRenamed m

theorem writesOnly_updateClass {m : NameMapper} {side : StoreSide} {report : PhaseReport}
    {path : String} {bytes : Bytes} {c : LoadedClass} (hparse : LoadedClass.parse bytes = .ok c) :
    (updateClass m report path c).WritesOnly side (CallsFor m) (some (path, bytes)) := by
  rw [updateClass, renameClass]
  cases hsub : c.substitute m with
  | error e => trivial
  | ok s =>
    show (if s.changed = true then _ else _ : StoreProgram PhaseReport).WritesOnly side _ _
    cases hchanged : s.changed with
    | false => trivial
    | true =>
      obtain ⟨-, w, hw⟩ := LoadedClass.of_changed hparse hsub hchanged
      exact ⟨⟨bytes, rfl, c, hparse, .of_rewrites hw⟩, trivial⟩

theorem writesOnly_propagatePaths (table : RelocationTable) (report : PhaseReport)
    (paths : List String) (last : Option (String × Bytes)) :
    (propagatePaths table report paths).WritesOnly .input (CallsFor table.mapper) last := by
  induction paths generalizing report last with
  | nil => exact writesOnly_pure report
  | cons path paths ih =>
    refine writesOnly_readClass fun bytes c hparse => ?_
    cases table.contains c.declaredName with
    | true => exact ih report _
    | false => exact (writesOnly_updateClass hparse).bind ih

theorem writesOnly_propagate (table : RelocationTable) :
    (propagate table).WritesOnly .input (CallsFor table.mapper) none :=
  WritesOnly.bind (p := listInput .propagation) (fun _ => trivial) fun paths last =>
    (writesOnly_propagatePaths table (.start .propagation) paths last).bind fun _ _ =>
      writesOnly_pure _

theorem writesOnly_fixUpPaths (table : RelocationTable) (report : PhaseReport)
    (paths : List String) (last : Option (String × Bytes)) :
    (fixUpPaths table report paths).WritesOnly .output (CallsFor table.mapper) last := by
  induction paths generalizing report last with
  | nil => exact writesOnly_pure report
  | cons path paths ih =>
    exact writesOnly_readClass fun bytes c hparse => (writesOnly_updateClass hparse).bind ih

theorem writesOnly_fixUp (table : RelocationTable) (paths : List String) :
    (fixUp table paths).WritesOnly .output (CallsFor table.mapper) none :=
  (writesOnly_fixUpPaths table (.start .fixup) paths none).bind fun _ _ => writesOnly_pure _

/-- **Silence.** A renaming that reports no change returns the bytes that were read. One that
reports a change returns other bytes, some text at a name site becomes another one, and the class
refers to a name that the mapper gives another one. The report is exact if a text is appended or if
each text that is rewritten where it stands fits its length field. So propagation never writes and
fixup never rewrites a class none of whose names gets another one, whatever the stores answer. -/
theorem changes_are_due {source : Bytes} {c : LoadedClass} {m : NameMapper} {s : Substitution}
    (hparse : LoadedClass.parse source = .ok c) (hsub : c.substitute m = .ok s) :
    (s.changed = false → s.bytes = source) ∧
      (s.changed = true → s.bytes ≠ source ∧ (∃ w, c.Rewrites m w) ∧ c.MentionsRenamed m) ∧
      ((∃ w, c.NeedsSlot m w) ∨
          (∀ i w, c.AgreesOn m i w → (ModifiedUtf8.encode w).length ≤ 65535) →
        (s.changed = true ↔ ∃ w, c.Rewrites m w)) ∧
      ∀ table : RelocationTable,
        (propagate table).WritesOnly .input (CallsFor table.mapper) none ∧
        ∀ paths, (fixUp table paths).WritesOnly .output (CallsFor table.mapper) none := by
  refine ⟨?_, ?_, ?_, fun table => ⟨writesOnly_propagate table, writesOnly_fixUp table⟩⟩
  · exact LoadedClass.of_unchanged hparse hsub
  · intro hchanged
    obtain ⟨hne, w, hw⟩ := LoadedClass.of_changed hparse hsub hchanged
    exact ⟨hne, ⟨w, hw⟩, .of_rewrites hw⟩
  · exact LoadedClass.changed_iff_rewrites hparse hsub

theorem changes_are_due_sharingSample :
    ∃ c s, LoadedClass.parse LoadedClass.sharingSample = .ok c ∧
      c.substitute (.single "p/A" "v1/p/A") = .ok s ∧
      (∀ i w, c.AgreesOn (.single "p/A" "v1/p/A") i w → (ModifiedUtf8.encode w).length ≤ 65535) ∧
      s.changed = true ∧ s.bytes ≠ LoadedClass.sharingSample ∧
      c.MentionsRenamed (.single "p/A" "v1/p/A") := by
  have hcheck : ((LoadedClass.parse LoadedClass.sharingSample).toOption.any fun c =>
      (c.substitute (.single "p/A" "v1/p/A")).isOk && decide (c.Fits (.single "p/A" "v1/p/A")) &&
        (c.rewrittenTexts (.single "p/A" "v1/p/A")).contains "v1/p/A") = true := by
    decide +kernel
  obtain ⟨c, hparse, hc⟩ := exists_ok_of_any hcheck
  simp only [Bool.and_eq_true, decide_eq_true_eq, List.contains_iff_mem,
    ClassFile.mem_rewrittenTexts] at hc
  obtain ⟨⟨hok, hfits⟩, hrewrites⟩ := hc
  obtain ⟨s, hsub⟩ := isOk_iff.mp hok
  obtain ⟨found, hfound, -⟩ := id hrewrites
  have hplaces (i : UInt16) (w : String) (h : c.AgreesOn (.single "p/A" "v1/p/A") i w) :
      (ModifiedUtf8.encode w).length ≤ 65535 := hfits w (h.rewrites hfound)
  obtain ⟨-, hother, hexact, -⟩ := changes_are_due hparse hsub
  have hchanged := (hexact (.inr hplaces)).mpr ⟨_, hrewrites⟩
  obtain ⟨hne, -, hmentions⟩ := hother hchanged
  exact ⟨c, s, hparse, hsub, hplaces, hchanged, hne, hmentions⟩

end JvmRelocation
