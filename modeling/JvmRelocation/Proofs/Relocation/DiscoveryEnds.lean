import JvmRelocation.Proofs.Relocation.Accounting
import JvmRelocation.Proofs.Relocation.StoreCalls

/-!
# How discovery ends on sound stores

Discovery reads its input path by path. It comes to a path without a class, or finds that two files
stand in each other's way, or gets through; only then does it write. Which of the three it is, and
which calls have been made by then, is told of the survey, by induction on the paths that are still
to be read, and of the check after it, by induction on the marked classes.
-/

namespace JvmRelocation

open StoreProgram

/-! ## What stops a discovery -/

/-- The calls that read the classes at the given paths of the input store. -/
def surveyCalls (paths : List String) : List StoreCall :=
  ⟨.discovery, .list .input⟩ :: paths.map fun path => ⟨.discovery, .read .input path⟩

/-- Two listed files stand in each other's way: both declare a name, or the first one declares the
name that the second one, which is marked, is to get. -/
inductive NameClash (tag marker : String) (input : MemoryStore) (name first second : String) :
    Prop where
  | declaredTwice (c c' : LoadedClass) (hfirst : input.Keeps first c) (hsecond : input.Keeps second c')
      (hne : first ≠ second) (hname : c.declaredName = name) (hname' : c'.declaredName = name)
  | taken (c c' : LoadedClass) (hfirst : input.Keeps first c) (hsecond : input.Keeps second c')
      (hmarked : c'.hasMarker marker = true) (hname : c.declaredName = name)
      (hnew : relocatedName tag c'.declaredName = name)

/-- Whether an error says that two classes would have the same name. -/
def RelocationError.isDuplicate : RelocationError → Bool
  | duplicate .. => true
  | _ => false

section

variable {tag marker : String} {input : MemoryStore}

/-- No two files stand in each other's way exactly if names are told apart before and after. -/
theorem no_clash_iff {classes : List (String × LoadedClass)}
    (hclasses : input.HasClasses input.classPaths classes) :
    (¬∃ name first second, NameClash tag marker input name first second) ↔
      (classes.map (·.2.declaredName)).Nodup ∧ ∀ e ∈ classes, e.2.hasMarker marker = true →
        ∀ e' ∈ classes, e'.2.declaredName ≠ relocatedName tag e.2.declaredName := by
  constructor
  · intro h
    constructor
    · have hnodup : classes.Nodup := by
        apply List.Nodup.of_map (·.1)
        rw [hclasses.1]
        exact input.classPaths_nodup
      refine hnodup.map_on fun e he e' he' hname => ?_
      by_contra hne
      have hpaths : e.1 ≠ e'.1 := by
        intro hpath
        have hclass := hclasses.2 e' he'
        rw [← hpath, hclasses.2 e he] at hclass
        exact hne (Prod.ext hpath (Option.some.inj hclass))
      have hkeeps := hclasses.mem_iff.mp he
      have hkeeps' := hclasses.mem_iff.mp he'
      exact h ⟨_, _, _, .declaredTwice _ _ hkeeps hkeeps' hpaths hname rfl⟩
    · intro e he hmarked e' he' hname
      exact h ⟨_, _, _, .taken _ _ (hclasses.mem_iff.mp he') (hclasses.mem_iff.mp he) hmarked hname rfl⟩
  · rintro ⟨hdistinct, hfresh⟩ ⟨name, first, second, hclash⟩
    cases hclash with
    | declaredTwice c c' hfirst hsecond hne hname hname' =>
      have heq := List.inj_on_of_nodup_map hdistinct (hclasses.mem_iff.mpr hfirst)
        (hclasses.mem_iff.mpr hsecond) (hname.trans hname'.symm)
      exact hne (congrArg Prod.fst heq)
    | taken c c' hfirst hsecond hmarked hname hnew =>
      exact hfresh _ (hclasses.mem_iff.mpr hsecond) hmarked _ (hclasses.mem_iff.mpr hfirst)
        (hname.trans hnew.symm)

/-! ## Reading the input -/

theorem on_bind_of_yields {α β : Type} {p : StoreProgram α} {f : α → StoreProgram β}
    {output mid : MemoryStore} {a : α} (h : p.Yields input output a mid) :
    (p >>= f).on input output = (f a).on input mid := by
  show (p.andThen f).on input output = _
  rw [on_andThen, show p.on input output = (.ok a, mid) from h]

theorem on_bind_of_error {α β : Type} {p : StoreProgram α} {f : α → StoreProgram β}
    {output mid : MemoryStore} {e : RelocationError} (h : p.on input output = (.error e, mid)) :
    (p >>= f).on input output = (.error e, mid) := by
  show (p.andThen f).on input output = _
  rw [on_andThen, h]

theorem calls_bind_of_yields {α β : Type} {p : StoreProgram α} {f : α → StoreProgram β}
    {output mid : MemoryStore} {a : α} (h : p.Yields input output a mid) :
    (p >>= f).calls input output = p.calls input output ++ (f a).calls input mid := by
  rw [calls_bind, callsAfter, show p.on input output = (.ok a, mid) from h]

theorem calls_bind_of_error {α β : Type} {p : StoreProgram α} {f : α → StoreProgram β}
    {output mid : MemoryStore} {e : RelocationError} (h : p.on input output = (.error e, mid)) :
    (p >>= f).calls input output = p.calls input output := by
  rw [calls_bind, callsAfter, h, List.append_nil]

/-- Where there is no class, reading one fails. -/
theorem on_readClass_of_none {path : String} (h : input.class? path = none) (output : MemoryStore) :
    ∃ e, (readClass .discovery .input path).on input output = (.error e, output) ∧
      e.isDuplicate = false := by
  show ∃ e, ((read .discovery .input path done).andThen fun bytes => _).on input output = _ ∧ _
  rw [on_andThen, on_read_input]
  cases hread : input.read path with
  | error cause => exact ⟨_, rfl, rfl⟩
  | ok bytes =>
    have hget : input.get? path = some bytes := by
      unfold MemoryStore.read at hread
      split at hread
      case h_1 content hcontent =>
        rw [hcontent, Except.ok.inj hread]
      case h_2 => cases hread
    rw [MemoryStore.class?, hget, Option.bind_some] at h
    cases hparse : LoadedClass.parse bytes with
    | error cause => exact ⟨.malformed .discovery path cause, by simp [on_done, hparse]; rfl, rfl⟩
    | ok c =>
      rw [hparse] at h
      cases h

/-- A note is refused only because of a name that another file has declared. -/
theorem Survey.note_eq_error {s : Survey} {read : List (String × LoadedClass)} {path : String}
    {c : LoadedClass} {e : RelocationError} (hdescribes : s.Describes tag marker read)
    (h : s.note tag marker path c = .error e) :
    ∃ first, s.declared.get? c.declaredName = some first ∧
      e = .duplicate c.declaredName first path := by
  cases hdeclared : s.declared.get? c.declaredName with
  | some first =>
    unfold note at h
    rw [hdeclared] at h
    exact ⟨first, rfl, (Except.error.inj h).symm⟩
  | none =>
    have hfresh : ¬∃ e ∈ read, e.2.declaredName = c.declaredName := by
      rw [← hdescribes.declared]
      simpa [Std.TreeMap.get?_eq_getElem?] using hdeclared
    obtain ⟨s', hnote⟩ := hdescribes.exists_note path hfresh
    rw [hnote] at h
    cases h

/-- A survey that has read the classes `read` gets through the rest of the listed paths, or comes to
a path without a class, or to one whose class declares a name for the second time. -/
theorem surveyPaths_outcome {s : Survey} {read : List (String × LoadedClass)} {paths : List String}
    (hdescribes : s.Describes tag marker read) (hrecords : s.Records marker read)
    (hread : ∀ e ∈ read, input.class? e.1 = some e.2)
    (hsplit : read.map (·.1) ++ paths = input.classPaths) (output : MemoryStore) :
    (∃ s', (surveyPaths tag marker s paths).Yields input output s' output) ∨
    ((∃ path ∈ input.classPaths, input.class? path = none) ∧
      ∃ e, (surveyPaths tag marker s paths).on input output = (.error e, output) ∧
        e.isDuplicate = false) ∨
    ∃ name first second, NameClash tag marker input name first second ∧
      (surveyPaths tag marker s paths).on input output =
        (.error (.duplicate name first second), output) := by
  induction paths generalizing s read with
  | nil => exact .inl ⟨s, yields_pure.mpr ⟨rfl, rfl⟩⟩
  | cons path paths ih =>
    have hlisted : path ∈ input.classPaths := by simp [← hsplit]
    cases hclass : input.class? path with
    | none =>
      obtain ⟨e, he, hother⟩ := on_readClass_of_none hclass output
      exact .inr (.inl ⟨⟨path, hlisted, hclass⟩, e, on_bind_of_error he, hother⟩)
    | some c =>
      have hreads : (readClass .discovery .input path).Yields input output c output :=
        yields_readClass.mpr ⟨hclass, rfl⟩
      have hgoes : (surveyPaths tag marker s (path :: paths)).on input output =
          ((ofExcept (s.note tag marker path c)) >>= fun s =>
            surveyPaths tag marker s paths).on input output := on_bind_of_yields hreads
      unfold Yields
      rw [hgoes]
      cases hnote : s.note tag marker path c with
      | ok noted =>
        have hthen : ((ofExcept (.ok noted)) >>= fun s => surveyPaths tag marker s paths).on
            input output = (surveyPaths tag marker noted paths).on input output := rfl
        rw [hthen]
        refine ih (hdescribes.note hnote) (hrecords.note hnote) ?_ ?_
        · intro e he
          rcases List.mem_append.mp he with he | he
          · exact hread e he
          · rw [List.mem_singleton.mp he]
            exact hclass
        · rw [← hsplit, List.map_append, List.append_assoc]
          rfl
      | error e =>
        obtain ⟨first, hfirst, rfl⟩ := Survey.note_eq_error hdescribes hnote
        obtain ⟨c', hc', hname⟩ := hrecords.declared _ _ hfirst
        have hnodup := input.classPaths_nodup
        rw [← hsplit, List.nodup_append] at hnodup
        have hearlier : first ∈ read.map (·.1) := List.mem_map_of_mem hc'
        have hkeeps : input.Keeps first c' :=
          ⟨by rw [← hsplit]; exact List.mem_append_left _ hearlier, hread _ hc'⟩
        have hne : first ≠ path := hnodup.2.2 first hearlier path List.mem_cons_self
        exact .inr (.inr ⟨_, first, path,
          .declaredTwice c' c hkeeps ⟨hlisted, hclass⟩ hne hname rfl, rfl⟩)

/-- The check of a survey that describes all listed classes passes, or finds two that stand in each
other's way. -/
theorem checkClashes_outcome {s : Survey} {classes : List (String × LoadedClass)}
    (hclasses : input.HasClasses input.classPaths classes)
    (hdescribes : s.Describes tag marker classes) (hrecords : s.Records marker classes)
    {marked : List MarkedClass} (hmarked : ∀ c ∈ marked, c ∈ s.marked) :
    s.checkClashes marked = .ok () ∨ ∃ name first second,
      NameClash tag marker input name first second ∧
        s.checkClashes marked = .error (.duplicate name first second) := by
  induction marked with
  | nil => exact .inl rfl
  | cons c marked ih =>
    obtain ⟨hc, hrest⟩ := List.forall_mem_cons.mp hmarked
    unfold Survey.checkClashes
    cases htaken : s.declared.get? c.relocated with
    | none => exact ih hrest
    | some first =>
      obtain ⟨c', hc', hname⟩ := hrecords.declared _ _ htaken
      rw [← List.mem_reverse, hdescribes.marked] at hc
      obtain ⟨e, he, rfl⟩ := List.mem_map.mp hc
      obtain ⟨he, hmark⟩ := List.mem_filter.mp he
      have hclash : NameClash tag marker input _ first e.1 :=
        .taken c' e.2 (hclasses.mem_iff.mp hc') (hclasses.mem_iff.mp he) hmark hname rfl
      exact .inr ⟨_, first, e.1, hclash, rfl⟩

/-! ## The calls of a discovery -/

theorem calls_ofExcept {α : Type} (x : Except RelocationError α) (output : MemoryStore) :
    (ofExcept x).calls input output = [] := by
  cases x <;> rfl

theorem calls_readClass (path : String) (output : MemoryStore) :
    (readClass .discovery .input path).calls input output =
      [⟨.discovery, .read .input path⟩] := by
  have hread : (readFrom .discovery .input path).calls input output =
      [⟨.discovery, .read .input path⟩] := by
    unfold readFrom
    rw [calls]
    cases (sideStore input output .input).read path <;> rfl
  have hthen : (readFrom .discovery .input path).callsAfter input output (fun _ _ => []) = [] :=
    callsAfter_nil _ output
  rw [readClass, calls_bind, hread, List.append_right_eq_self]
  refine Eq.trans (congrArg _ (funext₂ fun bytes output' => ?_)) hthen
  cases LoadedClass.parse bytes <;> rfl

/-- A survey reads its paths in order, as far as it gets. -/
theorem calls_surveyPaths (s : Survey) (paths : List String) (output : MemoryStore) :
    (surveyPaths tag marker s paths).calls input output <+:
        paths.map (fun path => ⟨.discovery, .read .input path⟩) ∧
      ∀ s', (surveyPaths tag marker s paths).Yields input output s' output →
        (surveyPaths tag marker s paths).calls input output =
          paths.map fun path => ⟨.discovery, .read .input path⟩ := by
  induction paths generalizing s with
  | nil => exact ⟨List.nil_prefix, fun _ _ => rfl⟩
  | cons path paths ih =>
    rw [List.map_cons]
    cases hclass : input.class? path with
    | none =>
      obtain ⟨e, he, -⟩ := on_readClass_of_none hclass output
      have hcalls : (surveyPaths tag marker s (path :: paths)).calls input output =
          [⟨.discovery, .read .input path⟩] := by
        rw [surveyPaths, calls_bind_of_error he, calls_readClass]
      refine ⟨hcalls ▸ List.prefix_append [_] _, fun s' hyields => ?_⟩
      rw [Yields, surveyPaths, on_bind_of_error he] at hyields
      cases hyields
    | some c =>
      have hreads : (readClass .discovery .input path).Yields input output c output :=
        yields_readClass.mpr ⟨hclass, rfl⟩
      have hcalls : (surveyPaths tag marker s (path :: paths)).calls input output =
          StoreCall.mk .discovery (.read .input path) ::
            StoreProgram.calls input (StoreProgram.ofExcept (s.note tag marker path c) >>= fun s =>
              surveyPaths tag marker s paths) output := by
        rw [surveyPaths, calls_bind_of_yields hreads, calls_readClass]
        rfl
      unfold Yields
      rw [hcalls, surveyPaths, on_bind_of_yields hreads]
      cases s.note tag marker path c with
      | error e =>
        refine ⟨List.prefix_append [_] _, fun s' hyields => ?_⟩
        cases hyields
      | ok noted =>
        obtain ⟨hearlier, hall⟩ := ih noted
        refine ⟨(List.prefix_cons_inj _).mpr hearlier, fun s' hyields => ?_⟩
        exact congrArg _ (hall s' hyields)

/-- Reading writes nothing. -/
theorem filesOf_surveyCalls (paths : List String) : filesOf (surveyCalls paths) = [] := by
  simp [filesOf, surveyCalls, StoreRequest.file?]

variable (input) in
/-- Writing marked classes makes no other calls, and ends with no duplicate. -/
theorem writeMarked_writes (written : List String) (marked : List MarkedClass)
    (output : MemoryStore) :
    (∀ call ∈ (writeMarked written marked).calls input output, call.request.kind = .write) ∧
      ∀ e, ((writeMarked written marked).on input output).1 = .error e → e.isDuplicate = false := by
  induction marked generalizing written output with
  | nil => exact ⟨List.forall_mem_nil _, fun e he => by cases he⟩
  | cons c marked ih =>
    rw [writeMarked, renameClass]
    cases c.file.substitute (.single c.file.declaredName c.relocated) with
    | error cause =>
      refine ⟨List.forall_mem_nil _, fun e he => ?_⟩
      obtain rfl := Except.error.inj he
      rfl
    | ok s =>
      obtain ⟨hwrites, hends⟩ := ih (classPath c.relocated :: written)
        (output.insert (classPath c.relocated) s.bytes)
      exact ⟨List.forall_mem_cons.mpr ⟨rfl, hwrites⟩, hends⟩

/-- Writing marked classes writes one file for each. -/
theorem filesOf_writeMarked {marked : List MarkedClass} {written paths : List String}
    {output output' : MemoryStore}
    (h : (writeMarked written marked).Yields input output paths output') :
    (filesOf ((writeMarked written marked).calls input output)).map (·.1) =
      marked.map fun c => classPath c.relocated := by
  induction marked generalizing written output with
  | nil => rfl
  | cons c marked ih =>
    obtain ⟨s, afterRename, hrename, hthen⟩ := yields_bind.mp h
    have hsub := yields_renameClass.mp hrename
    obtain rfl := hsub.2
    obtain ⟨_, afterWrite, hwrite, hrest⟩ := yields_bind.mp hthen
    obtain rfl := yields_writeTo.mp hwrite
    rw [writeMarked, renameClass, hsub.1, List.map_cons, ← ih hrest]
    rfl

/-! ## The three ends of a discovery on sound stores -/

/-- A discovery is stopped while it reads its input: it ends with an error, and has made no other
calls. -/
structure Stopped (tag marker : String) (input output : MemoryStore) (e : RelocationError) :
    Prop where
  on : (discover tag marker).on input output = (.error e, output)
  calls : (discover tag marker).calls input output <+: surveyCalls input.classPaths

/-- A discovery gets through its input: it has read everything before it writes anything. -/
structure GotThrough (tag marker : String) (input output : MemoryStore) : Prop where
  read : ∃ classes, input.HasClasses input.classPaths classes
  noClash : ¬∃ name first second, NameClash tag marker input name first second
  calls : ∃ writes, (∀ call ∈ writes, call.request.kind = .write) ∧
    (discover tag marker).calls input output = surveyCalls input.classPaths ++ writes
  error : ∀ e, ((discover tag marker).on input output).1 = .error e → e.isDuplicate = false

theorem stopped_of_surveyPaths {output : MemoryStore} {e : RelocationError}
    (h : (surveyPaths tag marker .empty input.classPaths).on input output = (.error e, output)) :
    Stopped tag marker input output e := by
  have hlist : (listInput .discovery).Yields input output input.classPaths output :=
    yields_listInput.mpr ⟨rfl, rfl⟩
  constructor
  case on => rw [discover, on_bind_of_yields hlist, on_bind_of_error h]
  case calls =>
    rw [discover, calls_bind_of_yields hlist, calls_bind_of_error h]
    exact (List.prefix_cons_inj _).mpr (calls_surveyPaths .empty input.classPaths output).1

/-- What a discovery does with its survey. -/
def writeSurvey (s : Survey) : StoreProgram Discovery := do
  ofExcept (s.checkClashes s.marked.reverse)
  let written ← writeMarked [] s.marked.reverse
  return ⟨s.table, ⟨.discovery, s.scanned, written, s.unchanged⟩⟩

theorem discover_of_survey {output : MemoryStore} {s : Survey}
    (h : (surveyPaths tag marker .empty input.classPaths).Yields input output s output) :
    (discover tag marker).on input output = (writeSurvey s).on input output ∧
      (discover tag marker).calls input output =
        surveyCalls input.classPaths ++ (writeSurvey s).calls input output := by
  have hlist : (listInput .discovery).Yields input output input.classPaths output :=
    yields_listInput.mpr ⟨rfl, rfl⟩
  constructor
  · rw [discover, on_bind_of_yields hlist, on_bind_of_yields h]
    rfl
  · rw [discover, calls_bind_of_yields hlist, calls_bind_of_yields h,
      (calls_surveyPaths .empty input.classPaths output).2 s h]
    rfl

variable (input) in
/-- A survey that is refused is not written. -/
theorem writeSurvey_of_refused {s : Survey} {e : RelocationError}
    (h : s.checkClashes s.marked.reverse = .error e) (output : MemoryStore) :
    (writeSurvey s).on input output = (.error e, output) ∧
      (writeSurvey s).calls input output = [] := by
  rw [writeSurvey, h]
  exact ⟨rfl, rfl⟩

variable (input) in
/-- From a survey that is not refused on, there are writings only. -/
theorem writeSurvey_writes {s : Survey} (h : s.checkClashes s.marked.reverse = .ok ())
    (output : MemoryStore) :
    (∀ call ∈ (writeSurvey s).calls input output, call.request.kind = .write) ∧
      ∀ e, ((writeSurvey s).on input output).1 = .error e → e.isDuplicate = false := by
  obtain ⟨hwrites, hends⟩ := writeMarked_writes input [] s.marked.reverse output
  have hchecked : (ofExcept (s.checkClashes s.marked.reverse)).Yields input output () output :=
    yields_ofExcept.mpr ⟨h, rfl⟩
  rw [writeSurvey, on_bind_of_yields hchecked, calls_bind_of_yields hchecked, calls_ofExcept,
    List.nil_append]
  cases hon : (writeMarked [] s.marked.reverse).on input output with
  | mk result output' =>
    rw [hon] at hends
    cases result with
    | error e =>
      rw [on_bind_of_error hon, calls_bind_of_error hon]
      exact ⟨hwrites, fun e' he' => hends e' (congrArg Except.error (Except.error.inj he'))⟩
    | ok written =>
      rw [on_bind_of_yields hon, calls_bind_of_yields hon, calls_pure, List.append_nil]
      exact ⟨hwrites, fun e he => by cases he⟩

theorem discover_ends (tag marker : String) (input output : MemoryStore) :
    ((∃ path ∈ input.classPaths, input.class? path = none) ∧
      ∃ e, e.isDuplicate = false ∧ Stopped tag marker input output e) ∨
    (∃ name first second, NameClash tag marker input name first second ∧
      Stopped tag marker input output (.duplicate name first second)) ∨
    GotThrough tag marker input output := by
  rcases surveyPaths_outcome (Survey.describes_empty tag marker) (Survey.records_empty marker)
    nofun (List.nil_append input.classPaths) output with ⟨s, hsurvey⟩ | ⟨hnone, e, he, hother⟩ |
      ⟨name, first, second, hclash, he⟩
  · obtain ⟨-, classes, hclasses, hdescribes⟩ := yields_surveyPaths hsurvey
    have hdescribed : s.Describes tag marker classes :=
      hdescribes [] (Survey.describes_empty tag marker)
    have hrecords : s.Records marker classes :=
      records_of_surveyPaths hclasses (Survey.records_empty marker) hsurvey
    obtain ⟨hon, hcalls⟩ := discover_of_survey hsurvey
    have hmarked : ∀ c ∈ s.marked.reverse, c ∈ s.marked := fun c hc => List.mem_reverse.mp hc
    rcases checkClashes_outcome hclasses hdescribed hrecords hmarked with
      hpasses | ⟨name, first, second, hclash, hrefused⟩
    · obtain ⟨hwrites, herror⟩ := writeSurvey_writes input hpasses output
      refine .inr (.inr ⟨⟨classes, hclasses⟩, ?_, ⟨_, hwrites, hcalls⟩, hon ▸ herror⟩)
      exact (no_clash_iff hclasses).mpr
        ⟨hdescribed.distinct, hdescribed.fresh_of_checkClashes hpasses⟩
    · obtain ⟨hends, hnothing⟩ := writeSurvey_of_refused input hrefused output
      have hreads : (discover tag marker).calls input output = surveyCalls input.classPaths := by
        rw [hcalls, hnothing, List.append_nil]
      exact .inr (.inl ⟨name, first, second, hclash, hon.trans hends, hreads ▸ List.prefix_refl _⟩)
  · exact .inl ⟨hnone, e, hother, stopped_of_surveyPaths he⟩
  · exact .inr (.inl ⟨name, first, second, hclash, stopped_of_surveyPaths he⟩)

/-- A discovery that succeeds writes the files of its report. -/
theorem filesOf_discover {output output' : MemoryStore} {found : Discovery}
    (h : (discover tag marker).Yields input output found output') :
    (filesOf ((discover tag marker).calls input output)).map (·.1) = found.report.written := by
  obtain ⟨paths, afterList, hlist, hsurveying⟩ := yields_bind.mp h
  obtain ⟨rfl, rfl⟩ := yields_listInput.mp hlist
  obtain ⟨s, afterSurvey, hsurvey, hchecking⟩ := yields_bind.mp hsurveying
  obtain ⟨rfl, -⟩ := yields_surveyPaths hsurvey
  obtain ⟨_, afterCheck, hcheck, hwriting⟩ := yields_bind.mp hchecking
  obtain ⟨hpasses, rfl⟩ := yields_ofExcept.mp hcheck
  obtain ⟨written, afterWrite, hwrite, hend⟩ := yields_bind.mp hwriting
  obtain ⟨rfl, rfl⟩ := yields_pure.mp hend
  have hcalls : (writeSurvey s).calls input afterCheck =
      (writeMarked [] s.marked.reverse).calls input afterCheck := by
    rw [writeSurvey, calls_bind_of_yields hcheck, calls_ofExcept, calls_bind_of_yields hwrite,
      calls_pure, List.nil_append, List.append_nil]
  have hsplit (calls : List StoreCall) :
      filesOf (surveyCalls input.classPaths ++ calls) = filesOf calls := by
    rw [filesOf, List.filterMap_append, ← filesOf, ← filesOf, filesOf_surveyCalls, List.nil_append]
  rw [(discover_of_survey hsurvey).2, hsplit, hcalls, filesOf_writeMarked hwrite]
  exact ((yields_writeMarked hwrite).1.trans (List.nil_append _)).symm

end

end JvmRelocation
