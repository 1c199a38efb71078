import JvmRelocation.Proofs.Relocation.MemoryRun

/-!
# Programs on any stores

A store may answer what it likes. What a program does nevertheless is told by its tree of calls: to
which paths it can write, with which errors of its own it can fail, and with which results it can
end. Such a guarantee holds of every run, on whatever stores. A run none of whose calls fails has a
result unless the program fails by itself, and what is kept at a path that a program does not write
to stays as it is.
-/

namespace JvmRelocation

namespace StoreProgram

variable {α β : Type} {writes : String → Prop} {errors : RelocationError → Prop}

/-- Whatever the answers, a program writes to some paths only, fails by itself with some errors
only, and ends with some results only. -/
def Ensures (writes : String → Prop) (errors : RelocationError → Prop) (results : α → Prop) :
    StoreProgram α → Prop
  | done a => results a
  | fail e => errors e
  | list _ next => ∀ paths, (next paths).Ensures writes errors results
  | read _ _ _ next => ∀ bytes, (next bytes).Ensures writes errors results
  | write _ path _ next => writes path ∧ next.Ensures writes errors results

/-! ## Parts of programs -/

section

variable {results : α → Prop} {results' : β → Prop}

theorem Ensures.bind {p : StoreProgram α} {f : α → StoreProgram β}
    (hp : p.Ensures writes errors results)
    (hf : ∀ a, results a → (f a).Ensures writes errors results') :
    (p >>= f).Ensures writes errors results' := by
  show (p.andThen f).Ensures writes errors results'
  induction p with
  | done a => exact hf a hp
  | fail e => exact hp
  | list phase next ih => exact fun paths => ih paths (hp paths)
  | read phase side path next ih => exact fun bytes => ih bytes (hp bytes)
  | write phase path bytes next ih => exact ⟨hp.1, ih hp.2⟩

theorem ensures_pure {a : α} (h : results a) :
    (pure a : StoreProgram α).Ensures writes errors results := h

theorem ensures_ofExcept {x : Except RelocationError α} (hok : ∀ a, x = .ok a → results a)
    (herror : ∀ e, x = .error e → errors e) : (ofExcept x).Ensures writes errors results := by
  cases x with
  | ok a => exact hok a rfl
  | error e => exact herror e rfl

theorem ensures_listInput (phase : Phase) :
    (listInput phase).Ensures writes errors fun _ => True := fun _ => trivial

theorem ensures_readFrom (phase : Phase) (side : StoreSide) (path : String) :
    (readFrom phase side path).Ensures writes errors fun _ => True := fun _ => trivial

theorem ensures_writeTo {path : String} (phase : Phase) (bytes : Bytes) (h : writes path) :
    (writeTo phase path bytes).Ensures writes errors fun _ => True := ⟨h, trivial⟩

end

/-! ## Runs -/

section

variable {σ : Type} {results : α → Prop}

/-- One of two stores. -/
def storeAt {m : Type → Type} (input output : ClassStore m) : StoreSide → ClassStore m
  | .input => input
  | .output => output

variable {input output : ClassStore (StateM σ)}

theorem run_list (phase : Phase) (next : List String → StoreProgram α) (s : σ) :
    (list phase next).run (m := StateM σ) input output s =
      match input.list s with
      | (.ok paths, s') => (next paths).run (m := StateM σ) input output s'
      | (.error e, s') => (.error (.storage phase listingPath e), s') := by
  simp only [run, bind, StateT.bind]
  obtain ⟨_ | paths, s'⟩ := input.list s <;> rfl

theorem run_read (phase : Phase) (side : StoreSide) (path : String)
    (next : Bytes → StoreProgram α) (s : σ) :
    (read phase side path next).run (m := StateM σ) input output s =
      match (storeAt input output side).read path s with
      | (.ok bytes, s') => (next bytes).run (m := StateM σ) input output s'
      | (.error e, s') => (.error (.storage phase path e), s') := by
  cases side with
  | input =>
    simp only [run, bind, StateT.bind, storeAt]
    obtain ⟨_ | bytes, s'⟩ := input.read path s <;> rfl
  | output =>
    simp only [run, bind, StateT.bind, storeAt]
    obtain ⟨_ | bytes, s'⟩ := output.read path s <;> rfl

theorem run_write (phase : Phase) (path : String) (bytes : Bytes) (next : StoreProgram α) (s : σ) :
    (write phase path bytes next).run (m := StateM σ) input output s =
      match output.write path bytes s with
      | (.ok (), s') => next.run (m := StateM σ) input output s'
      | (.error e, s') => (.error (.storage phase path e), s') := by
  simp only [run, bind, StateT.bind]
  obtain ⟨_ | _, s'⟩ := output.write path bytes s <;> rfl

/-- A result is one that the program ensures. -/
theorem Ensures.result {p : StoreProgram α} (h : p.Ensures writes errors results) {s s' : σ}
    {a : α} (hrun : p.run (m := StateM σ) input output s = (.ok a, s')) : results a := by
  induction p generalizing s with
  | done b =>
    cases hrun
    exact h
  | fail e => cases hrun
  | list phase next ih =>
    rw [run_list] at hrun
    split at hrun
    · exact ih _ (h _) hrun
    · cases hrun
  | read phase side path next ih =>
    rw [run_read] at hrun
    split at hrun
    · exact ih _ (h _) hrun
    · cases hrun
  | write phase path bytes next ih =>
    rw [run_write] at hrun
    split at hrun
    · exact ih h.2 hrun
    · cases hrun

/-- No call that a run makes fails. -/
def CallsSucceed (input output : ClassStore (StateM σ)) : StoreProgram α → σ → Prop
  | done _, _ => True
  | fail _, _ => True
  | list _ next, s => ∃ paths s', input.list s = (.ok paths, s') ∧
      (next paths).CallsSucceed input output s'
  | read _ side path next, s => ∃ bytes s', (storeAt input output side).read path s = (.ok bytes, s') ∧
      (next bytes).CallsSucceed input output s'
  | write _ path bytes next, s => ∃ s', output.write path bytes s = (.ok (), s') ∧
      next.CallsSucceed input output s'

/-- A run that has a result had no call that failed. -/
theorem callsSucceed_of_result {p : StoreProgram α} {s s' : σ} {a : α}
    (hrun : p.run (m := StateM σ) input output s = (.ok a, s')) : p.CallsSucceed input output s := by
  induction p generalizing s with
  | done b => trivial
  | fail e => trivial
  | list phase next ih =>
    rw [run_list] at hrun
    split at hrun
    case h_1 paths mid hlist => exact ⟨paths, mid, hlist, ih paths hrun⟩
    case h_2 => cases hrun
  | read phase side path next ih =>
    rw [run_read] at hrun
    split at hrun
    case h_1 bytes mid hread => exact ⟨bytes, mid, hread, ih bytes hrun⟩
    case h_2 => cases hrun
  | write phase path bytes next ih =>
    rw [run_write] at hrun
    split at hrun
    case h_1 mid hwrite => exact ⟨mid, hwrite, ih hrun⟩
    case h_2 => cases hrun

/-- Where no call fails, a program that never fails by itself ends with a result. -/
theorem Ensures.exists_result {p : StoreProgram α}
    (h : p.Ensures writes (fun _ => False) results) {s : σ} (hcalls : p.CallsSucceed input output s) :
    ∃ a s', p.run (m := StateM σ) input output s = (.ok a, s') ∧ results a := by
  induction p generalizing s with
  | done a => exact ⟨a, s, rfl, h⟩
  | fail e => exact h.elim
  | list phase next ih =>
    obtain ⟨paths, s', hlist, hrest⟩ := hcalls
    rw [run_list, hlist]
    exact ih paths (h paths) hrest
  | read phase side path next ih =>
    obtain ⟨bytes, s', hread, hrest⟩ := hcalls
    rw [run_read, hread]
    exact ih bytes (h bytes) hrest
  | write phase path bytes next ih =>
    obtain ⟨s', hwrite, hrest⟩ := hcalls
    rw [run_write, hwrite]
    exact ih h.2 hrest

/-! ## Contents -/

/-- The states of two stores tell what is kept at a path: a call changes it at most if it is a write
to that path. -/
structure TellsContent (input output : ClassStore (StateM σ))
    (content : σ → String → Option Bytes) : Prop where
  list : ∀ s path, content (input.list s).2 path = content s path
  read : ∀ side place s path,
    content ((storeAt input output side).read place s).2 path = content s path
  write : ∀ place bytes s path, place ≠ path →
    content (output.write place bytes s).2 path = content s path

/-- However a run ends, what is kept at a path that the program does not write to stays as it is. -/
theorem Ensures.content_eq {p : StoreProgram α} (h : p.Ensures writes errors results)
    {content : σ → String → Option Bytes} (hcontent : TellsContent input output content)
    {path : String} (hpath : ¬writes path) (s : σ) :
    content (p.run (m := StateM σ) input output s).2 path = content s path := by
  induction p generalizing s with
  | done a => rfl
  | fail e => rfl
  | list phase next ih =>
    rw [run_list, ← hcontent.list s path]
    split
    case h_1 paths s' hlist => rw [ih paths (h paths), hlist]
    case h_2 e s' hlist => rw [hlist]
  | read phase side place next ih =>
    rw [run_read, ← hcontent.read side place s path]
    split
    case h_1 bytes s' hread => rw [ih bytes (h bytes), hread]
    case h_2 e s' hread => rw [hread]
  | write phase place bytes next ih =>
    have hne : place ≠ path := fun heq => hpath (heq ▸ h.1)
    rw [run_write, ← hcontent.write place bytes s path hne]
    split
    case h_1 s' hwrite => rw [ih h.2, hwrite]
    case h_2 e s' hwrite => rw [hwrite]

/-- A program that ends with a result on two stores in memory has a run that does. -/
theorem Yields.exists_run {p : StoreProgram α} {input output output' : MemoryStore} {a : α}
    (h : p.Yields input output a output') :
    ∃ stores, p.run (m := StateM (MemoryStore × MemoryStore)) MemoryStore.access.onFirst
      MemoryStore.access.onSecond (input, output) = (.ok a, stores) := by
  have hresult : (p.on input output).1 = .ok a := congrArg Prod.fst h
  exact ⟨_, Prod.ext hresult rfl⟩

/-- Two stores in memory tell what the output store keeps. -/
theorem tellsContent_memory :
    TellsContent MemoryStore.access.onFirst MemoryStore.access.onSecond
      fun (stores : MemoryStore × MemoryStore) path => stores.2.get? path := by
  refine ⟨fun _ _ => rfl, fun side place s path => ?_, fun place bytes s path hne => ?_⟩
  · cases side <;> rfl
  · show (s.2.insert place bytes).get? path = s.2.get? path
    rw [MemoryStore.get?_insert, if_neg hne]

/-- A program leaves what an output store in memory keeps at other paths than those it writes to. -/
theorem Ensures.get?_eq {p : StoreProgram α} (h : p.Ensures writes errors results) {path : String}
    (hpath : ¬writes path) (input output : MemoryStore) :
    (p.on input output).2.get? path = output.get? path :=
  h.content_eq tellsContent_memory hpath (input, output)

end

end StoreProgram

end JvmRelocation
