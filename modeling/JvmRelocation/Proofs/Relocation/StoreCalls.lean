import JvmRelocation.Proofs.Relocation.Discovery

/-!
# The calls of a run

On two stores in memory it is determined which store calls a program makes, in which order and in
which phase. The writes among them are all that a run does to the output store, and the calls of a
run are those of discovery, then those of propagation, then those of fixup.
-/

namespace JvmRelocation

/-! ## Calls -/

/-- What is asked of a store. -/
inductive StoreRequest where
  | list (side : StoreSide)
  | read (side : StoreSide) (path : String)
  | write (side : StoreSide) (path : String) (bytes : Bytes)
deriving DecidableEq, Repr

namespace StoreRequest

/-- The store that is asked. -/
def side : StoreRequest → StoreSide
  | list side => side
  | read side _ => side
  | write side _ _ => side

def kind : StoreRequest → CallKind
  | list _ => .list
  | read _ _ => .read
  | write _ _ _ => .write

/-- The path that is given to a store. A listing has the one that stands for it in errors. -/
def path : StoreRequest → String
  | list _ => StoreProgram.listingPath
  | read _ path => path
  | write _ path _ => path

/-- The file that a request writes, if it is to write one. -/
def file? : StoreRequest → Option (String × Bytes)
  | write _ path bytes => some (path, bytes)
  | _ => none

end StoreRequest

/-- How many requests of a kind have been made to one of the stores. -/
def requestCount (side : StoreSide) (requests : List StoreRequest) (kind : CallKind) : Nat :=
  requests.countP fun r => r.side = side && r.kind = kind

/-- The number of a request that comes after others, among those of its kind to its store, counted
from one. -/
def StoreRequest.number (r : StoreRequest) (earlier : List StoreRequest) : Nat :=
  requestCount r.side earlier r.kind + 1

/-- A store that notes what is asked of it before it does so. -/
def ClassStore.recorded {σ : Type} (side : StoreSide) (s : ClassStore (StateM σ)) :
    ClassStore (StateM (σ × List StoreRequest)) where
  list := fun (state, log) =>
    let (r, state) := s.list state; (r, (state, log ++ [.list side]))
  read path := fun (state, log) =>
    let (r, state) := s.read path state; (r, (state, log ++ [.read side path]))
  write path bytes := fun (state, log) =>
    let (r, state) := s.write path bytes state; (r, (state, log ++ [.write side path bytes]))

/-- A call of a program: what is asked of a store, and the phase in which it is. -/
structure StoreCall where
  phase : Phase
  request : StoreRequest
deriving DecidableEq, Repr

/-- What the calls ask, in order. -/
def requestsOf (calls : List StoreCall) : List StoreRequest :=
  calls.map (·.request)

/-- The files that the calls write, in order. -/
def filesOf (calls : List StoreCall) : List (String × Bytes) :=
  calls.filterMap (·.request.file?)

/-- Where files are written to the output store only, they are counted as its write requests. -/
theorem length_filesOf {calls : List StoreCall}
    (h : ∀ call ∈ calls, call.request.kind = .write → call.request.side = .output) :
    (filesOf calls).length = requestCount .output (requestsOf calls) .write := by
  rw [filesOf, List.length_filterMap_eq_countP, requestsOf, requestCount, List.countP_map]
  refine List.countP_congr fun call hcall => ?_
  have hside := h call hcall
  cases hrequest : call.request with
  | list side => simp [StoreRequest.file?, StoreRequest.kind, hrequest]
  | read side path => simp [StoreRequest.file?, StoreRequest.kind, hrequest]
  | write side path bytes =>
    rw [hrequest] at hside
    simpa [StoreRequest.file?, StoreRequest.kind, hrequest] using hside rfl

theorem MemoryStore.insertAll_append (s : MemoryStore) (files files' : List (String × Bytes)) :
    s.insertAll (files ++ files') = (s.insertAll files).insertAll files' := by
  rw [insertAll, List.foldl_append, insertAll, insertAll]

namespace StoreProgram

variable {α β : Type}

/-- The calls that a program makes on two stores in memory, up to its result or its error. -/
def calls (input : MemoryStore) : StoreProgram α → MemoryStore → List StoreCall
  | done _, _ => []
  | fail _, _ => []
  | list phase next, output =>
    ⟨phase, .list .input⟩ :: (next input.classPaths).calls input output
  | read phase side path next, output =>
    ⟨phase, .read side path⟩ ::
      match (sideStore input output side).read path with
      | .ok bytes => (next bytes).calls input output
      | .error _ => []
  | write phase path bytes next, output =>
    ⟨phase, .write .output path bytes⟩ :: next.calls input (output.insert path bytes)

variable {input : MemoryStore}

theorem on_read (phase : Phase) (side : StoreSide) (path : String)
    (next : Bytes → StoreProgram α) (output : MemoryStore) :
    (read phase side path next).on input output =
      match (sideStore input output side).read path with
      | .ok bytes => (next bytes).on input output
      | .error e => (.error (.storage phase path e), output) := by
  cases side with
  | input => exact on_read_input phase path next
  | output => exact on_read_output phase path next

theorem on_write (phase : Phase) (path : String) (bytes : Bytes) (next : StoreProgram α)
    (output : MemoryStore) :
    (write phase path bytes next).on input output = next.on input (output.insert path bytes) := rfl

/-- All that a program does to the output store is to write the files of its calls. -/
theorem on_output (p : StoreProgram α) (output : MemoryStore) :
    (p.on input output).2 = output.insertAll (filesOf (p.calls input output)) := by
  induction p generalizing output with
  | done a => rfl
  | fail e => rfl
  | list phase next ih =>
    rw [on_list, ih]
    rfl
  | read phase side path next ih =>
    rw [on_read, calls]
    cases (sideStore input output side).read path with
    | ok bytes => exact ih bytes output
    | error e => rfl
  | write phase path bytes next ih => exact ih (output.insert path bytes)

/-- Files are written to the output store only. -/
theorem side_of_write (p : StoreProgram α) (output : MemoryStore) :
    ∀ call ∈ p.calls input output, call.request.kind = .write → call.request.side = .output := by
  induction p generalizing output with
  | done a => simp [calls]
  | fail e => simp [calls]
  | list phase next ih =>
    rw [calls, List.forall_mem_cons]
    exact ⟨nofun, ih _ output⟩
  | read phase side path next ih =>
    rw [calls, List.forall_mem_cons]
    refine ⟨nofun, ?_⟩
    cases (sideStore input output side).read path with
    | ok bytes => exact ih bytes output
    | error e => simp
  | write phase path bytes next ih =>
    rw [calls, List.forall_mem_cons]
    exact ⟨fun _ => rfl, ih _⟩

/-! ## One program after another -/

/-- The calls that come after a program, if it ends with a result. -/
def callsAfter (p : StoreProgram α) (input output : MemoryStore)
    (next : α → MemoryStore → List StoreCall) : List StoreCall :=
  match p.on input output with
  | (.ok a, output') => next a output'
  | (.error _, _) => []

theorem calls_bind (p : StoreProgram α) (f : α → StoreProgram β) (output : MemoryStore) :
    (p >>= f).calls input output = p.calls input output ++
      p.callsAfter input output fun a output' => (f a).calls input output' := by
  show (p.andThen f).calls input output = _
  induction p generalizing output with
  | done a => rfl
  | fail e => rfl
  | list phase next ih =>
    rw [andThen, calls, calls, callsAfter, on_list, List.cons_append, ih, callsAfter]
  | read phase side path next ih =>
    rw [andThen, calls, calls, callsAfter, on_read, List.cons_append]
    cases (sideStore input output side).read path with
    | ok bytes => exact congrArg _ (ih bytes output)
    | error e => rfl
  | write phase path bytes next ih =>
    rw [andThen, calls, calls, callsAfter, on_write, List.cons_append, ih, callsAfter]

theorem callsAfter_bind (p : StoreProgram α) (f : α → StoreProgram β) (output : MemoryStore)
    (next : β → MemoryStore → List StoreCall) : (p >>= f).callsAfter input output next =
      p.callsAfter input output fun a output' => (f a).callsAfter input output' next := by
  show (match (p.andThen f).on input output with
    | (.ok b, output') => next b output'
    | (.error _, _) => []) = _
  rw [on_andThen, callsAfter]
  cases p.on input output with
  | mk result output' =>
    cases result with
    | ok a => rfl
    | error e => rfl

theorem callsAfter_append (p : StoreProgram α) (output : MemoryStore)
    (next next' : α → MemoryStore → List StoreCall) :
    (p.callsAfter input output fun a output' => next a output' ++ next' a output') =
      p.callsAfter input output next ++ p.callsAfter input output next' := by
  rw [callsAfter, callsAfter, callsAfter]
  cases p.on input output with
  | mk result output' => cases result <;> rfl

theorem calls_pure (a : α) (output : MemoryStore) :
    (pure a : StoreProgram α).calls input output = [] := rfl

theorem callsAfter_pure (a : α) (output : MemoryStore) (next : α → MemoryStore → List StoreCall) :
    (pure a : StoreProgram α).callsAfter input output next = next a output := rfl

theorem callsAfter_nil (p : StoreProgram α) (output : MemoryStore) :
    (p.callsAfter input output fun _ _ => []) = [] := by
  rw [callsAfter]
  split <;> rfl

/-- Every call after a program comes from what follows it. -/
theorem mem_callsAfter {p : StoreProgram α} {output : MemoryStore}
    {next : α → MemoryStore → List StoreCall} {call : StoreCall}
    (h : call ∈ p.callsAfter input output next) : ∃ a output', call ∈ next a output' := by
  rw [callsAfter] at h
  split at h
  case h_1 a output' _ => exact ⟨a, output', h⟩
  case h_2 => cases h

/-! ## Programs of one phase -/

/-- Every call of a program, whatever the answers to those before, is made in the given phase. -/
def MadeIn (phase : Phase) : StoreProgram α → Prop
  | done _ => True
  | fail _ => True
  | list phase' next => phase' = phase ∧ ∀ paths, (next paths).MadeIn phase
  | read phase' _ _ next => phase' = phase ∧ ∀ bytes, (next bytes).MadeIn phase
  | write phase' _ _ next => phase' = phase ∧ next.MadeIn phase

variable {phase : Phase}

theorem MadeIn.calls {p : StoreProgram α} (h : p.MadeIn phase) (output : MemoryStore) :
    ∀ call ∈ p.calls input output, call.phase = phase := by
  induction p generalizing output with
  | done a => simp [StoreProgram.calls]
  | fail e => simp [StoreProgram.calls]
  | list phase' next ih =>
    rw [StoreProgram.calls, List.forall_mem_cons]
    exact ⟨h.1, ih _ (h.2 _) output⟩
  | read phase' side path next ih =>
    rw [StoreProgram.calls, List.forall_mem_cons]
    refine ⟨h.1, ?_⟩
    cases (sideStore input output side).read path with
    | ok bytes => exact ih bytes (h.2 bytes) output
    | error e => simp
  | write phase' path bytes next ih =>
    rw [StoreProgram.calls, List.forall_mem_cons]
    exact ⟨h.1, ih h.2 _⟩

theorem MadeIn.bind {p : StoreProgram α} {f : α → StoreProgram β} (hp : p.MadeIn phase)
    (hf : ∀ a, (f a).MadeIn phase) : (p >>= f).MadeIn phase := by
  show (p.andThen f).MadeIn phase
  induction p with
  | done a => exact hf a
  | fail e => trivial
  | list phase' next ih => exact ⟨hp.1, fun paths => ih paths (hp.2 paths)⟩
  | read phase' side path next ih => exact ⟨hp.1, fun bytes => ih bytes (hp.2 bytes)⟩
  | write phase' path bytes next ih => exact ⟨hp.1, ih hp.2⟩

theorem madeIn_pure (a : α) : (pure a : StoreProgram α).MadeIn phase := trivial

theorem madeIn_ofExcept (x : Except RelocationError α) : (ofExcept x).MadeIn phase := by
  cases x <;> trivial

theorem madeIn_readClass (side : StoreSide) (path : String) :
    (readClass phase side path).MadeIn phase := by
  refine MadeIn.bind ⟨rfl, fun _ => trivial⟩ fun bytes => ?_
  cases LoadedClass.parse bytes <;> trivial

theorem madeIn_renameClass (path : String) (m : NameMapper) (c : LoadedClass) :
    (renameClass phase path m c).MadeIn phase := by
  rw [renameClass]
  cases c.substitute m <;> trivial

end StoreProgram

open StoreProgram

/-! ## The phases of a run -/

theorem madeIn_surveyPaths (tag marker : String) (s : Survey) (paths : List String) :
    (surveyPaths tag marker s paths).MadeIn .discovery := by
  induction paths generalizing s with
  | nil => exact madeIn_pure s
  | cons path paths ih =>
    exact (madeIn_readClass .input path).bind fun c => (madeIn_ofExcept _).bind fun s => ih s

theorem madeIn_writeMarked (written : List String) (marked : List MarkedClass) :
    (writeMarked written marked).MadeIn .discovery := by
  induction marked generalizing written with
  | nil => exact madeIn_pure _
  | cons c marked ih =>
    exact (madeIn_renameClass c.path _ c.file).bind fun s =>
      MadeIn.bind (p := writeTo ..) ⟨rfl, trivial⟩ fun _ => ih _

theorem madeIn_discover (tag marker : String) : (discover tag marker).MadeIn .discovery :=
  MadeIn.bind (p := listInput .discovery) ⟨rfl, fun _ => trivial⟩ fun paths =>
    (madeIn_surveyPaths tag marker .empty paths).bind fun s =>
      (madeIn_ofExcept _).bind fun _ =>
        (madeIn_writeMarked [] s.marked.reverse).bind fun _ => madeIn_pure _

/-- An update is made in the phase of its report, and goes on with a report of that phase. -/
theorem madeIn_updateClass {α : Type} {report : PhaseReport} (m : NameMapper) (path : String)
    (c : LoadedClass) {next : PhaseReport → StoreProgram α}
    (h : ∀ report', report'.phase = report.phase → (next report').MadeIn report.phase) :
    (updateClass m report path c >>= next).MadeIn report.phase := by
  rw [updateClass, renameClass]
  cases c.substitute m with
  | error e => trivial
  | ok s =>
    show ((if s.changed = true then _ else _) >>= next).MadeIn report.phase
    cases s.changed with
    | false => exact h _ rfl
    | true => exact ⟨rfl, h _ rfl⟩

theorem madeIn_propagatePaths (table : RelocationTable) (report : PhaseReport)
    (paths : List String) : (propagatePaths table report paths).MadeIn report.phase := by
  induction paths generalizing report with
  | nil => exact madeIn_pure report
  | cons path paths ih =>
    refine (madeIn_readClass .input path).bind fun c => ?_
    cases table.contains c.declaredName with
    | true => exact ih report
    | false => exact madeIn_updateClass _ path c fun report' hphase => hphase ▸ ih report'

theorem madeIn_propagate (table : RelocationTable) : (propagate table).MadeIn .propagation :=
  MadeIn.bind (p := listInput .propagation) ⟨rfl, fun _ => trivial⟩ fun paths =>
    (madeIn_propagatePaths table (.start .propagation) paths).bind fun _ => madeIn_pure _

theorem madeIn_fixUpPaths (table : RelocationTable) (report : PhaseReport) (paths : List String) :
    (fixUpPaths table report paths).MadeIn report.phase := by
  induction paths generalizing report with
  | nil => exact madeIn_pure report
  | cons path paths ih =>
    refine (madeIn_readClass .output path).bind fun c => ?_
    exact madeIn_updateClass _ path c fun report' hphase => hphase ▸ ih report'

theorem madeIn_fixUp (table : RelocationTable) (paths : List String) :
    (fixUp table paths).MadeIn .fixup :=
  (madeIn_fixUpPaths table (.start .fixup) paths).bind fun _ => madeIn_pure _

/-- The calls of a run in each of its phases. A phase that is not reached makes none. -/
def phaseCalls (tag marker : String) (input output : MemoryStore) : Phase → List StoreCall
  | .discovery =>
    (ofExcept (validateParameters tag marker)).callsAfter input output fun _ output =>
      (discover tag marker).calls input output
  | .propagation =>
    (do ofExcept (validateParameters tag marker); discover tag marker).callsAfter input output
      fun found copied => (propagate found.table).calls input copied
  | .fixup =>
    (do
      ofExcept (validateParameters tag marker)
      let found ← discover tag marker
      let _ ← propagate found.table
      return found).callsAfter input output fun found propagatedTo =>
        (fixUp found.table found.report.written).calls input propagatedTo

/-- Every call is made in the phase whose call it is. -/
theorem phase_of_phaseCalls {tag marker : String} {input output : MemoryStore} {phase : Phase} :
    ∀ call ∈ phaseCalls tag marker input output phase, call.phase = phase := by
  intro call hcall
  cases phase with
  | discovery =>
    obtain ⟨-, output', hcall⟩ := mem_callsAfter hcall
    exact (madeIn_discover tag marker).calls output' call hcall
  | propagation =>
    obtain ⟨found, copied, hcall⟩ := mem_callsAfter hcall
    exact (madeIn_propagate found.table).calls copied call hcall
  | fixup =>
    obtain ⟨found, propagatedTo, hcall⟩ := mem_callsAfter hcall
    exact (madeIn_fixUp found.table found.report.written).calls propagatedTo call hcall

/-- **The calls of a run** are those of its phases, one after another. -/
theorem calls_relocate (tag marker : String) (input output : MemoryStore) :
    (relocate tag marker).calls input output =
      Phase.all.flatMap (phaseCalls tag marker input output) := by
  have hcheck : (ofExcept (validateParameters tag marker)).calls input output = [] := by
    cases validateParameters tag marker <;> rfl
  rw [relocate, calls_bind, hcheck, List.nil_append]
  simp only [Phase.all, List.flatMap_cons, List.flatMap_nil, List.append_nil, phaseCalls]
  simp only [calls_bind, callsAfter_bind, callsAfter_append, calls_pure, callsAfter_pure,
    callsAfter_nil, List.append_nil]

end JvmRelocation
