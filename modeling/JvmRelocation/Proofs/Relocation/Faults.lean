import JvmRelocation.Proofs.Relocation.StoreCalls

/-!
# Runs on stores that fail

A call that fails has no effect and ends the run. So a run on failing stores makes the calls that it
would make without faults, up to the first one that is hit, and leaves the output store with the
files that the calls before that one write. It says in which phase and at which path it failed.
-/

namespace JvmRelocation

/-- The faults of the two stores. -/
structure Faults where
  input : List Fault
  output : List Fault

namespace Faults

/-- The faults of one of the stores. -/
def ofSide (faults : Faults) : StoreSide → List Fault
  | .input => faults.input
  | .output => faults.output

/-- Why a request fails that comes after others, if it does. -/
def failure? (faults : Faults) (earlier : List StoreRequest) (r : StoreRequest) : Option IoError :=
  ((faults.ofSide r.side).find? fun f => f.kind = r.kind && f.number = r.number earlier).map
    fun f => ⟨.other, f.message⟩

/-- None of the calls fails when they come after the given requests. -/
def Spare (faults : Faults) (earlier : List StoreRequest) : List StoreCall → Prop
  | [] => True
  | call :: rest =>
    faults.failure? earlier call.request = none ∧ faults.Spare (earlier ++ [call.request]) rest

/-- Either no call fails, or there is a first one that does. -/
theorem spare_or_fails (faults : Faults) (earlier : List StoreRequest) (calls : List StoreCall) :
    faults.Spare earlier calls ∨ ∃ before call after cause, calls = before ++ call :: after ∧
      faults.Spare earlier before ∧
      faults.failure? (earlier ++ requestsOf before) call.request = some cause := by
  induction calls generalizing earlier with
  | nil => exact .inl trivial
  | cons call calls ih =>
    cases hfailure : faults.failure? earlier call.request with
    | some cause =>
      exact .inr ⟨[], call, calls, cause, rfl, trivial, by rw [requestsOf, List.map_nil,
        List.append_nil, hfailure]⟩
    | none =>
      rcases ih (earlier ++ [call.request]) with hspare |
        ⟨before, hit, after, cause, rfl, hspare, hfails⟩
      · exact .inl ⟨hfailure, hspare⟩
      · refine .inr ⟨call :: before, hit, after, cause, rfl, ⟨hfailure, hspare⟩, ?_⟩
        rw [requestsOf, List.map_cons, List.append_cons]
        exact hfails

end Faults

/-- Two stores in memory that fail, with what has been asked of them. -/
abbrev FailingStores := (FaultyStore × FaultyStore) × List StoreRequest

/-- The stores after some requests. -/
def Faults.storesAfter (faults : Faults) (input output : MemoryStore) (log : List StoreRequest) :
    FailingStores :=
  ((⟨input, faults.ofSide .input, requestCount .input log⟩,
    ⟨output, faults.ofSide .output, requestCount .output log⟩), log)

/-- How a run on failing stores ends, what it leaves behind, and what it has asked of them. -/
structure FailingRun (α : Type) where
  result : Except RelocationError α
  input : MemoryStore
  output : MemoryStore
  requests : List StoreRequest

/-- The operations of one of two stores that fail. -/
def faultyStore : StoreSide → ClassStore (StateM (FaultyStore × FaultyStore))
  | .input => FaultyStore.access.onFirst
  | .output => FaultyStore.access.onSecond

/-- The operations of one of two stores that fail and note what is asked of them. -/
def failingStore (side : StoreSide) : ClassStore (StateM FailingStores) :=
  (faultyStore side).recorded side

namespace StoreProgram

variable {α : Type}

/-- Carries out a program on two stores that fail. -/
def runFailing (p : StoreProgram α) : FailingStores → Except RelocationError α × FailingStores :=
  p.run (m := StateM FailingStores) (failingStore .input) (failingStore .output)

/-- The run of a program with some faults. -/
def withFaults (p : StoreProgram α) (faults : Faults) (input output : MemoryStore) : FailingRun α :=
  let (result, (input', output'), requests) :=
    p.runFailing ((.new input faults.input, .new output faults.output), [])
  ⟨result, input'.store, output'.store, requests⟩

/-- Noting what is asked of the stores changes nothing else. -/
theorem run_of_runFailing (p : StoreProgram α) (stores : FaultyStore × FaultyStore)
    (log : List StoreRequest) :
    p.run (m := StateM (FaultyStore × FaultyStore)) (faultyStore .input) (faultyStore .output) stores =
      ((p.runFailing (stores, log)).1, (p.runFailing (stores, log)).2.1) := by
  induction p generalizing stores log with
  | done a => rfl
  | fail e => rfl
  | list phase next ih =>
    have hnoted : (failingStore .input).list (stores, log) =
      (((faultyStore .input).list stores).1, ((faultyStore .input).list stores).2,
        log ++ [.list .input]) := rfl
    simp only [runFailing, run, bind, StateT.bind, hnoted]
    obtain ⟨_ | paths, stores'⟩ := (faultyStore .input).list stores
    · rfl
    · exact ih paths stores' _
  | read phase side path next ih =>
    have hnoted : (failingStore side).read path (stores, log) =
      (((faultyStore side).read path stores).1, ((faultyStore side).read path stores).2,
        log ++ [.read side path]) := rfl
    generalize hread : (faultyStore side).read path stores = answer at hnoted
    cases side with
    | input | output =>
      simp only [runFailing, run, bind, StateT.bind, hnoted, hread]
      obtain ⟨_ | bytes, stores'⟩ := answer
      · rfl
      · exact ih bytes stores' _
  | write phase path bytes next ih =>
    have hnoted : (failingStore .output).write path bytes (stores, log) =
      (((faultyStore .output).write path bytes stores).1,
        ((faultyStore .output).write path bytes stores).2, log ++ [.write .output path bytes]) := rfl
    simp only [runFailing, run, bind, StateT.bind, hnoted]
    obtain ⟨_ | _, stores'⟩ := (faultyStore .output).write path bytes stores
    · rfl
    · exact ih stores' _

end StoreProgram

/-! ## One call -/

/-- One more request of a kind is counted. -/
theorem requestCount_append (side : StoreSide) (log : List StoreRequest) (r : StoreRequest)
    (kind : CallKind) : requestCount side (log ++ [r]) kind =
      if r.side = side ∧ r.kind = kind then requestCount side log kind + 1
      else requestCount side log kind := by
  rw [requestCount, requestCount, List.countP_append, List.countP_singleton]
  simp only [Bool.and_eq_true, decide_eq_true_eq]
  split <;> simp

theorem FaultyStore.count_eq (store : MemoryStore) (list : List Fault) (log : List StoreRequest)
    (r : StoreRequest) :
    (FaultyStore.mk store list (requestCount r.side log)).count r.kind =
      ⟨store, list, requestCount r.side (log ++ [r])⟩ := by
  rw [count]
  congr 1
  funext kind
  rw [requestCount_append]
  by_cases h : kind = r.kind
  · rw [if_pos h, if_pos ⟨rfl, h.symm⟩, h]
  · rw [if_neg h, if_neg fun hsame => h hsame.2.symm]

/-- The other store does not count a request. -/
theorem requestCount_other {side : StoreSide} (log : List StoreRequest) {r : StoreRequest}
    (h : r.side ≠ side) : requestCount side (log ++ [r]) = requestCount side log := by
  funext kind
  rw [requestCount_append, if_neg fun hsame => h hsame.1]

/-- A call fails as the faults have it, and otherwise does what the store in memory does. -/
theorem FaultyStore.call_eq {α : Type} (faults : Faults) (store : MemoryStore)
    (log : List StoreRequest) (r : StoreRequest) (action : StateM MemoryStore (Except IoError α)) :
    call r.kind action ⟨store, faults.ofSide r.side, requestCount r.side log⟩ =
      match faults.failure? log r with
      | some cause => (.error cause, ⟨store, faults.ofSide r.side, requestCount r.side (log ++ [r])⟩)
      | none => ((action store).1,
          ⟨(action store).2, faults.ofSide r.side, requestCount r.side (log ++ [r])⟩) := by
  have hfailure : failure? ⟨store, faults.ofSide r.side, requestCount r.side (log ++ [r])⟩ r.kind =
      faults.failure? log r := by
    have hnumber : requestCount r.side (log ++ [r]) r.kind = r.number log := by
      rw [requestCount_append, if_pos ⟨rfl, rfl⟩, StoreRequest.number]
    rw [failure?, Faults.failure?]
    simp only [hnumber]
  rw [call]
  simp only [count_eq, hfailure]
  cases faults.failure? log r <;> rfl

/-- A request to one of the stores, by what it does to a store in memory. -/
def FailingStores.ask {α : Type} (r : StoreRequest)
    (action : StateM MemoryStore (Except IoError α)) : StateM FailingStores (Except IoError α) :=
  fun ((input, output), log) =>
    match r.side with
    | .input =>
      let (result, input) := FaultyStore.call r.kind action input
      (result, (input, output), log ++ [r])
    | .output =>
      let (result, output) := FaultyStore.call r.kind action output
      (result, (input, output), log ++ [r])

/-- A request that fails changes nothing. Otherwise the store that is asked does as it does in
memory. -/
theorem ask_storesAfter {α : Type} (faults : Faults) (input output : MemoryStore)
    (log : List StoreRequest) (r : StoreRequest) (action : StateM MemoryStore (Except IoError α)) :
    FailingStores.ask r action (faults.storesAfter input output log) =
      match faults.failure? log r with
      | some cause => (.error cause, faults.storesAfter input output (log ++ [r]))
      | none =>
        match r.side with
        | .input => ((action input).1, faults.storesAfter (action input).2 output (log ++ [r]))
        | .output => ((action output).1, faults.storesAfter input (action output).2 (log ++ [r])) := by
  cases hside : r.side with
  | input =>
    have hcall := FaultyStore.call_eq faults input log r action
    have hother : requestCount .output (log ++ [r]) = requestCount .output log :=
      requestCount_other log (by simp [hside])
    rw [hside] at hcall
    simp only [FailingStores.ask, Faults.storesAfter, hside, hcall, hother]
    cases faults.failure? log r <;> rfl
  | output =>
    have hcall := FaultyStore.call_eq faults output log r action
    have hother : requestCount .input (log ++ [r]) = requestCount .input log :=
      requestCount_other log (by simp [hside])
    rw [hside] at hcall
    simp only [FailingStores.ask, Faults.storesAfter, hside, hcall, hother]
    cases faults.failure? log r <;> rfl

/-- A reading changes neither store. -/
theorem ask_read (faults : Faults) (input output : MemoryStore) (log : List StoreRequest)
    (side : StoreSide) (path : String) :
    FailingStores.ask (.read side path) (MemoryStore.access.read path)
        (faults.storesAfter input output log) =
      match faults.failure? log (.read side path) with
      | some cause => (.error cause, faults.storesAfter input output (log ++ [.read side path]))
      | none => ((StoreProgram.sideStore input output side).read path,
          faults.storesAfter input output (log ++ [.read side path])) := by
  rw [ask_storesAfter]
  cases side <;> cases faults.failure? log _ <;> rfl

theorem failingStore_list :
    (failingStore .input).list = FailingStores.ask (.list .input) MemoryStore.access.list := rfl

theorem failingStore_read (side : StoreSide) (path : String) : (failingStore side).read path =
    FailingStores.ask (.read side path) (MemoryStore.access.read path) := by
  cases side <;> rfl

theorem failingStore_write (path : String) (bytes : Bytes) : (failingStore .output).write path bytes =
    FailingStores.ask (.write .output path bytes) (MemoryStore.access.write path bytes) := rfl

/-! ## Programs on failing stores -/

namespace StoreProgram

variable {α : Type} (faults : Faults) (input output : MemoryStore) (log : List StoreRequest)

theorem runFailing_list (phase : Phase) (next : List String → StoreProgram α) :
    (list phase next).runFailing (faults.storesAfter input output log) =
      match faults.failure? log (.list .input) with
      | some cause => (.error (.storage phase listingPath cause),
          faults.storesAfter input output (log ++ [.list .input]))
      | none => (next input.classPaths).runFailing
          (faults.storesAfter input output (log ++ [.list .input])) := by
  rw [runFailing, run]
  simp only [bind, StateT.bind, failingStore_list, ask_storesAfter]
  cases faults.failure? log (.list .input) <;> rfl

theorem runFailing_read (phase : Phase) (side : StoreSide) (path : String)
    (next : Bytes → StoreProgram α) :
    (read phase side path next).runFailing (faults.storesAfter input output log) =
      match faults.failure? log (.read side path) with
      | some cause => (.error (.storage phase path cause),
          faults.storesAfter input output (log ++ [.read side path]))
      | none =>
        match (sideStore input output side).read path with
        | .ok bytes => (next bytes).runFailing
            (faults.storesAfter input output (log ++ [.read side path]))
        | .error e => (.error (.storage phase path e),
            faults.storesAfter input output (log ++ [.read side path])) := by
  have hask := ask_read faults input output log side path
  generalize (sideStore input output side).read path = answer at hask ⊢
  cases side with
  | input | output =>
    simp only [runFailing, run, bind, StateT.bind, failingStore_read, hask]
    cases faults.failure? log _ with
    | some cause => rfl
    | none => cases answer <;> rfl

theorem runFailing_write (phase : Phase) (path : String) (bytes : Bytes) (next : StoreProgram α) :
    (write phase path bytes next).runFailing (faults.storesAfter input output log) =
      match faults.failure? log (.write .output path bytes) with
      | some cause => (.error (.storage phase path cause),
          faults.storesAfter input output (log ++ [.write .output path bytes]))
      | none => next.runFailing (faults.storesAfter input (output.insert path bytes)
          (log ++ [.write .output path bytes])) := by
  rw [runFailing, run]
  simp only [bind, StateT.bind, failingStore_write, ask_storesAfter]
  cases faults.failure? log (.write .output path bytes) <;> rfl

/-- A program makes a call on two stores, and goes on as another program with the output store that
the call leaves. -/
structure Makes (input : MemoryStore) (p : StoreProgram α) (output : MemoryStore) (call : StoreCall)
    (p' : StoreProgram α) (output' : MemoryStore) : Prop where
  calls : p.calls input output = call :: p'.calls input output'
  on : p.on input output = p'.on input output'
  written : output' = output.insertAll (filesOf [call])
  /-- If the call fails, the program ends with an error about it. -/
  failing : ∀ (faults : Faults) (log : List StoreRequest),
    p.runFailing (faults.storesAfter input output log) =
      match faults.failure? log call.request with
      | some cause => (.error (.storage call.phase call.request.path cause),
          faults.storesAfter input output (log ++ [call.request]))
      | none => p'.runFailing (faults.storesAfter input output' (log ++ [call.request]))

/-- A program makes a call, unless it makes none at all. -/
theorem ends_or_makes (input : MemoryStore) (p : StoreProgram α) (output : MemoryStore) :
    (p.calls input output = [] ∧ (p.on input output).2 = output ∧
      ∀ stores, p.runFailing stores = ((p.on input output).1, stores)) ∨
    ∃ call p' output', Makes input p output call p' output' := by
  cases p with
  | done a => exact .inl ⟨rfl, rfl, fun _ => rfl⟩
  | fail e => exact .inl ⟨rfl, rfl, fun _ => rfl⟩
  | list phase next =>
    exact .inr ⟨⟨phase, .list .input⟩, next input.classPaths, output, rfl, on_list phase next, rfl,
      fun faults log => runFailing_list faults input output log phase next⟩
  | read phase side path next =>
    have hfailing (faults : Faults) (log : List StoreRequest) :=
      runFailing_read faults input output log phase side path next
    have hon : (read phase side path next).on input output = _ := on_read phase side path next output
    cases hread : (sideStore input output side).read path with
    | ok bytes =>
      rw [hread] at hon
      simp only [hread] at hfailing
      exact .inr ⟨⟨phase, .read side path⟩, next bytes, output, by rw [calls, hread], hon, rfl,
        hfailing⟩
    | error e =>
      -- the program ends with an error of its own
      rw [hread] at hon
      simp only [hread] at hfailing
      exact .inr ⟨⟨phase, .read side path⟩, fail (.storage phase path e), output,
        by rw [calls, calls, hread], hon, rfl, hfailing⟩
  | write phase path bytes next =>
    exact .inr ⟨⟨phase, .write .output path bytes⟩, next, output.insert path bytes, rfl, rfl, rfl,
      fun faults log => runFailing_write faults input output log phase path bytes next⟩

/-- A program makes the first of its calls. -/
theorem makes_of_calls {input : MemoryStore} {p : StoreProgram α} {output : MemoryStore}
    {call : StoreCall} {calls : List StoreCall} (h : p.calls input output = call :: calls) :
    ∃ p' output', Makes input p output call p' output' ∧ p'.calls input output' = calls := by
  rcases ends_or_makes input p output with ⟨hnone, -⟩ | ⟨call', p', output', hmakes⟩
  · rw [hnone] at h
    cases h
  · obtain ⟨rfl, hrest⟩ := List.cons.inj (hmakes.calls.symm.trans h)
    exact ⟨p', output', hmakes, hrest⟩

theorem append_requestsOf (log : List StoreRequest) (call : StoreCall) (calls : List StoreCall) :
    log ++ requestsOf (call :: calls) = log ++ [call.request] ++ requestsOf calls := by
  rw [requestsOf, List.map_cons, List.append_cons]
  rfl

/-- A program none of whose calls fails does what it does on sound stores. -/
theorem runFailing_of_spare {faults : Faults} {input : MemoryStore} {p : StoreProgram α}
    {output : MemoryStore} {log : List StoreRequest} {calls : List StoreCall}
    (hcalls : p.calls input output = calls) (h : faults.Spare log calls) :
    p.runFailing (faults.storesAfter input output log) = ((p.on input output).1,
      faults.storesAfter input (p.on input output).2 (log ++ requestsOf calls)) := by
  induction calls generalizing p output log with
  | nil =>
    rcases ends_or_makes input p output with ⟨-, houtput, hends⟩ | ⟨call, p', output', hmakes⟩
    · rw [hends, houtput, requestsOf, List.map_nil, List.append_nil]
    · rw [hmakes.calls] at hcalls
      cases hcalls
  | cons call calls ih =>
    obtain ⟨p', output', hmakes, hrest⟩ := makes_of_calls hcalls
    rw [hmakes.failing, h.1, hmakes.on, append_requestsOf]
    exact ih hrest h.2

/-- A program with a call that fails ends at the first such call. -/
theorem runFailing_of_fails {faults : Faults} {input : MemoryStore} {p : StoreProgram α}
    {output : MemoryStore} {log : List StoreRequest} {before after : List StoreCall}
    {call : StoreCall} {cause : IoError} (hcalls : p.calls input output = before ++ call :: after)
    (hspare : faults.Spare log before)
    (hfails : faults.failure? (log ++ requestsOf before) call.request = some cause) :
    p.runFailing (faults.storesAfter input output log) =
      (.error (.storage call.phase call.request.path cause),
        faults.storesAfter input (output.insertAll (filesOf before))
          (log ++ requestsOf (before ++ [call]))) := by
  induction before generalizing p output log with
  | nil =>
    obtain ⟨p', output', hmakes, -⟩ := makes_of_calls hcalls
    rw [requestsOf, List.map_nil, List.append_nil] at hfails
    rw [hmakes.failing, hfails]
    rfl
  | cons first before ih =>
    obtain ⟨p', output', hmakes, hrest⟩ := makes_of_calls hcalls
    have hfiles : output.insertAll (filesOf (first :: before)) =
        output'.insertAll (filesOf before) := by
      rw [hmakes.written, ← MemoryStore.insertAll_append, filesOf, filesOf, filesOf,
        ← List.filterMap_append]
      rfl
    rw [append_requestsOf] at hfails
    rw [hmakes.failing, hspare.1, List.cons_append, append_requestsOf, hfiles]
    exact ih hrest hspare.2 hfails

end StoreProgram

theorem Faults.spare_append {faults : Faults} {earlier : List StoreRequest}
    {calls more : List StoreCall} : faults.Spare earlier (calls ++ more) ↔
      faults.Spare earlier calls ∧ faults.Spare (earlier ++ requestsOf calls) more := by
  induction calls generalizing earlier with
  | nil => simp [Spare, requestsOf]
  | cons call calls ih =>
    rw [List.cons_append, Spare, Spare, ih, StoreProgram.append_requestsOf, and_assoc]

/-- Calls that are spared up to some point are spared before it. -/
theorem Faults.Spare.of_append {faults : Faults} {earlier : List StoreRequest}
    {calls before : List StoreCall} (h : faults.Spare earlier calls) (hbefore : before <+: calls) :
    faults.Spare earlier before := by
  obtain ⟨after, rfl⟩ := hbefore
  exact (spare_append.mp h).1

/-- A call that fails is not among those that are spared. -/
theorem Faults.Spare.not_fails {faults : Faults} {calls before : List StoreCall} {call : StoreCall}
    {cause : IoError} (h : faults.Spare [] calls) (hbefore : before ++ [call] <+: calls)
    (hfails : faults.failure? (requestsOf before) call.request = some cause) : False := by
  have hspared := (spare_append.mp (h.of_append hbefore)).2.1
  rw [List.nil_append, hfails] at hspared
  cases hspared

/-! ## How a run with faults ends -/

/-- A run ends as it does on sound stores. -/
structure FailingRun.EndsAsSound {α : Type} (run : FailingRun α) (p : StoreProgram α)
    (input output : MemoryStore) : Prop where
  result : run.result = (p.on input output).1
  requests : run.requests = requestsOf (p.calls input output)
  output : run.output = (p.on input output).2

/-- A run ends at the first of its calls that fails. -/
structure FailingRun.EndsAt {α : Type} (run : FailingRun α) (faults : Faults)
    (output : MemoryStore) (calls before : List StoreCall) (call : StoreCall) (cause : IoError) :
    Prop where
  made : before ++ [call] <+: calls
  spared : faults.Spare [] before
  fails : faults.failure? (requestsOf before) call.request = some cause
  result : run.result = .error (.storage call.phase call.request.path cause)
  /-- No call comes after the one that fails. -/
  requests : run.requests = requestsOf (before ++ [call])
  output : run.output = output.insertAll (filesOf before)
  written : filesOf before <+: filesOf calls
  /-- If it is the n-th writing that fails, one less has been done. -/
  count : call.request.kind = .write →
    (filesOf before).length = call.request.number (requestsOf before) - 1

/-- Every program ends in one of these ways, and never changes the input store. -/
theorem StoreProgram.withFaults_cases {α : Type} (p : StoreProgram α) (faults : Faults)
    (input output : MemoryStore) : (p.withFaults faults input output).input = input ∧
      (faults.Spare [] (p.calls input output) ∧
          (p.withFaults faults input output).EndsAsSound p input output ∨
        ∃ before call cause, (p.withFaults faults input output).EndsAt faults output
          (p.calls input output) before call cause) := by
  have hstart : p.withFaults faults input output =
      ⟨(p.runFailing (faults.storesAfter input output [])).1,
        (p.runFailing (faults.storesAfter input output [])).2.1.1.store,
        (p.runFailing (faults.storesAfter input output [])).2.1.2.store,
        (p.runFailing (faults.storesAfter input output [])).2.2⟩ := rfl
  rcases faults.spare_or_fails [] (p.calls input output) with hspare |
    ⟨before, call, after, cause, hcalls, hspare, hfails⟩
  · rw [hstart, StoreProgram.runFailing_of_spare rfl hspare]
    exact ⟨rfl, .inl ⟨hspare, rfl, rfl, rfl⟩⟩
  · rw [hstart, StoreProgram.runFailing_of_fails hcalls hspare hfails]
    have hmade : before ++ [call] <+: p.calls input output :=
      ⟨after, by rw [hcalls, List.append_assoc]; rfl⟩
    refine ⟨rfl, .inr ⟨before, call, cause, hmade, hspare, hfails, rfl, rfl, rfl, ?_, ?_⟩⟩
    · exact ((List.prefix_append before [call]).trans hmade).filterMap _
    · intro hwrite
      have hside : ∀ call' ∈ before ++ [call],
          call'.request.kind = .write → call'.request.side = .output :=
        fun call' hcall' => p.side_of_write output call' (hmade.subset hcall')
      rw [StoreRequest.number, hwrite, hside call (by simp) hwrite, Nat.add_sub_cancel]
      exact length_filesOf fun call' hcall' => hside call' (List.mem_append_left _ hcall')

/-- **A failed run leaves a prefix of its writes.** Without faults a run makes certain calls, phase by
phase, and leaves the output store with the files that they write. With faults it ends in the same
way if none of these calls is hit. Otherwise it makes the calls up to the first one that is hit, and
no other: the output store has the files of the calls before that one, and the error names the
phase that the failing call is made in and the path that is given to it. The requests are noted by
stores that otherwise do as those that fail. -/
theorem relocate_with_faults (tag marker : String) (faults : Faults) (input output : MemoryStore) :
    let calls := (relocate tag marker).calls input output
    let run := (relocate tag marker).withFaults faults input output
    let ended := (relocate tag marker).run (m := StateM (FaultyStore × FaultyStore))
      (faultyStore .input) (faultyStore .output)
      (.new input faults.input, .new output faults.output)
    (ended.1 = run.result ∧ ended.2.2.store = run.output) ∧
    (calls = Phase.all.flatMap (phaseCalls tag marker input output) ∧
      ∀ phase, ∀ call ∈ phaseCalls tag marker input output phase, call.phase = phase) ∧
    ((relocate tag marker).on input output).2 = output.insertAll (filesOf calls) ∧
    run.input = input ∧
    (faults.Spare [] calls ∧ run.EndsAsSound (relocate tag marker) input output ∨
      ∃ before call cause, run.EndsAt faults output calls before call cause) :=
  have hended := (relocate tag marker).run_of_runFailing
    (.new input faults.input, .new output faults.output) []
  ⟨⟨congrArg Prod.fst hended, congrArg (·.2.2.store) hended⟩,
    ⟨calls_relocate tag marker input output, fun _ => phase_of_phaseCalls⟩,
    (relocate tag marker).on_output output,
    (relocate tag marker).withFaults_cases faults input output⟩

end JvmRelocation
