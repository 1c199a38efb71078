import JvmRelocation.Relocation.Run
import JvmRelocation.Proofs.Failure
import JvmRelocation.Proofs.Store.Memory

/-!
# Programs on stores in memory

On two stores in memory a program can only fail by itself, and it never changes the input store. So
what it does is told by its result and by the output store it leaves behind. A program that ends with
a result does so step by step: every read met content, and every write put content at its path.
-/

namespace JvmRelocation

namespace MemoryStore

/-- The class at a path, where there is one. -/
def class? (s : MemoryStore) (path : String) : Option LoadedClass :=
  (s.get? path).bind fun bytes => (LoadedClass.parse bytes).toOption

theorem class?_eq_some {s : MemoryStore} {path : String} {c : LoadedClass} :
    s.class? path = some c ↔
      ∃ bytes, s.get? path = some bytes ∧ LoadedClass.parse bytes = .ok c := by
  rw [class?, Option.bind_eq_some_iff]
  simp only [toOption_eq_some]

end MemoryStore

namespace StoreProgram

variable {α β : Type}

/-- The result of a program on two stores in memory, and the output store it leaves behind. -/
def on (p : StoreProgram α) (input output : MemoryStore) :
    Except RelocationError α × MemoryStore :=
  let r := p.run (m := StateM (MemoryStore × MemoryStore)) MemoryStore.access.onFirst
    MemoryStore.access.onSecond (input, output)
  (r.1, r.2.2)

/-- A program on two stores in memory ends with a result, and leaves an output store behind. -/
def Yields (p : StoreProgram α) (input output : MemoryStore) (result : α) (output' : MemoryStore) :
    Prop :=
  p.on input output = (.ok result, output')

variable {input output output' : MemoryStore} {result : α}

theorem on_done (a : α) : (done a).on input output = (.ok a, output) := rfl

theorem on_list (phase : Phase) (next : List String → StoreProgram α) :
    (list phase next).on input output = (next input.classPaths).on input output := by
  simp only [on, run, MemoryStore.access, ClassStore.onFirst, bind, StateT.bind]

theorem on_read_input (phase : Phase) (path : String) (next : Bytes → StoreProgram α) :
    (read phase .input path next).on input output =
      match input.read path with
      | .ok bytes => (next bytes).on input output
      | .error e => (.error (.storage phase path e), output) := by
  simp only [on, run, MemoryStore.access, ClassStore.onFirst, bind, StateT.bind]
  cases input.read path <;> rfl

theorem on_read_output (phase : Phase) (path : String) (next : Bytes → StoreProgram α) :
    (read phase .output path next).on input output =
      match output.read path with
      | .ok bytes => (next bytes).on input output
      | .error e => (.error (.storage phase path e), output) := by
  simp only [on, run, MemoryStore.access, ClassStore.onSecond, bind, StateT.bind]
  cases output.read path <;> rfl

/-- A program goes on where the one before it ended. -/
theorem on_andThen (p : StoreProgram α) (f : α → StoreProgram β) (output : MemoryStore) :
    (p.andThen f).on input output =
      match p.on input output with
      | (.ok a, output') => (f a).on input output'
      | (.error e, output') => (.error e, output') := by
  induction p generalizing output with
  | done a => rfl
  | fail e => rfl
  | list phase next ih =>
    rw [andThen, on_list, on_list]
    exact ih _ output
  | read phase side path next ih =>
    rw [andThen]
    cases side with
    | input =>
      rw [on_read_input, on_read_input]
      cases input.read path with
      | ok bytes => exact ih bytes output
      | error e => rfl
    | output =>
      rw [on_read_output, on_read_output]
      cases output.read path with
      | ok bytes => exact ih bytes output
      | error e => rfl
  | write phase path bytes next ih => exact ih _

/-! ## Programs that end with a result -/

/-- A program has one result, and leaves one output store behind. -/
theorem Yields.unique {p : StoreProgram α} {result' : α} {output'' : MemoryStore}
    (h : p.Yields input output result output') (h' : p.Yields input output result' output'') :
    result = result' ∧ output' = output'' := by
  obtain ⟨hresult, houtput⟩ := Prod.ext_iff.mp (h.symm.trans h')
  exact ⟨Except.ok.inj hresult, houtput⟩

/-- A program whose result passes a check ends with one. -/
theorem exists_yields_of_any {p : StoreProgram α} {check : α → Bool}
    (h : (p.on input output).1.toOption.any check = true) :
    ∃ result, p.Yields input output result (p.on input output).2 ∧ check result = true := by
  obtain ⟨result, hresult, hcheck⟩ := exists_ok_of_any h
  exact ⟨result, Prod.ext hresult rfl, hcheck⟩

theorem yields_pure {a : α} :
    (pure a : StoreProgram α).Yields input output result output' ↔ result = a ∧ output' = output := by
  show (Except.ok a, output) = (Except.ok result, output') ↔ _
  simp [eq_comm]

theorem yields_bind {p : StoreProgram α} {f : α → StoreProgram β} {b : β} :
    (p >>= f).Yields input output b output' ↔
      ∃ a mid, p.Yields input output a mid ∧ (f a).Yields input mid b output' := by
  show (p.andThen f).on input output = _ ↔ _
  rw [on_andThen]
  simp only [Yields]
  constructor
  · intro h
    split at h
    case h_1 a mid hp => exact ⟨a, mid, hp, h⟩
    case h_2 => cases h
  · rintro ⟨a, mid, hp, hf⟩
    rw [hp]
    exact hf

theorem yields_ofExcept {x : Except RelocationError α} :
    (ofExcept x).Yields input output result output' ↔ x = .ok result ∧ output' = output := by
  cases x with
  | ok a =>
    show (Except.ok a, output) = (Except.ok result, output') ↔ _
    simp [eq_comm]
  | error e =>
    show (Except.error e, output) = (Except.ok result, output') ↔ _
    simp

theorem yields_listInput {phase : Phase} {paths : List String} :
    (listInput phase).Yields input output paths output' ↔
      paths = input.classPaths ∧ output' = output := by
  rw [Yields, listInput, on_list, on_done]
  simp [eq_comm]

theorem yields_writeTo {phase : Phase} {path : String} {bytes : Bytes} {u : Unit} :
    (writeTo phase path bytes).Yields input output u output' ↔
      output' = output.insert path bytes := by
  show (Except.ok (), output.insert path bytes) = (Except.ok u, output') ↔ _
  simp [eq_comm]

/-- The store that a side stands for. -/
def sideStore (input output : MemoryStore) : StoreSide → MemoryStore
  | .input => input
  | .output => output

theorem yields_readFrom {phase : Phase} {side : StoreSide} {path : String} {bytes : Bytes} :
    (readFrom phase side path).Yields input output bytes output' ↔
      (sideStore input output side).get? path = some bytes ∧ output' = output := by
  have hread (s : MemoryStore) (e : RelocationError) :
      (match s.read path with
        | .ok bytes => (done bytes).on input output
        | .error cause => (.error (.storage phase path cause), output)) = (.ok bytes, output') ↔
      s.get? path = some bytes ∧ output' = output := by
    rw [MemoryStore.read]
    cases s.get? path with
    | none => simp
    | some content =>
      show (Except.ok content, output) = (Except.ok bytes, output') ↔ _
      simp [eq_comm]
  cases side with
  | input =>
    rw [Yields, readFrom, on_read_input]
    exact hread input (.invalidParameter .emptyTag)
  | output =>
    rw [Yields, readFrom, on_read_output]
    exact hread output (.invalidParameter .emptyTag)

/-- Reading a class succeeds exactly where there is one. -/
theorem yields_readClass {phase : Phase} {side : StoreSide} {path : String} {c : LoadedClass} :
    (readClass phase side path).Yields input output c output' ↔
      (sideStore input output side).class? path = some c ∧ output' = output := by
  rw [readClass, yields_bind, MemoryStore.class?_eq_some]
  simp only [yields_readFrom]
  constructor
  · rintro ⟨bytes, mid, ⟨hget, rfl⟩, h⟩
    cases hparse : LoadedClass.parse bytes with
    | error e =>
      rw [hparse] at h
      cases h
    | ok c' =>
      rw [hparse] at h
      obtain ⟨rfl, rfl⟩ := yields_pure.mp h
      exact ⟨⟨bytes, hget, hparse⟩, rfl⟩
  · rintro ⟨⟨bytes, hget, hparse⟩, rfl⟩
    refine ⟨bytes, output', ⟨hget, rfl⟩, ?_⟩
    rw [hparse]
    exact yields_pure.mpr ⟨rfl, rfl⟩

theorem yields_renameClass {phase : Phase} {path : String} {m : NameMapper} {c : LoadedClass}
    {s : Substitution} : (renameClass phase path m c).Yields input output s output' ↔
      c.substitute m = .ok s ∧ output' = output := by
  rw [renameClass]
  cases hsub : c.substitute m with
  | error e =>
    simp only [reduceCtorEq, false_and, iff_false]
    intro h
    cases h
  | ok s' =>
    refine yields_pure.trans ?_
    simp [eq_comm]

end StoreProgram

end JvmRelocation
