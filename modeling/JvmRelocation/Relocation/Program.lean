import JvmRelocation.Relocation.Error

/-!
# Programs over two stores

A relocation reads an input store and works on an output store. What it does is a tree of store
calls: each node is a call, with what to do about its answer below it. The tree says nothing about
what the stores are, and `StoreProgram.run` carries it out on any two. A call that fails ends the
run, so no call comes after it.
-/

namespace JvmRelocation

/-- Which store is read. -/
inductive StoreSide where
  | input
  | output
deriving DecidableEq, Repr

/-- A computation that makes calls to an input and an output store. -/
inductive StoreProgram (α : Type) where
  /-- Ends with a result. -/
  | done (result : α)
  /-- Ends with an error. -/
  | fail (error : RelocationError)
  /-- Lists the input store. -/
  | list (phase : Phase) (next : List String → StoreProgram α)
  /-- Reads a path of a store. -/
  | read (phase : Phase) (side : StoreSide) (path : String) (next : Bytes → StoreProgram α)
  /-- Writes a path of the output store. -/
  | write (phase : Phase) (path : String) (bytes : Bytes) (next : StoreProgram α)

namespace StoreProgram

/-- Goes on with a second program once the first one has ended with a result. -/
def andThen {α β : Type} (p : StoreProgram α) (f : α → StoreProgram β) : StoreProgram β :=
  match p with
  | done result => f result
  | fail error => fail error
  | list phase next => list phase fun paths => (next paths).andThen f
  | read phase side path next => read phase side path fun bytes => (next bytes).andThen f
  | write phase path bytes next => write phase path bytes (next.andThen f)

instance : Monad StoreProgram where
  pure := done
  bind := andThen

/-- A result, or an error that ends the program. -/
def ofExcept {α : Type} : Except RelocationError α → StoreProgram α
  | .ok result => done result
  | .error error => fail error

/-- The paths of the class files in the input store. -/
def listInput (phase : Phase) : StoreProgram (List String) :=
  list phase done

/-- The content at a path of a store. -/
def readFrom (phase : Phase) (side : StoreSide) (path : String) : StoreProgram Bytes :=
  read phase side path done

/-- Puts content at a path of the output store. -/
def writeTo (phase : Phase) (path : String) (bytes : Bytes) : StoreProgram Unit :=
  write phase path bytes (done ())

/-- What stands for the path of a listing in an error. -/
def listingPath : String := "."

/-- Carries out a program on two stores. -/
def run {m : Type → Type} [Monad m] {α : Type} (input output : ClassStore m) :
    StoreProgram α → m (Except RelocationError α)
  | done result => pure (.ok result)
  | fail error => pure (.error error)
  | list phase next => do
    match ← input.list with
    | .ok paths => run input output (next paths)
    | .error e => return .error (.storage phase listingPath e)
  | read phase side path next => do
    let store := match side with
      | .input => input
      | .output => output
    match ← store.read path with
    | .ok bytes => run input output (next bytes)
    | .error e => return .error (.storage phase path e)
  | write phase path bytes next => do
    match ← output.write path bytes with
    | .ok () => run input output next
    | .error e => return .error (.storage phase path e)

end StoreProgram

end JvmRelocation
