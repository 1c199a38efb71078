import Std.Data.TreeMap
import JvmRelocation.Store.Basic

/-!
# Stores in memory

A store that is a map from paths to contents, and one that fails chosen calls. A failing call has no
effect, so what a run leaves behind when a call fails can be studied.
-/

namespace JvmRelocation

/-- A store in memory. -/
structure MemoryStore where
  files : Std.TreeMap String Bytes

namespace MemoryStore

/-- The store without files. -/
def empty : MemoryStore := ⟨{}⟩

/-- The store with the given files. -/
def ofList (files : List (String × Bytes)) : MemoryStore :=
  ⟨Std.TreeMap.ofList files⟩

/-- The content at a path. -/
def get? (s : MemoryStore) (path : String) : Option Bytes :=
  s.files.get? path

/-- The store with content at a path, in place of what is there. -/
def insert (s : MemoryStore) (path : String) (bytes : Bytes) : MemoryStore :=
  ⟨s.files.insert path bytes⟩

/-- Every path, in order, whether of a class file or not. -/
def paths (s : MemoryStore) : List String :=
  s.files.keys

/-- The number of files. -/
def size (s : MemoryStore) : Nat :=
  s.files.size

/-- The files with their paths, in order. -/
def toList (s : MemoryStore) : List (String × Bytes) :=
  s.files.toList

/-- The paths of the class files, in order. -/
def classPaths (s : MemoryStore) : List String :=
  s.paths.filter isClassPath

/-- The content at a path, or why there is none. -/
def read (s : MemoryStore) (path : String) : Except IoError Bytes :=
  match s.get? path with
  | some bytes => .ok bytes
  | none => .error ⟨.notFound, path ++ ": not in store"⟩

/-- The operations of a store in memory. -/
def access : ClassStore (StateM MemoryStore) where
  list := fun s => (.ok s.classPaths, s)
  read path := fun s => (s.read path, s)
  write path bytes := fun s => (.ok (), s.insert path bytes)

end MemoryStore

/-! ## Stores that fail -/

/-- The kinds of store calls. -/
inductive CallKind where
  | list
  | read
  | write
deriving DecidableEq, Repr

/-- A call that fails: the one with the given number among those of its kind, counted from one. -/
structure Fault where
  kind : CallKind
  number : Nat
  message : String
deriving DecidableEq, Repr

/-- A store in memory some of whose calls fail. -/
structure FaultyStore where
  store : MemoryStore
  faults : List Fault
  /-- How many calls of each kind have been made. -/
  made : CallKind → Nat

namespace FaultyStore

/-- A store on which no call has been made yet. -/
def new (store : MemoryStore) (faults : List Fault) : FaultyStore :=
  ⟨store, faults, fun _ => 0⟩

/-- The store with one more call of a kind counted. -/
def count (s : FaultyStore) (kind : CallKind) : FaultyStore :=
  { s with made := fun k => if k = kind then s.made k + 1 else s.made k }

/-- Why the latest call of a kind fails, if it does. -/
def failure? (s : FaultyStore) (kind : CallKind) : Option IoError :=
  (s.faults.find? fun f => f.kind = kind && f.number = s.made kind).map fun f => ⟨.other, f.message⟩

/-- Makes a call of a kind, which fails without effect or does what the store in memory does. -/
def call {α : Type} (kind : CallKind) (action : StateM MemoryStore (Except IoError α)) :
    StateM FaultyStore (Except IoError α) := fun s =>
  let s := s.count kind
  match s.failure? kind with
  | some e => (.error e, s)
  | none =>
    let (result, store) := action s.store
    (result, { s with store })

/-- The operations of a store that fails. -/
def access : ClassStore (StateM FaultyStore) where
  list := call .list MemoryStore.access.list
  read path := call .read (MemoryStore.access.read path)
  write path bytes := call .write (MemoryStore.access.write path bytes)

end FaultyStore

end JvmRelocation
