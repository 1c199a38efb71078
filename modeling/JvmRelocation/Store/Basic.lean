import JvmRelocation.Bytes.BigEndian

/-!
# Class stores

A class store keeps byte contents under relative paths whose segments slashes separate. Listing one
gives the paths of its class files, in order. Every operation can fail with an input/output error.
-/

namespace JvmRelocation

/-- The kinds of input/output errors. -/
inductive IoErrorKind where
  | notFound
  | alreadyExists
  | notADirectory
  | isADirectory
  | invalidFilename
  | invalidInput
  | invalidData
  | permissionDenied
  | other
deriving DecidableEq, Repr

/-- An input/output error. -/
structure IoError where
  kind : IoErrorKind
  message : String
deriving DecidableEq, Repr

/-- The operations of a class store that works in a monad. -/
structure ClassStore (m : Type → Type) where
  /-- The paths of all class files, in order. -/
  list : m (Except IoError (List String))
  /-- The content at a path. -/
  read : String → m (Except IoError Bytes)
  /-- Puts content at a path, in place of what is there. -/
  write : String → Bytes → m (Except IoError Unit)

namespace ClassStore

/-- The store of the first component of a pair of states. -/
def onFirst {σ τ : Type} (s : ClassStore (StateM σ)) : ClassStore (StateM (σ × τ)) where
  list := fun (a, b) => let (r, a) := s.list a; (r, (a, b))
  read path := fun (a, b) => let (r, a) := s.read path a; (r, (a, b))
  write path bytes := fun (a, b) => let (r, a) := s.write path bytes a; (r, (a, b))

/-- The store of the second component of a pair of states. -/
def onSecond {σ τ : Type} (s : ClassStore (StateM τ)) : ClassStore (StateM (σ × τ)) where
  list := fun (a, b) => let (r, b) := s.list b; (r, (a, b))
  read path := fun (a, b) => let (r, b) := s.read path b; (r, (a, b))
  write path bytes := fun (a, b) => let (r, b) := s.write path bytes b; (r, (a, b))

end ClassStore

/-- What the path of a class file ends with. -/
def classExtension : String := ".class"

/-- Whether a path is that of a class file. -/
def isClassPath (path : String) : Bool :=
  classExtension.toList.isSuffixOf path.toList

end JvmRelocation
