import Std.Data.TreeMap
import JvmRelocation.Name.Mapper
import JvmRelocation.Relocation.Error
import JvmRelocation.Text.Json

/-!
# Relocation tables

A relocation table says what the marked classes are called now and where each was found. It is kept
one-to-one: neither an old nor a new name is ever taken twice.
-/

namespace JvmRelocation

/-- The new names of relocated classes. -/
structure RelocationTable where
  /-- New names by old ones. -/
  relocated : Std.TreeMap String String
  /-- Storage paths by old names. -/
  sources : Std.TreeMap String String
  /-- Old names by new ones. -/
  oldNames : Std.TreeMap String String

namespace RelocationTable

/-- The table without entries. -/
def empty : RelocationTable := ⟨{}, {}, {}⟩

/-- The new name of a class. -/
def get? (t : RelocationTable) (old : String) : Option String :=
  t.relocated.get? old

/-- Where a class was found. -/
def source? (t : RelocationTable) (old : String) : Option String :=
  t.sources.get? old

/-- Whether a class has a new name. -/
def contains (t : RelocationTable) (old : String) : Bool :=
  t.relocated.contains old

/-- The number of entries. -/
def size (t : RelocationTable) : Nat :=
  t.relocated.size

/-- Old and new names, in the order of the old ones. -/
def toList (t : RelocationTable) : List (String × String) :=
  t.relocated.toList

/-- Old names, new names and storage paths, in the order of the old names. -/
def withSources (t : RelocationTable) : List (String × String × String) :=
  t.toList.map fun (old, relocated) =>
    (old, relocated, (t.source? old).getD "")

/-- The table with an entry added, unless its old or its new name is taken. -/
def insert (t : RelocationTable) (old relocated source : String) :
    Except RelocationError RelocationTable :=
  match t.sources.get? old, t.oldNames.get? relocated with
  | some first, _ => .error (.duplicate old first source)
  | none, some first => .error (.duplicate relocated first old)
  | none, none => .ok
    ⟨t.relocated.insert old relocated, t.sources.insert old source,
      t.oldNames.insert relocated old⟩

/-- The renaming that a table describes. -/
def mapper (t : RelocationTable) : NameMapper :=
  t.get?

/-- The JSON object of a table: new names by old ones. -/
def toJson (t : RelocationTable) : Text.Json :=
  .object (t.toList.map fun (old, relocated) => (old, .string relocated))

end RelocationTable

end JvmRelocation
