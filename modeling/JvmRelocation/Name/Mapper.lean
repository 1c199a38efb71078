import Std.Data.TreeMap

/-!
# Renamings of classes

A class is named by its internal name, whose packages are separated by slashes. A name mapper says
what some classes are called instead; every other class keeps its name.
-/

namespace JvmRelocation

/-- What some names are replaced by. -/
abbrev NameMapper := String → Option String

namespace NameMapper

/-- The mapper that renames a single class. -/
def single (source target : String) : NameMapper := fun name =>
  if name = source then some target else none

/-- The mapper given by a map. -/
def ofMap (entries : Std.TreeMap String String) : NameMapper := fun name => entries.get? name

/-- What a name is called under a mapper: its replacement, or itself. -/
def rename (m : NameMapper) (name : String) : String :=
  (m name).getD name

end NameMapper

end JvmRelocation
