import JvmRelocation.Store.Basic

/-!
# Storage paths and relocated names

A class is stored under its internal name with `.class` behind it. Relocating a class puts the
version tag in front of its name, as a package of its own.
-/

namespace JvmRelocation

/-- The storage path of a class. -/
def classPath (name : String) : String :=
  name ++ classExtension

/-- The name a class gets under a version tag. -/
def relocatedName (tag name : String) : String :=
  tag ++ "/" ++ name

/-- The name of the class that a storage path leads to, if it leads to a class file. Backslashes
count as slashes. -/
def nameOfPath? (path : String) : Option String :=
  let text := path.toList.map fun c => if c = '\\' then '/' else c
  let extension := classExtension.toList
  if extension.isSuffixOf text then
    let stem := text.take (text.length - extension.length)
    if stem.getLast?.all (· = '/') then none else some (String.ofList stem)
  else none

end JvmRelocation
