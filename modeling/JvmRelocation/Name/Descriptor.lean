import JvmRelocation.Name.Mapper

/-!
# Descriptors

The descriptor of a field or method mentions classes as `L`, name, `;`. A text is cut from left to
right at its object types: each `L` opens one, and the next `;` closes it. What is left behind the
last closed one is the tail. If the tail still holds an `L`, that object type never closes and the
text is no descriptor.

Renaming works on whole names: the name between `L` and `;` is looked up, never a part of it.
-/

namespace JvmRelocation

/-- An object type inside a descriptor, with the text in front of its `L`. -/
structure ObjectType where
  /-- The text between the object type before and this one. -/
  before : List Char
  /-- The class it names. -/
  name : String
deriving DecidableEq, Repr

/-- A descriptor, cut at its object types. -/
structure Descriptor where
  /-- The object types from left to right. -/
  objects : List ObjectType
  /-- The text behind the last of them. -/
  tail : List Char
deriving DecidableEq, Repr

namespace Descriptor

mutual

/-- Cuts a text outside an object type. The characters of the current piece are held in reverse, and
so are the object types found before it. -/
def outside (found : List ObjectType) (piece : List Char) : List Char → Descriptor
  | [] => ⟨found.reverse, piece.reverse⟩
  | c :: rest => if c = 'L' then inside found piece [] rest else outside found (c :: piece) rest

/-- Cuts a text inside an object type, whose name so far is held in reverse. A name that is never
closed belongs to the tail, together with its `L`. -/
def inside (found : List ObjectType) (piece name : List Char) : List Char → Descriptor
  | [] => ⟨found.reverse, piece.reverse ++ 'L' :: name.reverse⟩
  | c :: rest =>
    if c = ';' then outside (⟨piece.reverse, String.ofList name.reverse⟩ :: found) [] rest
    else inside found piece (c :: name) rest

end

/-- The descriptor written as the given text. -/
def ofText (text : List Char) : Descriptor :=
  outside [] [] text

/-- How an object type is written, with the text in front of it. -/
def ObjectType.written (t : ObjectType) : List Char :=
  t.before ++ 'L' :: (t.name.toList ++ [';'])

/-- The text of a descriptor. -/
def toText (d : Descriptor) : List Char :=
  d.objects.flatMap ObjectType.written ++ d.tail

/-- Whether every object type closes. -/
def isClosed (d : Descriptor) : Bool :=
  !d.tail.contains 'L'

/-- The class names of a descriptor, from left to right. -/
def names (d : Descriptor) : List String :=
  d.objects.map (·.name)

/-- The descriptor with every class renamed. -/
def rename (m : NameMapper) (d : Descriptor) : Descriptor :=
  { d with objects := d.objects.map fun t => { t with name := m.rename t.name } }

/-- The text of a descriptor after renaming, where that closes and differs. -/
def remap (m : NameMapper) (text : String) : Option String :=
  let d := ofText text.toList
  let renamed := d.rename m
  if d.isClosed && renamed.names != d.names then some (String.ofList renamed.toText) else none

/-- The class names that a text mentions when it is read as a descriptor, whether it closes or
not. -/
def namesIn (text : String) : List String :=
  (ofText text.toList).names

end Descriptor

end JvmRelocation
