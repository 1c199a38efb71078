import JvmRelocation.Name.Descriptor
import JvmRelocation.Name.Signature.Parser

/-!
# The roles of a text

A text of the constant pool is read as a class name, a descriptor or a generic signature, depending
on where it is referred to from. The role decides which class names the text mentions and what the
text becomes under a renaming.
-/

namespace JvmRelocation

/-- How a text is read where it is referred to. -/
inductive NameRole where
  /-- An internal name, or the descriptor of an array type. -/
  | className
  /-- The descriptor of a field or method. -/
  | descriptor
  /-- A generic signature. -/
  | signature
deriving DecidableEq, Repr

namespace NameRole

/-- Whether a class name is an array's descriptor. -/
def isArray (text : String) : Bool :=
  text.toList.head? = some '['

/-- The text after renaming, where that differs. A signature that cannot be read stays as it is. -/
def remap (m : NameMapper) (text : String) : NameRole → Option String
  | className => if isArray text then Descriptor.remap m text else (m text).filter (· != text)
  | descriptor => Descriptor.remap m text
  | signature =>
    match Signature.remap m text with
    | .ok renamed => renamed
    | .error _ => none

/-- The class names that a text mentions. -/
def names (text : String) : NameRole → List String
  | className => if isArray text then Descriptor.namesIn text else [text]
  | descriptor => Descriptor.namesIn text
  | signature => Signature.namesIn text

end NameRole

end JvmRelocation
