import Std.Data.TreeSet
import JvmRelocation.ClassFile.Layout
import JvmRelocation.ClassFile.Parser

/-!
# Name sites

A name site is a place in a class file that holds the index of a text mentioning classes: an operand
of a constant, the descriptor of a field or method, or two bytes of an attribute's body. A text that
is also referred to from elsewhere, as a literal or a member's name for instance, is pinned: it has
to stay as it is, whatever happens at the name sites that share it.
-/

namespace JvmRelocation

/-- What an attribute belongs to. -/
inductive AttributeOwner where
  | theClass
  | field (position : Nat)
  | method (position : Nat)
deriving DecidableEq, Repr

/-- A place that holds the index of a text. -/
inductive Location where
  /-- The name of a class constant, or the descriptor of a name-and-type or method type constant. -/
  | slot (index : UInt16)
  | fieldDescriptor (position : Nat)
  | methodDescriptor (position : Nat)
  /-- Two bytes in the body of an attribute. -/
  | attributeBody (owner : AttributeOwner) (position offset : Nat)
deriving DecidableEq, Repr

/-- A place whose text mentions classes. -/
structure NameSite where
  location : Location
  /-- The index of the text. -/
  index : UInt16
  /-- How the text is read. -/
  role : NameRole
deriving DecidableEq, Repr

/-- A reference to a text. -/
inductive TextReference where
  | pinned (index : UInt16)
  | site (s : NameSite)
deriving DecidableEq, Repr

namespace TextReference

/-- Refuses a name site whose index denotes no text entry. -/
def check (pool : ConstantPool) : TextReference → Except FormatError TextReference
  | pinned index => .ok (pinned index)
  | site s =>
    match pool.utf8Bytes s.index with
    | .ok _ => .ok (site s)
    | .error e => .error e

/-- The references of a constant. -/
def ofConstant : UInt16 × Constant → List TextReference
  | (i, .classInfo name) => [site ⟨.slot i, name, .className⟩]
  | (i, .nameAndType name descriptor) => [pinned name, site ⟨.slot i, descriptor, .descriptor⟩]
  | (i, .methodType descriptor) => [site ⟨.slot i, descriptor, .descriptor⟩]
  | (_, .stringLiteral text) => [pinned text]
  | (_, .moduleInfo name) => [pinned name]
  | (_, .packageInfo name) => [pinned name]
  | _ => []

/-- The reference of an index mentioned in an attribute. -/
def ofMention (owner : AttributeOwner) (position : Nat) (m : Layout.Mention) : TextReference :=
  match m.use with
  | .pinned => pinned m.index
  | .name role => site ⟨.attributeBody owner position m.offset, m.index, role⟩
  | .annotationType => site ⟨.attributeBody owner position m.offset, m.index, .descriptor⟩

/-- The references of an attribute. -/
def ofAttribute (pool : ConstantPool) (owner : AttributeOwner) (a : Attribute × Nat) :
    Except FormatError (List TextReference) :=
  match pool.text? a.1.nameIndex with
  | none => .ok [pinned a.1.nameIndex]
  | some name =>
    match a.1.layout pool name with
    | .error e => .error (e.inAttribute name)
    | .ok layout => do
      let mentioned ← (layout.mentions.map (ofMention owner a.2)).mapM (check pool)
      return pinned a.1.nameIndex :: mentioned

/-- The references of several attributes. -/
def ofAttributes (pool : ConstantPool) (owner : AttributeOwner) (attributes : Array Attribute) :
    Except FormatError (List TextReference) := do
  return (← attributes.toList.zipIdx.mapM (ofAttribute pool owner)).flatten

/-- The references of a field or method, given how its place and that of its descriptor are told. -/
def ofMember (pool : ConstantPool) (owner : Nat → AttributeOwner) (descriptor : Nat → Location)
    (m : Member × Nat) : Except FormatError (List TextReference) := do
  let site ← check pool (site ⟨descriptor m.2, m.1.descriptorIndex, .descriptor⟩)
  return pinned m.1.nameIndex :: site :: (← ofAttributes pool (owner m.2) m.1.attributes)

/-- The references of fields or methods. -/
def ofMembers (pool : ConstantPool) (owner : Nat → AttributeOwner) (descriptor : Nat → Location)
    (members : Array Member) : Except FormatError (List TextReference) := do
  return (← members.toList.zipIdx.mapM (ofMember pool owner descriptor)).flatten

end TextReference

namespace ClassFile

open TextReference in
/-- Every reference to a text: those of the constants, of the fields, of the methods and of the
class's own attributes, in this order. -/
def textReferences (c : ClassFile) : Except FormatError (List TextReference) := do
  let constants ← (c.pool.toList.flatMap ofConstant).mapM (check c.pool)
  let fields ← ofMembers c.pool .field .fieldDescriptor c.fields
  let methods ← ofMembers c.pool .method .methodDescriptor c.methods
  let attributes ← ofAttributes c.pool .theClass c.attributes
  return constants ++ fields ++ methods ++ attributes

end ClassFile

/-- The name sites of a class file, in order, and the texts that have to stay as they are. -/
structure NameSites where
  sites : List NameSite
  pinned : List UInt16

/-- The name sites among references. -/
def NameSites.ofReferences (references : List TextReference) : NameSites where
  sites := references.filterMap fun
    | .site s => some s
    | .pinned _ => none
  pinned := references.filterMap fun
    | .pinned index => some index
    | .site _ => none

/-- The name sites of a class file. -/
def ClassFile.nameSites (c : ClassFile) : Except FormatError NameSites :=
  c.textReferences.map NameSites.ofReferences

/-- The sites that refer to one text, in order, for every text, by its index. -/
def NameSites.byText (s : NameSites) : Std.TreeMap UInt16 (List NameSite) :=
  s.sites.foldr (fun site groups => groups.insert site.index (site :: groups.getD site.index [])) {}

/-- The class names that the texts at name sites mention. A text that does not decode mentions
none. -/
def ClassFile.referencedNames (c : ClassFile) : Except FormatError (Std.TreeSet String) := do
  let found ← c.nameSites
  let mentioned := found.byText.toList.map fun (index, sites) =>
    match c.pool.text? index with
    | some text => (sites.map (·.role)).eraseDups.flatMap (NameRole.names text)
    | none => []
  return Std.TreeSet.ofList mentioned.flatten

end JvmRelocation
