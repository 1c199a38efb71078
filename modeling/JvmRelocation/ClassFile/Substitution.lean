import JvmRelocation.ClassFile.NameSite

/-!
# Renaming the classes that a class file mentions

A renaming first decides for every text what becomes of it. A text that is not pinned and becomes
the same at all its sites is replaced where it stands. Otherwise it stays, and each site whose text
changes is given the index of a new text at the end of the pool, one for each text that is needed.
No slot moves, so nothing else in the class has to change.
-/

namespace JvmRelocation

/-- What a renaming does to the texts at name sites. -/
structure RenamingPlan where
  /-- Texts to be replaced where they stand. -/
  replaced : List (UInt16 × String)
  /-- Sites to be given a text of their own. -/
  moved : List (NameSite × String)
deriving DecidableEq, Repr

namespace RenamingPlan

/-- The plan that does nothing. -/
def empty : RenamingPlan := ⟨[], []⟩

/-- Whether a plan does nothing. -/
def isEmpty (p : RenamingPlan) : Bool :=
  p.replaced.isEmpty && p.moved.isEmpty

/-- The text that all sites agree on, if they agree on one. -/
def agreed? (outcomes : List (NameSite × Option String)) : Option String :=
  match outcomes with
  | (_, some first) :: rest => if rest.all (·.2 == some first) then some first else none
  | _ => none

/-- What becomes of one text, given what it becomes at each of its sites. -/
def forText (isPinned : Bool) (index : UInt16) (outcomes : List (NameSite × Option String)) :
    RenamingPlan :=
  match isPinned, agreed? outcomes with
  | false, some text => ⟨[(index, text)], []⟩
  | _, _ => ⟨[], outcomes.filterMap fun (site, text) => text.map (site, ·)⟩

/-- The plan of a renaming, text by text in the order of their indices. A text that does not decode
stays. -/
def make (m : NameMapper) (pool : ConstantPool) (found : NameSites) : RenamingPlan :=
  let pinned := Std.TreeSet.ofList found.pinned
  let plans := found.byText.toList.map fun (index, sites) =>
    match pool.text? index with
    | some text =>
      forText (pinned.contains index) index (sites.map fun site => (site, site.role.remap m text))
    | none => empty
  ⟨plans.flatMap (·.replaced), plans.flatMap (·.moved)⟩

end RenamingPlan

/-! ## Carrying out a plan -/

namespace ConstantPool

/-- The pool with texts replaced where they stand. -/
def replaceTexts (pool : ConstantPool) (replaced : List (UInt16 × String)) : ConstantPool :=
  replaced.foldl (fun pool r => pool.set r.1 (.utf8 (ModifiedUtf8.encode r.2))) pool

/-- Texts at the end of a pool, by their index. -/
abbrev Appended := Std.TreeMap String UInt16

/-- Appends the texts that are not there yet, in order. -/
def appendTexts (pool : ConstantPool) (known : Appended) :
    List String → Except FormatError (ConstantPool × Appended)
  | [] => .ok (pool, known)
  | text :: rest =>
    if known.contains text then appendTexts pool known rest
    else
      match pool.push (ModifiedUtf8.encode text) with
      | .ok (index, pool) => appendTexts pool (known.insert text index) rest
      | .error e => .error e

end ConstantPool

/-- The constant with the operand that refers to a text mentioning classes exchanged. -/
def Constant.withText (c : Constant) (index : UInt16) : Constant :=
  match c with
  | .classInfo _ => .classInfo index
  | .nameAndType name _ => .nameAndType name index
  | .methodType _ => .methodType index
  | c => c

/-- The attribute with the two bytes of its body at `offset` exchanged. -/
def Attribute.patch (offset : Nat) (index : UInt16) (a : Attribute) : Attribute :=
  match BigEndian.bytes16 index with
  | [high, low] =>
    { a with body := (a.body.setIfInBounds offset high).setIfInBounds (offset + 1) low }
  | _ => a

/-- The member with the index of its descriptor exchanged. -/
def Member.withDescriptor (index : UInt16) (m : Member) : Member :=
  { m with descriptorIndex := index }

/-- The member with one of its attributes patched. -/
def Member.patch (position offset : Nat) (index : UInt16) (m : Member) : Member :=
  { m with attributes := m.attributes.modify position (Attribute.patch offset index) }

namespace ClassFile

/-- The class file with the index at a location exchanged. -/
def setIndex (c : ClassFile) (location : Location) (index : UInt16) : ClassFile :=
  match location with
  | .slot i => { c with pool := ⟨c.pool.slots.modify i.toNat (·.withText index)⟩ }
  | .fieldDescriptor i => { c with fields := c.fields.modify i (Member.withDescriptor index) }
  | .methodDescriptor i => { c with methods := c.methods.modify i (Member.withDescriptor index) }
  | .attributeBody .theClass i offset =>
    { c with attributes := c.attributes.modify i (Attribute.patch offset index) }
  | .attributeBody (.field j) i offset =>
    { c with fields := c.fields.modify j (Member.patch i offset index) }
  | .attributeBody (.method j) i offset =>
    { c with methods := c.methods.modify j (Member.patch i offset index) }

/-- The class file with sites given the indices of their own texts. -/
def moveSites (c : ClassFile) (known : ConstantPool.Appended) (moved : List (NameSite × String)) :
    ClassFile :=
  moved.foldl (fun c m => c.setIndex m.1.location (known.getD m.2 0)) c

/-- The class file after a plan is carried out. -/
def carryOut (c : ClassFile) (plan : RenamingPlan) : Except FormatError ClassFile := do
  let pool := c.pool.replaceTexts plan.replaced
  let (pool, known) ← pool.appendTexts {} (plan.moved.map (·.2))
  return { c with pool := pool }.moveSites known plan.moved

/-- The plan of a renaming. -/
def plan (c : ClassFile) (m : NameMapper) : Except FormatError RenamingPlan := do
  return RenamingPlan.make m c.pool (← c.nameSites)

end ClassFile

/-- The bytes of a class after a renaming, and whether they differ from those it was read from. -/
structure Substitution where
  bytes : Bytes
  changed : Bool
deriving DecidableEq, Repr

/-- Renames the classes that a class mentions. When no text changes, the class keeps the bytes it was
read from. -/
def LoadedClass.substitute (c : LoadedClass) (m : NameMapper) : Except FormatError Substitution := do
  let plan ← c.plan m
  if plan.isEmpty then return ⟨c.source, false⟩
  let renamed ← c.carryOut plan
  let bytes := renamed.toBytes
  return ⟨bytes, bytes != c.source⟩

end JvmRelocation
