import JvmRelocation.ClassFile.Substitution
import JvmRelocation.Proofs.ClassFile.LayoutStability

/-!
# Exchanging the indices of a class

Moving name sites patches the class at one location after another. All patches together exchange the
index at every location that a partial map of locations gives an index for, and touch nothing else.
The locations are those of name sites, so a patch inside an attribute hits an index of its layout.
-/

namespace JvmRelocation

open BigEndian

/-! ## Inside a body -/

/-- The part with its index exchanged, if it is one that may be. -/
def BodyPart.withIndex (value : Option UInt16) : BodyPart → BodyPart
  | .plain bytes => .plain bytes
  | .index use old => .index use (if use = .pinned then old else value.getD old)

theorem BodyPart.length_withIndex (value : Option UInt16) (part : BodyPart) :
    (part.withIndex value).toBytes.length = part.toBytes.length := by
  cases part <;> rfl

namespace Layout

/-- The indices in parts that start at `offset`, in order. -/
def mentionsAt (offset : Nat) : Layout → List Mention
  | [] => []
  | .plain bytes :: rest => mentionsAt (offset + bytes.length) rest
  | .index use value :: rest => ⟨offset, value, use⟩ :: mentionsAt (offset + 2) rest

theorem mentionsFrom_eq (done : List Mention) (offset : Nat) (l : Layout) :
    mentionsFrom done offset l = done.reverse ++ mentionsAt offset l := by
  induction l generalizing done offset with
  | nil => simp [mentionsFrom, mentionsAt]
  | cons part l ih =>
    cases part with
    | plain bytes => exact ih done _
    | index use value => simp [mentionsFrom, mentionsAt, ih]

theorem mentions_eq (l : Layout) : l.mentions = mentionsAt 0 l :=
  mentionsFrom_eq [] 0 l

theorem mentionsAt_cons (offset : Nat) (part : BodyPart) (l : Layout) :
    ∃ here, mentionsAt offset (part :: l) = here ++ mentionsAt (offset + part.toBytes.length) l ∧
      ∀ m ∈ here, m.offset = offset ∧ part = .index m.use m.index := by
  cases part with
  | plain bytes => exact ⟨[], rfl, by simp⟩
  | index use value => exact ⟨[⟨offset, value, use⟩], rfl, by simp⟩

theorem le_offset_of_mem {offset : Nat} {l : Layout} {m : Mention} (h : m ∈ mentionsAt offset l) :
    offset ≤ m.offset := by
  induction l generalizing offset with
  | nil => cases h
  | cons part l ih =>
    cases part with
    | plain bytes => exact Nat.le_trans (Nat.le_add_right _ _) (ih h)
    | index use value =>
      rcases List.mem_cons.mp h with rfl | h
      · exact Nat.le_refl _
      · exact Nat.le_trans (Nat.le_add_right _ _) (ih h)

/-- No two indices stand at the same place. -/
theorem mention_unique {offset : Nat} {l : Layout} {m m' : Mention} (h : m ∈ mentionsAt offset l)
    (h' : m' ∈ mentionsAt offset l) (heq : m.offset = m'.offset) : m = m' := by
  induction l generalizing offset with
  | nil => cases h
  | cons part l ih =>
    cases part with
    | plain bytes => exact ih h h'
    | index use value =>
      rcases List.mem_cons.mp h with rfl | h
      · rcases List.mem_cons.mp h' with rfl | h'
        · rfl
        · have := le_offset_of_mem h'
          simp only at heq
          omega
      · rcases List.mem_cons.mp h' with rfl | h'
        · have := le_offset_of_mem h
          simp only at heq
          omega
        · exact ih h h'

/-- The layout with the index at every place exchanged that `changes` gives one for. -/
def withIndices (changes : Nat → Option UInt16) (offset : Nat) : Layout → Layout
  | [] => []
  | part :: rest =>
    part.withIndex (changes offset) :: withIndices changes (offset + part.toBytes.length) rest

theorem withIndices_none (offset : Nat) (l : Layout) : withIndices (fun _ => none) offset l = l := by
  induction l generalizing offset with
  | nil => rfl
  | cons part l ih =>
    rw [withIndices, ih]
    cases part <;> simp [BodyPart.withIndex]

theorem similar_withIndices (changes : Nat → Option UInt16) (offset : Nat) (l : Layout) :
    Similar l (withIndices changes offset l) := by
  induction l generalizing offset with
  | nil => exact .nil
  | cons part l ih =>
    refine .cons ?_ (ih _)
    cases part with
    | plain bytes => exact .refl _
    | index use value =>
      rw [BodyPart.withIndex]
      split
      · exact .refl _
      · exact .index ‹_› _ _

theorem withIndices_congr {changes changes' : Nat → Option UInt16} {offset : Nat} (l : Layout)
    (h : ∀ place, offset ≤ place → changes place = changes' place) :
    withIndices changes offset l = withIndices changes' offset l := by
  induction l generalizing offset with
  | nil => rfl
  | cons part l ih =>
    rw [withIndices, withIndices, h offset (Nat.le_refl _),
      ih fun place hplace => h place (Nat.le_of_add_right_le hplace)]

/-- A mention with its index exchanged. -/
def Mention.withIndex (changes : Nat → Option UInt16) (m : Mention) : Mention :=
  { m with index := if m.use = .pinned then m.index else (changes m.offset).getD m.index }

theorem mentionsAt_withIndices (changes : Nat → Option UInt16) (offset : Nat) (l : Layout) :
    mentionsAt offset (withIndices changes offset l) =
      (mentionsAt offset l).map (Mention.withIndex changes) := by
  induction l generalizing offset with
  | nil => rfl
  | cons part l ih =>
    cases part with
    | plain bytes => exact ih _
    | index use value =>
      simp only [withIndices, BodyPart.withIndex, mentionsAt, List.map_cons, Mention.withIndex]
      congr 1
      exact ih _

/-- The map with one more place given an index. -/
def exchange {α : Type} [DecidableEq α] (changes : α → Option UInt16) (place : α) (index : UInt16) :
    α → Option UInt16 := fun place' => if place' = place then some index else changes place'

theorem exchange_of_ne {α : Type} [DecidableEq α] {changes : α → Option UInt16} {place place' : α}
    (h : place' ≠ place) (index : UInt16) : exchange changes place index place' = changes place' :=
  if_neg h

theorem exchange_self {α : Type} [DecidableEq α] (changes : α → Option UInt16) (place : α)
    (index : UInt16) : exchange changes place index place = some index :=
  if_pos rfl

/-- Overwriting the two bytes of an index is exchanging it. -/
theorem patch_toBytes (changes : Nat → Option UInt16) {offset : Nat} {l : Layout} {m : Mention}
    (hm : m ∈ mentionsAt offset l) (huse : m.use ≠ .pinned) (high low : UInt8) (index : UInt16)
    (hindex : bytes16 index = [high, low]) :
    ((toBytes (withIndices changes offset l)).set (m.offset - offset) high).set
        (m.offset - offset + 1) low =
      toBytes (withIndices (exchange changes m.offset index) offset l) := by
  induction l generalizing offset with
  | nil => cases hm
  | cons part l ih =>
    obtain ⟨here, heq, hhere⟩ := mentionsAt_cons offset part l
    rw [heq, List.mem_append] at hm
    simp only [withIndices, toBytes_cons]
    rcases hm with hm | hm
    · -- the index is this part, and nothing behind it stands at its place
      obtain ⟨hoffset, rfl⟩ := hhere m hm
      have hbehind : withIndices changes (offset + 2) l =
          withIndices (exchange changes m.offset index) (offset + 2) l :=
        withIndices_congr l fun place hplace => (exchange_of_ne (by omega) index).symm
      have hpart : (BodyPart.withIndex (exchange changes m.offset index offset)
          (.index m.use m.index)).toBytes = [high, low] := by
        rw [hoffset, exchange_self, BodyPart.withIndex, if_neg huse]
        exact hindex
      rw [hpart, show (BodyPart.index m.use m.index).toBytes.length = 2 from rfl, ← hbehind, hoffset,
        Nat.sub_self]
      rfl
    · -- the index stands behind this part, which is left alone
      have hle := le_offset_of_mem hm
      have hpart : part.withIndex (exchange changes m.offset index offset) =
          part.withIndex (changes offset) := by
        cases part with
        | plain bytes => rfl
        | index use value =>
          have hlength : (BodyPart.index use value).toBytes.length = 2 := rfl
          rw [exchange_of_ne (by omega)]
      have hlength : (part.withIndex (changes offset)).toBytes.length ≤ m.offset - offset := by
        rw [BodyPart.length_withIndex]
        omega
      rw [hpart, ← ih hm, List.set_append_right _ _ hlength,
        List.set_append_right _ _ (by omega), BodyPart.length_withIndex]
      congr 2
      · congr 1
        omega
      · omega

end Layout

open Layout

/-! ## Inside a class -/

/-- The parts of an attribute's body. A body that cannot be read is one plain part. -/
def Attribute.parts (pool : ConstantPool) (a : Attribute) : Layout :=
  match a.layout pool (nameAt pool a.nameIndex) with
  | .ok l => l
  | .error _ => [.plain a.body.toList]

/-- An attribute whose body can be read. -/
def Attribute.Readable (pool : ConstantPool) (a : Attribute) : Prop :=
  a.layout pool (nameAt pool a.nameIndex) = .ok (a.parts pool)

theorem Attribute.readable_of_layout {pool : ConstantPool} {a : Attribute} {l : Layout}
    (h : a.layout pool (nameAt pool a.nameIndex) = .ok l) : a.Readable pool ∧ a.parts pool = l := by
  have hparts : a.parts pool = l := by simp only [parts, h]
  exact ⟨by rw [Readable, h, hparts], hparts⟩

theorem Attribute.toBytes_parts (pool : ConstantPool) (a : Attribute) :
    (a.parts pool).toBytes = a.body.toList := by
  rw [parts]
  split
  case h_1 l h => exact ((steadyCut pool pool _).tiling h).symm
  case h_2 => simp [BodyPart.toBytes]

/-- The attribute with the indices in its body exchanged. -/
def Attribute.withIndices (pool : ConstantPool) (changes : Nat → Option UInt16) (a : Attribute) :
    Attribute :=
  { a with body := (Layout.withIndices changes 0 (a.parts pool)).toBytes.toArray }

theorem Attribute.size_withIndices (pool : ConstantPool) (changes : Nat → Option UInt16)
    (a : Attribute) : (a.withIndices pool changes).body.size = a.body.size := by
  rw [withIndices, List.size_toArray, (similar_withIndices _ _ _).length_toBytes, toBytes_parts,
    Array.length_toList]

theorem Attribute.withIndices_none (pool : ConstantPool) (a : Attribute) :
    a.withIndices pool (fun _ => none) = a := by
  rw [withIndices, Layout.withIndices_none, toBytes_parts]

theorem Attribute.patch_withIndices {pool : ConstantPool} {a : Attribute} {m : Mention}
    (hm : m ∈ (a.parts pool).mentions) (huse : m.use ≠ .pinned) (changes : Nat → Option UInt16)
    (index : UInt16) : (a.withIndices pool changes).patch m.offset index =
      a.withIndices pool (exchange changes m.offset index) := by
  rw [mentions_eq] at hm
  have hpatch := patch_toBytes changes hm huse _ _ index rfl
  rw [Nat.sub_zero] at hpatch
  simp only [patch, bytes16, withIndices, Attribute.mk.injEq, true_and]
  apply Array.toList_inj.mp
  simpa using hpatch

/-- The member with the index of its descriptor and the indices in its attributes exchanged. -/
def Member.withIndices (pool : ConstantPool) (descriptor : Option UInt16)
    (changes : Nat → Nat → Option UInt16) (m : Member) : Member :=
  { m with
    descriptorIndex := descriptor.getD m.descriptorIndex
    attributes := m.attributes.mapIdx fun i a => a.withIndices pool (changes i) }

/-- The constant with the index in it exchanged, where there is another one for it. -/
def Constant.withIndex (value : Option UInt16) (k : Constant) : Constant :=
  match value with
  | some index => k.withText index
  | none => k

/-- The slots with the indices in them exchanged. -/
def ConstantPool.withIndices (pool : ConstantPool) (changes : UInt16 → Option UInt16) : ConstantPool :=
  ⟨pool.slots.mapIdx fun i k => k.withIndex (changes (UInt16.ofNat i))⟩

/-- The class over another pool, with the index at every location exchanged that `changes` gives one
for. The attributes are those of the class over its own pool. -/
def ClassFile.withIndices (c : ClassFile) (pool : ConstantPool) (changes : Location → Option UInt16) :
    ClassFile :=
  { c with
    pool := pool.withIndices fun i => changes (.slot i)
    fields := c.fields.mapIdx fun i m => m.withIndices c.pool (changes (.fieldDescriptor i))
      fun k offset => changes (.attributeBody (.field i) k offset)
    methods := c.methods.mapIdx fun i m => m.withIndices c.pool (changes (.methodDescriptor i))
      fun k offset => changes (.attributeBody (.method i) k offset)
    attributes := c.attributes.mapIdx fun k a =>
      a.withIndices c.pool fun offset => changes (.attributeBody .theClass k offset) }

theorem mapIdx_eq_self {α : Type} {f : Nat → α → α} {list : Array α} (h : ∀ i a, f i a = a) :
    list.mapIdx f = list := by
  apply Array.ext
  · simp
  · intro i _ _
    simp [h]

theorem modify_mapIdx {α : Type} (f : Nat → α → α) (g : α → α) (place : Nat) (list : Array α) :
    (list.mapIdx f).modify place g =
      list.mapIdx fun i a => if i = place then g (f i a) else f i a := by
  apply Array.ext
  · simp
  · intro i hi _
    simp only [Array.getElem_modify, Array.getElem_mapIdx, eq_comm]

theorem ClassFile.withIndices_none (c : ClassFile) (pool : ConstantPool) :
    c.withIndices pool (fun _ => none) = { c with pool := pool } := by
  have hmember (m : Member) : m.withIndices c.pool none (fun _ _ => none) = m := by
    rw [Member.withIndices, mapIdx_eq_self fun _ a => a.withIndices_none c.pool]
    rfl
  rw [withIndices, mapIdx_eq_self fun _ => hmember, mapIdx_eq_self fun _ => hmember,
    mapIdx_eq_self fun _ a => a.withIndices_none c.pool]
  have hslot (i : Nat) (k : Constant) : k.withIndex none = k := rfl
  rw [ConstantPool.withIndices, mapIdx_eq_self hslot]

/-- The attributes of the class itself, of a field or of a method. -/
def ClassFile.attributesOf (c : ClassFile) : AttributeOwner → Array Attribute
  | .theClass => c.attributes
  | .field i => (c.fields[i]?.map (·.attributes)).getD #[]
  | .method i => (c.methods[i]?.map (·.attributes)).getD #[]

/-- A place in the body of an attribute holds an index that may be exchanged. -/
def ClassFile.HasMention (c : ClassFile) (owner : AttributeOwner) (position : Nat) (m : Mention) :
    Prop :=
  m.use ≠ .pinned ∧ ∃ a, (c.attributesOf owner)[position]? = some a ∧ m ∈ (a.parts c.pool).mentions

/-- A location where an index may be exchanged. -/
def ClassFile.HasPlace (c : ClassFile) : Location → Prop
  | .attributeBody owner position offset => ∃ m, c.HasMention owner position m ∧ m.offset = offset
  | _ => True

theorem member_of_attributesOf {members : Array Member} {i position : Nat} {a : Attribute}
    (h : ((members[i]?.map (·.attributes)).getD #[])[position]? = some a) :
    ∃ member, members[i]? = some member ∧ member.attributes[position]? = some a := by
  cases hmember : members[i]? with
  | none => simp [hmember] at h
  | some member => exact ⟨member, rfl, by simpa [hmember] using h⟩

theorem Constant.withText_withIndex (k : Constant) (value : Option UInt16) (i : UInt16) :
    (k.withIndex value).withText i = k.withIndex (some i) := by
  cases value with
  | none => rfl
  | some j => cases k <;> rfl

theorem ConstantPool.withIndices_exchange {pool : ConstantPool} (hcount : pool.count ≤ 65536)
    (changes : UInt16 → Option UInt16) (place index : UInt16) :
    ⟨(pool.withIndices changes).slots.modify place.toNat (·.withText index)⟩ =
      pool.withIndices (exchange changes place index) := by
  simp only [withIndices, modify_mapIdx]
  congr 1
  apply Array.ext
  · simp
  · intro i hi _
    have hsize : i < pool.count := by simpa [count] using hi
    have hplace : i = place.toNat ↔ UInt16.ofNat i = place := by
      rw [← UInt16.toNat_inj, UInt16.toNat_ofNat', Nat.mod_eq_of_lt (by omega)]
    simp only [Array.getElem_mapIdx, hplace, exchange]
    split
    · exact Constant.withText_withIndex _ _ _
    · rfl

/-- The attributes with one of them patched. -/
theorem attributes_patch {pool : ConstantPool} {attributes : Array Attribute} {position : Nat}
    {m : Mention} {a : Attribute} (ha : attributes[position]? = some a)
    (hm : m ∈ (a.parts pool).mentions) (huse : m.use ≠ .pinned)
    (changes : Nat → Nat → Option UInt16) (index : UInt16) :
    (attributes.mapIdx fun i a => a.withIndices pool (changes i)).modify position
        (Attribute.patch m.offset index) =
      attributes.mapIdx fun i a => a.withIndices pool fun offset =>
        if i = position ∧ offset = m.offset then some index else changes i offset := by
  rw [modify_mapIdx]
  apply Array.ext
  · simp
  · intro i hi _
    simp only [Array.getElem_mapIdx]
    split
    case isTrue h =>
      subst h
      obtain ⟨_, rfl⟩ := Array.getElem?_eq_some_iff.mp ha
      rw [Attribute.patch_withIndices hm huse]
      simp only [true_and]
      rfl
    case isFalse h => simp only [h, false_and, if_false]

/-- The members with an attribute of one of them patched. -/
theorem members_patch {pool : ConstantPool} {members : Array Member} {place position : Nat}
    {member : Member} {m : Mention} {a : Attribute} (hmember : members[place]? = some member)
    (ha : member.attributes[position]? = some a) (hm : m ∈ (a.parts pool).mentions)
    (huse : m.use ≠ .pinned) (descriptors : Nat → Option UInt16)
    (changes : Nat → Nat → Nat → Option UInt16) (index : UInt16) :
    (members.mapIdx fun i m => m.withIndices pool (descriptors i) (changes i)).modify place
        (Member.patch position m.offset index) =
      members.mapIdx fun i member => member.withIndices pool (descriptors i) fun k offset =>
        if i = place ∧ k = position ∧ offset = m.offset then some index else changes i k offset := by
  rw [modify_mapIdx]
  apply Array.ext
  · simp
  · intro i hi _
    simp only [Array.getElem_mapIdx]
    split
    case isTrue h =>
      subst h
      obtain ⟨_, rfl⟩ := Array.getElem?_eq_some_iff.mp hmember
      simp only [Member.withIndices, Member.patch, attributes_patch ha hm huse, true_and]
    case isFalse h => simp only [h, false_and, if_false]

theorem ClassFile.setIndex_withIndices {c : ClassFile} {pool : ConstantPool}
    (hcount : pool.count ≤ 65536) {place : Location} (hplace : c.HasPlace place)
    (changes : Location → Option UInt16) (index : UInt16) :
    (c.withIndices pool changes).setIndex place index =
      c.withIndices pool (exchange changes place index) := by
  cases place with
  | slot i =>
    simp only [setIndex, withIndices, ConstantPool.withIndices_exchange hcount]
    simp [exchange]
    rfl
  | fieldDescriptor i =>
    simp only [setIndex, withIndices, modify_mapIdx]
    simp only [exchange, reduceCtorEq, Location.fieldDescriptor.injEq, if_false]
    congr 2
    funext j m
    split <;> rfl
  | methodDescriptor i =>
    simp only [setIndex, withIndices, modify_mapIdx]
    simp only [exchange, reduceCtorEq, Location.methodDescriptor.injEq, if_false]
    congr 2
    funext j m
    split <;> rfl
  | attributeBody owner position offset =>
    -- the three owners differ in where their attributes are kept, and in nothing else
    obtain ⟨m, ⟨huse, a, ha, hm⟩, rfl⟩ := hplace
    cases owner with
    | theClass =>
      simp only [setIndex, withIndices]
      rw [attributes_patch (show c.attributes[position]? = some a from ha) hm huse fun k offset =>
        changes (.attributeBody .theClass k offset)]
      simp only [exchange, reduceCtorEq, Location.attributeBody.injEq, if_false, true_and, false_and]
    | field i =>
      obtain ⟨member, hmember, hattributes⟩ := member_of_attributesOf ha
      simp only [setIndex, withIndices]
      rw [members_patch hmember hattributes hm huse (fun j => changes (.fieldDescriptor j))
        fun j k offset => changes (.attributeBody (.field j) k offset)]
      simp only [exchange, reduceCtorEq, Location.attributeBody.injEq, AttributeOwner.field.injEq,
        if_false, false_and]
    | method i =>
      obtain ⟨member, hmember, hattributes⟩ := member_of_attributesOf ha
      simp only [setIndex, withIndices]
      rw [members_patch hmember hattributes hm huse (fun j => changes (.methodDescriptor j))
        fun j k offset => changes (.attributeBody (.method j) k offset)]
      simp only [exchange, reduceCtorEq, Location.attributeBody.injEq, AttributeOwner.method.injEq,
        if_false, false_and]

/-- The attributes of an owner after indices are exchanged. -/
theorem ClassFile.attributesOf_withIndices (c : ClassFile) (pool : ConstantPool)
    (changes : Location → Option UInt16) (owner : AttributeOwner) :
    (c.withIndices pool changes).attributesOf owner = (c.attributesOf owner).mapIdx fun k a =>
      a.withIndices c.pool fun offset => changes (.attributeBody owner k offset) := by
  cases owner with
  | theClass => rfl
  | field i =>
    simp only [attributesOf, withIndices, Array.getElem?_mapIdx]
    cases c.fields[i]? <;> simp [Member.withIndices]
  | method i =>
    simp only [attributesOf, withIndices, Array.getElem?_mapIdx]
    cases c.methods[i]? <;> simp [Member.withIndices]

/-! ## All patches together -/

/-- The indices that moved sites are given: where a location is moved twice, the last one counts. -/
def indicesOf (known : ConstantPool.Appended) (moved : List (NameSite × String))
    (changes : Location → Option UInt16) : Location → Option UInt16 :=
  moved.foldl (fun changes m => exchange changes m.1.location (known.getD m.2 0)) changes

theorem ClassFile.moveSites_withIndices {c : ClassFile} {pool : ConstantPool}
    (hcount : pool.count ≤ 65536) (known : ConstantPool.Appended) (moved : List (NameSite × String))
    (hplaces : ∀ m ∈ moved, c.HasPlace m.1.location) (changes : Location → Option UInt16) :
    (c.withIndices pool changes).moveSites known moved =
      c.withIndices pool (indicesOf known moved changes) := by
  induction moved generalizing changes with
  | nil => rfl
  | cons m moved ih =>
    obtain ⟨hm, hmoved⟩ := List.forall_mem_cons.mp hplaces
    rw [moveSites, List.foldl_cons, setIndex_withIndices hcount hm]
    exact ih hmoved _

/-- **Moving sites exchanges the indices at their locations.** -/
theorem ClassFile.moveSites_eq {c : ClassFile} {pool : ConstantPool} (hcount : pool.count ≤ 65536)
    (known : ConstantPool.Appended) (moved : List (NameSite × String))
    (hplaces : ∀ m ∈ moved, c.HasPlace m.1.location) :
    { c with pool := pool }.moveSites known moved =
      c.withIndices pool (indicesOf known moved fun _ => none) := by
  rw [← c.withIndices_none pool, moveSites_withIndices hcount known moved hplaces]

end JvmRelocation
