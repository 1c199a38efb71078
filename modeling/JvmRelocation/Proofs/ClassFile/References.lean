import JvmRelocation.Proofs.ClassFile.PoolTexts

/-!
# The references of a class

Collecting the references of a class succeeds exactly if every known attribute can be read and every
name site refers to a text entry, and then gives the references that stand in the class, which are a
function of it. A location holds at most one name site. Exchanging indices at locations exchanges
them in the references and changes nothing else about those.
-/

namespace JvmRelocation

open Layout

/-! ## What collecting references gives -/

namespace TextReference

/-- A name site refers to a text entry. -/
def Resolves (pool : ConstantPool) : TextReference → Prop
  | pinned _ => True
  | site s => ∃ bytes, pool.utf8Bytes s.index = .ok bytes

theorem check_eq_ok {pool : ConstantPool} (r r' : TextReference) :
    check pool r = .ok r' ↔ r.Resolves pool ∧ r' = r := by
  cases r with
  | pinned index => simp [check, Resolves, eq_comm]
  | site s =>
    simp only [check, Resolves]
    cases pool.utf8Bytes s.index with
    | ok bytes => simp [eq_comm]
    | error e => simp

/-- The references that stand in an attribute. -/
def inAttribute (pool : ConstantPool) (owner : AttributeOwner) (a : Attribute × Nat) :
    List TextReference :=
  pinned a.1.nameIndex :: (a.1.parts pool).mentions.map (ofMention owner a.2)

/-- The references that stand in several attributes. -/
def inAttributes (pool : ConstantPool) (owner : AttributeOwner) (attributes : Array Attribute) :
    List TextReference :=
  attributes.toList.zipIdx.flatMap (inAttribute pool owner)

/-- The references that stand in a member. -/
def inMember (pool : ConstantPool) (owner : Nat → AttributeOwner) (descriptor : Nat → Location)
    (m : Member × Nat) : List TextReference :=
  pinned m.1.nameIndex :: site ⟨descriptor m.2, m.1.descriptorIndex, .descriptor⟩ ::
    inAttributes pool (owner m.2) m.1.attributes

/-- The references that stand in several members. -/
def inMembers (pool : ConstantPool) (owner : Nat → AttributeOwner) (descriptor : Nat → Location)
    (members : Array Member) : List TextReference :=
  members.toList.zipIdx.flatMap (inMember pool owner descriptor)

theorem ofAttribute_eq_ok {pool : ConstantPool} {owner : AttributeOwner} (a : Attribute × Nat)
    (refs : List TextReference) : ofAttribute pool owner a = .ok refs ↔
      (a.1.Readable pool ∧ ∀ r ∈ inAttribute pool owner a, r.Resolves pool) ∧
        refs = inAttribute pool owner a := by
  cases htext : pool.text? a.1.nameIndex with
  | none =>
    -- an attribute whose name does not decode is not read, so only its name index refers to a text
    have hname : nameAt pool a.1.nameIndex = "" := by rw [nameAt, htext]; rfl
    obtain ⟨hreadable, hparts⟩ := Attribute.readable_of_layout
      (hname ▸ cut_of_unknown rfl pool _ a.1.body.toList :
        a.1.layout pool (nameAt pool a.1.nameIndex) = .ok [.plain a.1.body.toList])
    have hrefs : inAttribute pool owner a = [pinned a.1.nameIndex] := by
      rw [inAttribute, hparts]
      rfl
    simp [ofAttribute, htext, hrefs, hreadable, Resolves, eq_comm]
  | some name =>
    have hname : nameAt pool a.1.nameIndex = name := by rw [nameAt, htext]; rfl
    cases hlayout : a.1.layout pool name with
    | error e =>
      -- a known attribute that cannot be read ends the collection
      have hbad : ¬a.1.Readable pool := by
        rw [Attribute.Readable, hname, hlayout]
        simp
      simp [ofAttribute, htext, hlayout, hbad]
    | ok l =>
      obtain ⟨hreadable, hparts⟩ := Attribute.readable_of_layout (hname ▸ hlayout)
      simp only [ofAttribute, htext, hlayout, exceptBind_eq_ok, mapM_eq_ok_iff check_eq_ok,
        inAttribute, hparts, hreadable, List.forall_mem_cons, List.map_id']
      constructor
      · rintro ⟨_, ⟨hall, rfl⟩, hrefs⟩
        obtain rfl : _ = refs := by simpa [pure, Except.pure] using hrefs
        exact ⟨⟨trivial, trivial, hall⟩, rfl⟩
      · rintro ⟨⟨-, -, hall⟩, rfl⟩
        exact ⟨_, ⟨hall, rfl⟩, rfl⟩

/-- The attributes of a list can be read. -/
abbrev AllReadable (pool : ConstantPool) (attributes : Array Attribute) : Prop :=
  ∀ a ∈ attributes.toList, a.Readable pool

/-- A property of items, and one of what stands in them at their positions. -/
theorem forall_mem_zipIdx {α β : Type} {list : List α} {P : α → Prop} {g : α × Nat → List β}
    {Q : β → Prop} : (∀ x ∈ list.zipIdx, P x.1 ∧ ∀ r ∈ g x, Q r) ↔
      (∀ a ∈ list, P a) ∧ ∀ r ∈ list.zipIdx.flatMap g, Q r := by
  have hitems : (∀ x ∈ list.zipIdx, P x.1) ↔ ∀ a ∈ list, P a := by
    conv => rhs; rw [← List.zipIdx_map_fst 0 list]
    exact List.forall_mem_map.symm
  rw [← hitems, List.forall_mem_flatMap, ← forall₂_and]

theorem ofAttributes_eq_ok {pool : ConstantPool} {owner : AttributeOwner}
    {attributes : Array Attribute} {refs : List TextReference} :
    ofAttributes pool owner attributes = .ok refs ↔
      (AllReadable pool attributes ∧ ∀ r ∈ inAttributes pool owner attributes, r.Resolves pool) ∧
        refs = inAttributes pool owner attributes := by
  rw [ofAttributes, flatMapM_eq_ok_iff ofAttribute_eq_ok, inAttributes, AllReadable,
    ← forall_mem_zipIdx]

theorem ofMember_eq_ok {pool : ConstantPool} {owner : Nat → AttributeOwner}
    {descriptor : Nat → Location} (m : Member × Nat) (refs : List TextReference) :
    ofMember pool owner descriptor m = .ok refs ↔
      (AllReadable pool m.1.attributes ∧ ∀ r ∈ inMember pool owner descriptor m, r.Resolves pool) ∧
        refs = inMember pool owner descriptor m := by
  simp only [ofMember, exceptBind_eq_ok, check_eq_ok, ofAttributes_eq_ok, inMember,
    List.forall_mem_cons]
  constructor
  · rintro ⟨_, ⟨hsite, rfl⟩, _, ⟨⟨hreadable, hall⟩, rfl⟩, hrefs⟩
    obtain rfl : _ = refs := by simpa [pure, Except.pure] using hrefs
    exact ⟨⟨hreadable, trivial, hsite, hall⟩, rfl⟩
  · rintro ⟨⟨hreadable, -, hsite, hall⟩, rfl⟩
    exact ⟨_, ⟨hsite, rfl⟩, _, ⟨⟨hreadable, hall⟩, rfl⟩, rfl⟩

theorem ofMembers_eq_ok {pool : ConstantPool} {owner : Nat → AttributeOwner}
    {descriptor : Nat → Location} {members : Array Member} {refs : List TextReference} :
    ofMembers pool owner descriptor members = .ok refs ↔
      ((∀ m ∈ members.toList, AllReadable pool m.attributes) ∧
        ∀ r ∈ inMembers pool owner descriptor members, r.Resolves pool) ∧
        refs = inMembers pool owner descriptor members := by
  rw [ofMembers, flatMapM_eq_ok_iff ofMember_eq_ok, inMembers,
    ← forall_mem_zipIdx (P := fun m : Member => AllReadable pool m.attributes)]

end TextReference

namespace ClassFile

open TextReference

/-- The references that stand in a class. -/
def references (c : ClassFile) : List TextReference :=
  c.pool.toList.flatMap ofConstant ++ inMembers c.pool .field .fieldDescriptor c.fields ++
    inMembers c.pool .method .methodDescriptor c.methods ++ inAttributes c.pool .theClass c.attributes

/-- Every known attribute of a class can be read. -/
structure Readable (c : ClassFile) : Prop where
  fields : ∀ m ∈ c.fields.toList, AllReadable c.pool m.attributes
  methods : ∀ m ∈ c.methods.toList, AllReadable c.pool m.attributes
  attributes : AllReadable c.pool c.attributes

theorem textReferences_eq_ok {c : ClassFile} {refs : List TextReference} :
    c.textReferences = .ok refs ↔
      (c.Readable ∧ ∀ r ∈ c.references, r.Resolves c.pool) ∧ refs = c.references := by
  simp only [textReferences, exceptBind_eq_ok, mapM_eq_ok_iff check_eq_ok, ofMembers_eq_ok,
    ofAttributes_eq_ok, List.map_id', references, List.forall_mem_append]
  constructor
  · rintro ⟨_, ⟨hpool, rfl⟩, _, ⟨⟨hfields, hinFields⟩, rfl⟩, _, ⟨⟨hmethods, hinMethods⟩, rfl⟩, _,
      ⟨⟨hattributes, hinAttributes⟩, rfl⟩, hrefs⟩
    obtain rfl : _ = refs := by simpa [pure, Except.pure] using hrefs
    refine ⟨⟨⟨hfields, hmethods, hattributes⟩, ⟨⟨hpool, hinFields⟩, hinMethods⟩, hinAttributes⟩, ?_⟩
    simp only [List.append_assoc]
  · rintro ⟨⟨⟨hfields, hmethods, hattributes⟩, ⟨⟨hpool, hinFields⟩, hinMethods⟩, hinAttributes⟩, rfl⟩
    exact ⟨_, ⟨hpool, rfl⟩, _, ⟨⟨hfields, hinFields⟩, rfl⟩, _, ⟨⟨hmethods, hinMethods⟩, rfl⟩, _,
      ⟨⟨hattributes, hinAttributes⟩, rfl⟩, rfl⟩

/-! ## A location holds one name site -/

/-- A name site stands where its location says. -/
def HoldsSite (c : ClassFile) (s : NameSite) : Prop :=
  match s.location with
  | .slot i => ∃ k, c.pool.get? i = some k ∧ site s ∈ ofConstant (i, k)
  | .fieldDescriptor i =>
    s.role = .descriptor ∧ c.fields[i]?.map (·.descriptorIndex) = some s.index
  | .methodDescriptor i =>
    s.role = .descriptor ∧ c.methods[i]?.map (·.descriptorIndex) = some s.index
  | .attributeBody owner position offset =>
    ∃ m, c.HasMention owner position m ∧ m.offset = offset ∧ ofMention owner position m = site s

theorem mem_toList {pool : ConstantPool} (hcount : pool.count ≤ 65536) {i : UInt16} {k : Constant}
    (h : (i, k) ∈ pool.toList) : pool.get? i = some k := by
  obtain ⟨⟨k', j⟩, hmem, heq⟩ := List.mem_map.mp h
  obtain ⟨rfl, rfl⟩ : UInt16.ofNat j = i ∧ k' = k := by simpa using heq
  have hget := List.mem_zipIdx_iff_getElem?.mp hmem
  simp only at hget
  have hj : j < pool.count := by simpa [ConstantPool.count] using (List.getElem?_eq_some_iff.mp hget).1
  rw [ConstantPool.get?_eq, UInt16.toNat_ofNat', Nat.mod_eq_of_lt (by omega)]
  exact hget

theorem mem_toList_of_get? {pool : ConstantPool} {i : UInt16} {k : Constant}
    (h : pool.get? i = some k) : (i, k) ∈ pool.toList := by
  rw [ConstantPool.get?_eq] at h
  refine List.mem_map.mpr ⟨(k, i.toNat), List.mem_zipIdx_iff_getElem?.mpr h, ?_⟩
  simp

/-- The name of a class entry is a name site. -/
theorem site_of_classInfo {c : ClassFile} {i name : UInt16}
    (h : c.pool.get? i = some (.classInfo name)) : site ⟨.slot i, name, .className⟩ ∈ c.references := by
  simp only [references, List.mem_append]
  exact .inl (.inl (.inl (List.mem_flatMap.mpr ⟨_, mem_toList_of_get? h, List.mem_singleton.mpr rfl⟩)))

theorem location_of_ofConstant {i : UInt16} {k : Constant} {s : NameSite}
    (h : site s ∈ ofConstant (i, k)) : s.location = .slot i := by
  cases k <;> simp [ofConstant] at h <;> subst h <;> rfl

theorem mem_inAttributes {pool : ConstantPool} {owner : AttributeOwner} {attributes : Array Attribute}
    {s : NameSite} (h : site s ∈ inAttributes pool owner attributes) :
    ∃ position a m, attributes[position]? = some a ∧ m ∈ (a.parts pool).mentions ∧
      ofMention owner position m = site s := by
  obtain ⟨⟨a, position⟩, ha, hs⟩ := List.mem_flatMap.mp h
  have hget := List.mem_zipIdx_iff_getElem?.mp ha
  simp only [Array.getElem?_toList] at hget
  rcases List.mem_cons.mp hs with hs | hs
  · cases hs
  · obtain ⟨m, hm, hsite⟩ := List.mem_map.mp hs
    exact ⟨position, a, m, hget, hm, hsite⟩

/-- The name site of a mention: it stands where the mention does, and the mention is no pinned
one. -/
theorem ofMention_eq_site {owner : AttributeOwner} {position : Nat} {m : Mention} {s : NameSite}
    (h : ofMention owner position m = site s) :
    m.use ≠ .pinned ∧ s.location = .attributeBody owner position m.offset ∧ s.index = m.index := by
  simp only [ofMention] at h
  split at h
  case h_1 => cases h
  case h_2 role huse =>
    obtain rfl := TextReference.site.inj h
    exact ⟨by simp [huse], rfl, rfl⟩
  case h_3 huse =>
    obtain rfl := TextReference.site.inj h
    exact ⟨by simp [huse], rfl, rfl⟩

theorem attributesOf_field {c : ClassFile} {i : Nat} {m : Member} (h : c.fields[i]? = some m) :
    c.attributesOf (.field i) = m.attributes := by
  simp [attributesOf, h]

theorem attributesOf_method {c : ClassFile} {i : Nat} {m : Member} (h : c.methods[i]? = some m) :
    c.attributesOf (.method i) = m.attributes := by
  simp [attributesOf, h]

theorem holdsSite_of_mention {c : ClassFile} (owner : AttributeOwner) {s : NameSite}
    (h : site s ∈ inAttributes c.pool owner (c.attributesOf owner)) : c.HoldsSite s := by
  obtain ⟨position, a, m, ha, hm, hsite⟩ := mem_inAttributes h
  obtain ⟨huse, hlocation, -⟩ := ofMention_eq_site hsite
  rw [HoldsSite, hlocation]
  exact ⟨m, ⟨huse, a, ha, hm⟩, rfl, hsite⟩

theorem mem_inMembers {pool : ConstantPool} {owner : Nat → AttributeOwner}
    {descriptor : Nat → Location} {members : Array Member} {s : NameSite}
    (h : site s ∈ inMembers pool owner descriptor members) :
    ∃ i m, members[i]? = some m ∧ (s = ⟨descriptor i, m.descriptorIndex, .descriptor⟩ ∨
      site s ∈ inAttributes pool (owner i) m.attributes) := by
  obtain ⟨⟨m, i⟩, hm, hs⟩ := List.mem_flatMap.mp h
  have hget := List.mem_zipIdx_iff_getElem?.mp hm
  simp only [Array.getElem?_toList] at hget
  rcases List.mem_cons.mp hs with hs | hs
  · cases hs
  · rcases List.mem_cons.mp hs with hs | hs
    · exact ⟨i, m, hget, .inl (TextReference.site.inj hs)⟩
    · exact ⟨i, m, hget, .inr hs⟩

/-- The references of a class stand where their locations say. -/
theorem holdsSite_of_mem {c : ClassFile} (hcount : c.pool.count ≤ 65536) {s : NameSite}
    (h : site s ∈ c.references) : c.HoldsSite s := by
  simp only [references, List.mem_append] at h
  rcases h with ((h | h) | h) | h
  · obtain ⟨⟨i, k⟩, hk, hs⟩ := List.mem_flatMap.mp h
    rw [HoldsSite, location_of_ofConstant hs]
    exact ⟨k, mem_toList hcount hk, hs⟩
  · obtain ⟨i, m, hm, rfl | hs⟩ := mem_inMembers h
    · exact ⟨rfl, by simp [hm]⟩
    · exact holdsSite_of_mention (.field i) (by rwa [attributesOf_field hm])
  · obtain ⟨i, m, hm, rfl | hs⟩ := mem_inMembers h
    · exact ⟨rfl, by simp [hm]⟩
    · exact holdsSite_of_mention (.method i) (by rwa [attributesOf_method hm])
  · exact holdsSite_of_mention .theClass h

theorem HoldsSite.hasPlace {c : ClassFile} {s : NameSite} (h : c.HoldsSite s) :
    c.HasPlace s.location := by
  unfold HoldsSite at h
  cases hlocation : s.location with
  | attributeBody owner position offset =>
    rw [hlocation] at h
    obtain ⟨m, hm, hoffset, -⟩ := h
    exact ⟨m, hm, hoffset⟩
  | _ => trivial

theorem HoldsSite.unique {c : ClassFile} {s s' : NameSite} (h : c.HoldsSite s) (h' : c.HoldsSite s')
    (heq : s.location = s'.location) : s = s' := by
  obtain ⟨location, index, role⟩ := s
  obtain ⟨location', index', role'⟩ := s'
  obtain rfl : location = location' := heq
  cases location with
  | slot i =>
    obtain ⟨k, hk, hs⟩ := h
    obtain ⟨k', hk', hs'⟩ := h'
    obtain rfl : k = k' := Option.some.inj (hk.symm.trans hk')
    cases k <;> simp_all [ofConstant]
  | fieldDescriptor i =>
    obtain ⟨rfl, hindex⟩ : role = .descriptor ∧ _ := h
    obtain ⟨rfl, hindex'⟩ : role' = .descriptor ∧ _ := h'
    obtain rfl : index = index' := Option.some.inj (hindex.symm.trans hindex')
    rfl
  | methodDescriptor i =>
    obtain ⟨rfl, hindex⟩ : role = .descriptor ∧ _ := h
    obtain ⟨rfl, hindex'⟩ : role' = .descriptor ∧ _ := h'
    obtain rfl : index = index' := Option.some.inj (hindex.symm.trans hindex')
    rfl
  | attributeBody owner position offset =>
    -- both mentions stand in one attribute, where no two mentions start at one offset
    obtain ⟨m, ⟨-, a, ha, hm⟩, rfl, hs⟩ := h
    obtain ⟨m', ⟨-, a', ha', hm'⟩, hoffset, hs'⟩ := h'
    obtain rfl : a = a' := Option.some.inj (ha.symm.trans ha')
    rw [mentions_eq] at hm hm'
    obtain rfl := mention_unique hm' hm hoffset
    exact TextReference.site.inj (hs.symm.trans hs')

end ClassFile

/-! ## Exchanged indices are exchanged in the references -/

namespace TextReference

/-- The reference after the indices at locations are exchanged. -/
def withIndex (changes : Location → Option UInt16) : TextReference → TextReference
  | pinned index => pinned index
  | site s => site { s with index := (changes s.location).getD s.index }

theorem ofMention_withIndex (owner : AttributeOwner) (position : Nat)
    (changes : Location → Option UInt16) (m : Mention) :
    ofMention owner position
        (m.withIndex fun offset => changes (.attributeBody owner position offset)) =
      (ofMention owner position m).withIndex changes := by
  obtain ⟨offset, index, use⟩ := m
  cases use <;> simp [ofMention, Mention.withIndex, withIndex]

theorem ofConstant_withIndex (changes : Location → Option UInt16) (i : UInt16) (k : Constant) :
    ofConstant (i, k.withIndex (changes (.slot i))) = (ofConstant (i, k)).map (withIndex changes) := by
  cases hchange : changes (.slot i) with
  | none => cases k <;> simp [ofConstant, Constant.withIndex, withIndex, hchange]
  | some index =>
    cases k <;> simp [ofConstant, Constant.withIndex, Constant.withText, withIndex, hchange]

end TextReference

open TextReference

theorem flatMap_zipIdx_mapIdx {α β : Type} {list : List α} {f : Nat → α → α}
    {g g' : α × Nat → List β} {h : β → β}
    (hitem : ∀ i a, list[i]? = some a → g' (f i a, i) = (g (a, i)).map h) :
    (list.mapIdx f).zipIdx.flatMap g' = (list.zipIdx.flatMap g).map h := by
  -- changing items keeps them at their positions
  have hzip : (list.mapIdx f).zipIdx = list.zipIdx.map fun x => (f x.2 x.1, x.2) := by
    apply List.ext_getElem?
    intro i
    simp only [List.getElem?_zipIdx, List.getElem?_mapIdx, List.getElem?_map, Option.map_map]
    cases list[i]? <;> simp
  rw [hzip, List.flatMap_map, List.map_flatMap, List.flatMap, List.flatMap]
  congr 1
  refine List.map_congr_left fun x hx => ?_
  exact hitem x.2 x.1 (List.mem_zipIdx_iff_getElem?.mp hx)

/-- An attribute's name, or the name of one nested in it. -/
def Attribute.UsesName (pool : ConstantPool) (a : Attribute) (name : UInt16) : Prop :=
  name = a.nameIndex ∨ (a.parts pool).NamesAttribute name

/-- The body with exchanged indices is cut as before. -/
theorem Attribute.parts_withIndices {pool pool' : ConstantPool} {a : Attribute}
    (hreadable : a.Readable pool) (hkinds : ∀ name, a.UsesName pool name → SameKind pool pool' name)
    (changes : Nat → Option UInt16) : (a.withIndices pool changes).Readable pool' ∧
      (a.withIndices pool changes).parts pool' = Layout.withIndices changes 0 (a.parts pool) := by
  refine Attribute.readable_of_layout ?_
  -- the exchanged body is similar to the old one, and the cut depends on nothing but that and on
  -- the kinds of the attributes that are named
  have hcut := (steadyCut pool pool' _).recut hreadable (similar_withIndices changes 0 (a.parts pool))
    (hkinds _ (.inl rfl)) fun name hname => hkinds name (.inr hname)
  rw [Attribute.layout, size_withIndices]
  exact hcut

theorem inAttributes_withIndices {pool pool' : ConstantPool} {owner : AttributeOwner}
    {attributes : Array Attribute} (hreadable : AllReadable pool attributes)
    (hkinds : ∀ a ∈ attributes.toList, ∀ name, a.UsesName pool name → SameKind pool pool' name)
    (changes : Location → Option UInt16) :
    inAttributes pool' owner (attributes.mapIdx fun i a =>
        a.withIndices pool fun offset => changes (.attributeBody owner i offset)) =
      (inAttributes pool owner attributes).map (withIndex changes) := by
  rw [inAttributes, inAttributes, Array.toList_mapIdx]
  refine flatMap_zipIdx_mapIdx fun i a ha => ?_
  have hmem := List.mem_of_getElem? ha
  obtain ⟨-, hparts⟩ := Attribute.parts_withIndices (hreadable a hmem) (hkinds a hmem)
    fun offset => changes (.attributeBody owner i offset)
  simp only [inAttribute, hparts, mentions_eq, mentionsAt_withIndices, List.map_map, List.map_cons]
  congr 1
  exact List.map_congr_left fun m _ => ofMention_withIndex owner i changes m

theorem allReadable_withIndices {pool pool' : ConstantPool} {attributes : Array Attribute}
    (hreadable : AllReadable pool attributes)
    (hkinds : ∀ a ∈ attributes.toList, ∀ name, a.UsesName pool name → SameKind pool pool' name)
    (changes : Nat → Nat → Option UInt16) :
    AllReadable pool' (attributes.mapIdx fun i a => a.withIndices pool (changes i)) := by
  intro a ha
  rw [Array.toList_mapIdx] at ha
  obtain ⟨i, hi, rfl⟩ := List.mem_mapIdx.mp ha
  have hmem := List.getElem_mem hi
  exact (Attribute.parts_withIndices (hreadable _ hmem) (hkinds _ hmem) _).1

theorem inMembers_withIndices {pool pool' : ConstantPool} {owner : Nat → AttributeOwner}
    {descriptor : Nat → Location} {members : Array Member}
    (hreadable : ∀ m ∈ members.toList, AllReadable pool m.attributes)
    (hkinds : ∀ m ∈ members.toList, ∀ a ∈ m.attributes.toList, ∀ name, a.UsesName pool name →
      SameKind pool pool' name) (changes : Location → Option UInt16) :
    inMembers pool' owner descriptor (members.mapIdx fun i m =>
        m.withIndices pool (changes (descriptor i))
          fun k offset => changes (.attributeBody (owner i) k offset)) =
      (inMembers pool owner descriptor members).map (withIndex changes) := by
  rw [inMembers, inMembers, Array.toList_mapIdx]
  refine flatMap_zipIdx_mapIdx fun i m hm => ?_
  have hmem := List.mem_of_getElem? hm
  simp only [inMember, Member.withIndices, List.map_cons]
  rw [inAttributes_withIndices (hreadable m hmem) (hkinds m hmem)]
  rfl

namespace ClassFile

/-- The name of an attribute of the class, of a member, or of one nested in such an attribute. -/
def UsesAttributeName (c : ClassFile) (name : UInt16) : Prop :=
  ∃ owner, ∃ a ∈ (c.attributesOf owner).toList, a.UsesName c.pool name

theorem references_pool (pool : ConstantPool) : pool.toList.flatMap ofConstant =
    pool.slots.toList.zipIdx.flatMap fun x => ofConstant (UInt16.ofNat x.2, x.1) := by
  rw [ConstantPool.toList, List.flatMap_map]

/-- Whoever owns an attribute, its name is used as the name of an attribute of the class. -/
theorem usesAttributeName_of_member {c : ClassFile} {members : Array Member}
    {owner : Nat → AttributeOwner}
    (howner : ∀ {i m}, members[i]? = some m → c.attributesOf (owner i) = m.attributes)
    {m : Member} (hm : m ∈ members.toList) {a : Attribute} (ha : a ∈ m.attributes.toList)
    {name : UInt16} (hname : a.UsesName c.pool name) : c.UsesAttributeName name := by
  obtain ⟨i, hi, rfl⟩ := List.getElem_of_mem hm
  have hget : members[i]? = some members.toList[i] := by
    rw [← Array.getElem?_toList, List.getElem?_eq_getElem hi]
  exact ⟨owner i, a, by rwa [howner hget], hname⟩

/-- **Exchanged indices are exchanged in the references.** The pool may be another one, provided its
slots refer to the same texts and the names of attributes stand for the same kinds. -/
theorem references_withIndices {c : ClassFile} {pool : ConstantPool}
    (hpool : pool.toList.flatMap ofConstant = c.pool.toList.flatMap ofConstant)
    (hreadable : c.Readable) (changes : Location → Option UInt16)
    (hkinds : ∀ name, c.UsesAttributeName name →
      SameKind c.pool (c.withIndices pool changes).pool name) :
    (c.withIndices pool changes).Readable ∧
      (c.withIndices pool changes).references = c.references.map (withIndex changes) := by
  have hfields (m) (hm : m ∈ c.fields.toList) (a) (ha : a ∈ m.attributes.toList) (name)
      (hname : a.UsesName c.pool name) : SameKind c.pool (c.withIndices pool changes).pool name :=
    hkinds name (usesAttributeName_of_member attributesOf_field hm ha hname)
  have hmethods (m) (hm : m ∈ c.methods.toList) (a) (ha : a ∈ m.attributes.toList) (name)
      (hname : a.UsesName c.pool name) : SameKind c.pool (c.withIndices pool changes).pool name :=
    hkinds name (usesAttributeName_of_member attributesOf_method hm ha hname)
  have hattributes (a) (ha : a ∈ c.attributes.toList) (name) (hname : a.UsesName c.pool name) :
      SameKind c.pool (c.withIndices pool changes).pool name :=
    hkinds name ⟨.theClass, a, ha, hname⟩
  constructor
  · constructor
    · intro m hm
      obtain ⟨i, hi, rfl⟩ := List.mem_mapIdx.mp (Array.toList_mapIdx ▸ hm)
      have hmem := List.getElem_mem hi
      exact allReadable_withIndices (hreadable.fields _ hmem) (hfields _ hmem) _
    · intro m hm
      obtain ⟨i, hi, rfl⟩ := List.mem_mapIdx.mp (Array.toList_mapIdx ▸ hm)
      have hmem := List.getElem_mem hi
      exact allReadable_withIndices (hreadable.methods _ hmem) (hmethods _ hmem) _
    · exact allReadable_withIndices hreadable.attributes hattributes _
  · have hslots : (c.withIndices pool changes).pool.toList.flatMap ofConstant =
        (c.pool.toList.flatMap ofConstant).map (withIndex changes) := by
      rw [← hpool, references_pool, references_pool, withIndices, ConstantPool.withIndices,
        Array.toList_mapIdx]
      exact flatMap_zipIdx_mapIdx fun i k _ => ofConstant_withIndex changes (UInt16.ofNat i) k
    simp only [references, List.map_append, hslots]
    rw [← inMembers_withIndices hreadable.fields hfields,
      ← inMembers_withIndices hreadable.methods hmethods,
      ← inAttributes_withIndices hreadable.attributes hattributes]
    rfl

end ClassFile

end JvmRelocation
