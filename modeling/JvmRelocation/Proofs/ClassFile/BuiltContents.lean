import JvmRelocation.ClassFile.AnnotationTree
import JvmRelocation.Proofs.ClassFile.Interning

/-!
# What a builder holds

What a part of a class file has to do with texts depends on the constant pool alone: texts describe
a part if its indices resolve to them. A builder represents a class in texts if all that it holds is
described in the final pool. Every call takes a builder that represents the calls so far to one that
represents it as well, and so does a run of calls.
-/

namespace JvmRelocation

open BigEndian

/-! ## Parts of a class file that texts describe -/

/-- The element is the constant of an enumeration that the texts give. -/
def AnnotationElement.DescribedBy (pool : ConstantPool) (t : String × String × String)
    (e : AnnotationElement) : Prop :=
  pool.text? e.name = some t.1 ∧ ∃ type name, e.value = .enumConstant type name ∧
    pool.text? type = some t.2.1 ∧ pool.text? name = some t.2.2

/-- The annotation has the type and the elements that the texts give. -/
def AnnotationText.Describes (pool : ConstantPool) (t : AnnotationText) (a : AnnotationTree) : Prop :=
  pool.text? a.type = some t.type ∧
    List.Forall₂ (AnnotationElement.DescribedBy pool) t.elements a.elements

/-- The bytes are those of the entry of a local variable that lives in one instruction and has the
name, the descriptor and the slot given. -/
def IsLocalVariable (pool : ConstantPool) (v : (String × String) × Nat) (entry : Bytes) : Prop :=
  ∃ name descriptor, pool.text? name = some v.1.1 ∧ pool.text? descriptor = some v.1.2 ∧
    entry = bytes16 0 ++ bytes16 1 ++ bytes16 name ++ bytes16 descriptor ++
      bytes16 (UInt16.ofNat (v.2 + 1))

/-- The attribute is a table of the local variables with the given names and descriptors. -/
def Attribute.IsLocalVariableTable (pool : ConstantPool) (locals : List (String × String))
    (table : Attribute) : Prop :=
  pool.text? table.nameIndex = some "LocalVariableTable" ∧
    ∃ entries, List.Forall₂ (IsLocalVariable pool) locals.zipIdx entries ∧
      table.body.toList = countedBytes id entries

/-- The body of an attribute is the one that the texts give. -/
def AttributeText.DescribesBody (pool : ConstantPool) (body : Bytes) : AttributeText → Prop
  | value _ text => ∃ index, pool.text? index = some text ∧ body = bytes16 index
  | bytes _ given => body = given
  | code maxStack maxLocals instructions tables =>
    ∃ list, List.Forall₂ (Attribute.IsLocalVariableTable pool) tables list ∧
      body = ClassBuilder.codeBody maxStack maxLocals instructions list
  | annotations _ list => ∃ trees, List.Forall₂ (AnnotationText.Describes pool) list trees ∧
      body = AnnotationTree.bodyBytes trees

/-- The attribute has the name and the body that the texts give. -/
def AttributeText.Describes (pool : ConstantPool) (t : AttributeText) (a : Attribute) : Prop :=
  pool.text? a.nameIndex = some t.name ∧ t.DescribesBody pool a.body.toList

/-- The member has the name, the descriptor and the attributes that the texts give. -/
structure MemberText.Describes (pool : ConstantPool) (t : MemberText) (m : Member) : Prop where
  access : m.access = ClassBuilder.publicFlag
  name : pool.text? m.nameIndex = some t.name
  descriptor : pool.text? m.descriptorIndex = some t.descriptor
  attributes : List.Forall₂ (AttributeText.Describes pool) t.attributes m.attributes.toList

/-- The index that a call answers resolves to the texts of the call. -/
def BuildCall.Resolves (pool : ConstantPool) : BuildCall → Option UInt16 → Prop
  | utf8 value, answer => ∃ index, answer = some index ∧ pool.text? index = some value
  | classRef name, answer => ∃ index, answer = some index ∧ pool.className index = .ok name
  | stringConstant value, answer => ∃ index, answer = some index ∧
      ∃ text, pool.get? index = some (.stringLiteral text) ∧ pool.text? text = some value
  | methodRef owner name descriptor, answer => ∃ index, answer = some index ∧
      ∃ ownerIndex nameAndType nameIndex descriptorIndex,
        pool.get? index = some (.methodRef ownerIndex nameAndType) ∧
        pool.className ownerIndex = .ok owner ∧
        pool.get? nameAndType = some (.nameAndType nameIndex descriptorIndex) ∧
        pool.text? nameIndex = some name ∧ pool.text? descriptorIndex = some descriptor
  | _, answer => answer = none

namespace ClassBuilder

variable {P : ConstantPool} {α : Type}

/-! ## Steps that make a part -/

theorem interns_textBytes {value : String} (hshort : IsShortText value) :
    Interns P (textBytes value) fun body => ∃ index, P.text? index = some value ∧
      body = bytes16 index :=
  (interns_text hshort).map bytes16

theorem interns_namedAttribute {name : String} {body : BuildStep Bytes} {means : Bytes → Prop}
    (hname : IsShortText name) (hbody : Interns P body means) :
    Interns P (namedAttribute name body) fun a =>
      P.text? a.nameIndex = some name ∧ means a.body.toList := by
  refine ((interns_text hname).bind fun nameIndex =>
    hbody.map fun bytes => (⟨nameIndex, bytes.toArray⟩ : Attribute)).weaken ?_
  rintro _ ⟨nameIndex, hindex, bytes, hbytes, rfl⟩
  exact ⟨hindex, hbytes⟩

theorem interns_textAttribute {name text : String} (hname : IsShortText name)
    (htext : IsShortText text) :
    Interns P (namedAttribute name (textBytes text)) ((AttributeText.value name text).Describes P) :=
  interns_namedAttribute hname (interns_textBytes htext)

theorem interns_member {name descriptor : String} {attributes : BuildStep (List Attribute)}
    {texts : List AttributeText} (hname : IsShortText name) (hdescriptor : IsShortText descriptor)
    (hattributes : Interns P attributes (List.Forall₂ (AttributeText.Describes P) texts)) :
    Interns P (member name descriptor attributes)
      ((⟨name, descriptor, texts⟩ : MemberText).Describes P) := by
  refine ((interns_text hname).bind fun i => (interns_text hdescriptor).bind fun j =>
    hattributes.map fun list => (⟨publicFlag, i, j, list.toArray⟩ : Member)).weaken ?_
  rintro _ ⟨i, hi, j, hj, list, hlist, rfl⟩
  exact ⟨rfl, hi, hj, hlist⟩

theorem interns_plainMember {name descriptor : String} (hname : IsShortText name)
    (hdescriptor : IsShortText descriptor) :
    Interns P (member name descriptor (pure []))
      ((⟨name, descriptor, []⟩ : MemberText).Describes P) := by
  refine interns_member hname hdescriptor ((interns_pure []).weaken ?_)
  rintro _ rfl
  exact .nil

/-- A member with a single attribute. -/
theorem interns_memberWith {name descriptor : String} {a : BuildStep Attribute}
    {text : AttributeText} (hname : IsShortText name) (hdescriptor : IsShortText descriptor)
    (ha : Interns P a (text.Describes P)) :
    Interns P (member name descriptor do return [← a])
      ((⟨name, descriptor, [text]⟩ : MemberText).Describes P) := by
  refine interns_member hname hdescriptor ((ha.map fun a => [a]).weaken ?_)
  rintro _ ⟨a, ha, rfl⟩
  exact .cons ha .nil

theorem interns_localVariable {v : (String × String) × Nat} (hname : IsShortText v.1.1)
    (hdescriptor : IsShortText v.1.2) : Interns P (localVariable v) (IsLocalVariable P v) := by
  refine ((interns_text hname).bind fun i => (interns_text hdescriptor).map fun j => _).weaken ?_
  rintro _ ⟨i, hi, j, hj, rfl⟩
  exact ⟨i, j, hi, hj, rfl⟩

theorem interns_localVariableTable {locals : List (String × String)}
    (hshort : ∀ v ∈ locals, ∀ t ∈ [v.1, v.2], IsShortText t) :
    Interns P (localVariableTable locals) (Attribute.IsLocalVariableTable P locals) := by
  have hentries : ∀ v ∈ locals.zipIdx, Interns P (localVariable v) (IsLocalVariable P v) := by
    intro v hv
    have htexts := hshort v.1 (List.fst_mem_of_mem_zipIdx hv)
    exact interns_localVariable (htexts _ (by simp)) (htexts _ (by simp))
  have hname : IsShortText "LocalVariableTable" := by decide +kernel
  refine ((interns_mapM hentries).bind fun entries => (interns_text hname).map fun i => _).weaken ?_
  rintro _ ⟨entries, hlist, i, hi, rfl⟩
  refine ⟨hi, entries, hlist, ?_⟩
  rw [countedBytes, ← hlist.length_eq, List.length_zipIdx, List.flatMap_id]

theorem interns_code (maxStack maxLocals : UInt16) (code : Bytes) :
    Interns P (namedAttribute "Code" (pure (codeBody maxStack maxLocals code [])))
      ((AttributeText.code maxStack maxLocals code []).Describes P) := by
  have hname : IsShortText "Code" := by decide +kernel
  refine (interns_namedAttribute hname (interns_pure _)).weaken ?_
  rintro a ⟨ha, hbody⟩
  exact ⟨ha, [], .nil, hbody⟩

theorem interns_codeWithLocals (maxStack maxLocals : UInt16) (code : Bytes)
    {locals : List (String × String)}
    (hshort : ∀ v ∈ locals, ∀ t ∈ [v.1, v.2], IsShortText t) :
    Interns P (do
      let table ← localVariableTable locals
      namedAttribute "Code" (pure (codeBody maxStack maxLocals code [table])))
      ((AttributeText.code maxStack maxLocals code [locals]).Describes P) := by
  have hname : IsShortText "Code" := by decide +kernel
  refine ((interns_localVariableTable hshort).bind fun table =>
    interns_namedAttribute hname (interns_pure _)).weaken ?_
  rintro a ⟨table, htable, ha, hbody⟩
  exact ⟨ha, [table], .cons htable .nil, hbody⟩

theorem interns_bareAnnotationBytes {descriptor : String} (hshort : IsShortText descriptor) :
    Interns P (bareAnnotationBytes descriptor) fun body =>
      ∃ a, AnnotationText.Describes P ⟨descriptor, []⟩ a ∧ body = a.toBytes := by
  refine ((interns_textBytes hshort).map fun bytes => bytes ++ bytes16 0).weaken ?_
  rintro _ ⟨_, ⟨index, hindex, rfl⟩, rfl⟩
  exact ⟨⟨index, []⟩, ⟨hindex, .nil⟩, by simp [AnnotationTree.toBytes, AnnotationElement.listToBytes]⟩

theorem interns_enumAnnotationBytes {descriptor element enumDescriptor constant : String}
    (hdescriptor : IsShortText descriptor) (helement : IsShortText element)
    (henum : IsShortText enumDescriptor) (hconstant : IsShortText constant) :
    Interns P (do
      let type ← textBytes descriptor
      let name ← textBytes element
      let enumType ← textBytes enumDescriptor
      let value ← textBytes constant
      return type ++ bytes16 1 ++ name ++ [UInt8.ofNat 'e'.toNat] ++ enumType ++ value) fun body =>
      ∃ a, AnnotationText.Describes P ⟨descriptor, [(element, enumDescriptor, constant)]⟩ a ∧
        body = a.toBytes := by
  refine ((interns_textBytes hdescriptor).bind fun type => (interns_textBytes helement).bind
    fun name => (interns_textBytes henum).bind fun enumType =>
      (interns_textBytes hconstant).map fun value =>
        type ++ bytes16 1 ++ name ++ [UInt8.ofNat 'e'.toNat] ++ enumType ++ value).weaken ?_
  rintro _ ⟨_, ⟨i, hi, rfl⟩, _, ⟨j, hj, rfl⟩, _, ⟨k, hk, rfl⟩, _, ⟨l, hl, rfl⟩, rfl⟩
  refine ⟨⟨i, [⟨j, .enumConstant k l⟩]⟩, ⟨hi, .cons ⟨hj, k, l, rfl, hk, hl⟩ .nil⟩, ?_⟩
  simp [AnnotationTree.toBytes, AnnotationElement.listToBytes, ElementValue.letter,
    ElementValue.content, Char.toUInt8]

/-! ## Builders that represent a class in texts -/

/-- The bodies are those of the annotations that the texts give, and if there are any, the name of
their attribute is a text of the pool. -/
def Applies (P : ConstantPool) (name : String) (list : List AnnotationText) (bodies : List Bytes) :
    Prop :=
  (list ≠ [] → ∃ index, P.text? index = some name) ∧
    ∃ trees, List.Forall₂ (AnnotationText.Describes P) list trees ∧
      bodies = trees.map AnnotationTree.toBytes

/-- All that a builder holds besides its constants is what the texts give. -/
structure Represents (P : ConstantPool) (name : String) (t : ClassText) (b : ClassBuilder) :
    Prop where
  version : b.majorVersion = t.majorVersion
  thisClass : P.className b.thisClass = .ok name
  superClass : P.className b.superClass = .ok t.superName
  interfaces : List.Forall₂ (fun interface i => P.className i = .ok interface) t.interfaces
    b.interfaces
  fields : List.Forall₂ (MemberText.Describes P) t.fields b.fields
  methods : List.Forall₂ (MemberText.Describes P) t.methods b.methods
  attributes : List.Forall₂ (AttributeText.Describes P) t.attributes b.attributes
  visible : Applies P visibleName t.visible b.visible
  invisible : Applies P invisibleName t.invisible b.invisible

theorem Represents.withConstants {name : String} {t : ClassText} {b : ClassBuilder}
    (h : b.Represents P name t) (other : ClassBuilder) :
    (b.withConstants other).Represents P name t :=
  { h with }

theorem Interns.represents {s : BuildStep α} {means : α → Prop} {name : String} {t : ClassText}
    {b : ClassBuilder} (hs : Interns P s means) (h : b.Represents P name t) :
    (s.after b).Represents P name t :=
  hs.frame b ▸ h.withConstants _

theorem Applies.append {name : String} {list : List AnnotationText} {bodies : List Bytes}
    {text : AnnotationText} {body : Bytes} (h : Applies P name list bodies)
    (hname : ∃ index, P.text? index = some name)
    (hbody : ∃ a, text.Describes P a ∧ body = a.toBytes) :
    Applies P name (list ++ [text]) (bodies ++ [body]) := by
  obtain ⟨-, trees, htrees, rfl⟩ := h
  obtain ⟨a, ha, rfl⟩ := hbody
  exact ⟨fun _ => hname, trees ++ [a], List.rel_append htrees (.cons ha .nil), by simp⟩

end ClassBuilder

/-- A class in texts with what a call says about it. -/
def ClassText.add (t : ClassText) (call : BuildCall) : ClassText :=
  match call with
  | .majorVersion major => { t with majorVersion := major }
  | .superClass name => { t with superName := name }
  | .interface name => { t with interfaces := t.interfaces ++ [name] }
  | .field .. | .fieldWithSignature .. => { t with fields := t.fields ++ call.field?.toList }
  | .method .. | .methodWithCode .. | .methodWithLocals .. =>
    { t with methods := t.methods ++ call.method?.toList }
  | .sourceFile _ | .classSignature _ | .rawClassAttribute .. =>
    { t with attributes := t.attributes ++ call.attribute?.toList }
  | .annotate _ | .annotateWithEnum .. =>
    { t with visible := t.visible ++ call.visible?.toList }
  | .annotateInvisibly _ => { t with invisible := t.invisible ++ call.invisible?.toList }
  | .stringConstant _ | .classRef _ | .methodRef .. | .utf8 _ => t

theorem ClassText.ofCalls_append (calls : List BuildCall) (call : BuildCall) :
    ofCalls (calls ++ [call]) = (ofCalls calls).add call := by
  cases call <;> simp [ofCalls, add, BuildCall.major?, BuildCall.superName?, BuildCall.interface?,
    BuildCall.field?, BuildCall.method?, BuildCall.attribute?, BuildCall.visible?,
    BuildCall.invisible?]

namespace ClassBuilder

variable {P : ConstantPool} {α : Type} {name : String}

/-- What a call does to a builder, seen from the final pool: it adds constants, and the builder
represents the class with what the call says about it. -/
structure Performs (P : ConstantPool) (name : String) (call : BuildCall) : Prop where
  grows : ∀ b, b.slots.toList <+: (call.perform.after b).slots.toList
  sound : ∀ b t, b.Interned P → b.Represents P name t → (call.perform.after b).Within P →
    (call.perform.after b).Interned P ∧ (call.perform.after b).Represents P name (t.add call) ∧
      call.Resolves P (call.perform.result b)

/-- A call whose index is its answer. -/
theorem Interns.answers {call : BuildCall} {s : BuildStep UInt16} {means : UInt16 → Prop}
    (h : Interns P s means) (hperform : call.perform = BuildCall.answering s)
    (hadd : ∀ t : ClassText, t.add call = t)
    (hresolves : ∀ index, means index → call.Resolves P (some index)) : Performs P name call where
  grows b := hperform ▸ h.grows b
  sound b t hb ht hwithin := by
    rw [hperform] at hwithin ⊢
    obtain ⟨hafter, hmeans⟩ := h.sound b hb hwithin
    exact ⟨hafter, (hadd t).symm ▸ h.represents ht, hresolves _ hmeans⟩

/-- A call that adds constants for a part and then the part. -/
theorem Interns.records {call : BuildCall} {s : BuildStep α} {means : α → Prop}
    (h : Interns P s means) (record : α → ClassBuilder → ClassBuilder)
    (hperform : call.perform = BuildCall.silently (do
      let a ← s
      modify (record a)))
    (hconstants : ∀ a b, record a b = (record a b).withConstants b)
    (hrecord : ∀ a b t, means a → b.Represents P name t → (record a b).Represents P name (t.add call))
    (hresolves : call.Resolves P none) : Performs P name call where
  grows b := by
    rw [hperform]
    change b.slots.toList <+: (record (s.result b) (s.after b)).slots.toList
    rw [hconstants]
    exact h.grows b
  sound b t hb ht hwithin := by
    rw [hperform] at hwithin ⊢
    change (record (s.result b) (s.after b)).Within P at hwithin
    change (record (s.result b) (s.after b)).Interned P ∧ _ ∧ call.Resolves P none
    have hslots := hconstants (s.result b) (s.after b)
    rw [hslots] at hwithin
    obtain ⟨hafter, hmeans⟩ := h.sound b hb hwithin
    exact ⟨hslots ▸ hafter.withConstants _, hrecord _ _ t hmeans (h.represents ht), hresolves⟩

theorem Interns.adds_field {call : BuildCall} {m : BuildStep Member} {text : MemberText}
    (h : Interns P m (text.Describes P)) (hperform : call.perform = BuildCall.silently (pushField m))
    (hadd : ∀ t : ClassText, t.add call = { t with fields := t.fields ++ [text] })
    (hresolves : call.Resolves P none) : Performs P name call := by
  refine h.records (fun m b => { b with fields := b.fields ++ [m] }) hperform (fun _ _ => rfl) ?_
    hresolves
  intro m b t hm ht
  rw [hadd]
  exact { ht with fields := List.rel_append ht.fields (.cons hm .nil) }

theorem Interns.adds_method {call : BuildCall} {m : BuildStep Member} {text : MemberText}
    (h : Interns P m (text.Describes P))
    (hperform : call.perform = BuildCall.silently (pushMethod m))
    (hadd : ∀ t : ClassText, t.add call = { t with methods := t.methods ++ [text] })
    (hresolves : call.Resolves P none) : Performs P name call := by
  refine h.records (fun m b => { b with methods := b.methods ++ [m] }) hperform (fun _ _ => rfl) ?_
    hresolves
  intro m b t hm ht
  rw [hadd]
  exact { ht with methods := List.rel_append ht.methods (.cons hm .nil) }

theorem Interns.adds_attribute {call : BuildCall} {a : BuildStep Attribute} {text : AttributeText}
    (h : Interns P a (text.Describes P))
    (hperform : call.perform = BuildCall.silently (pushAttribute a))
    (hadd : ∀ t : ClassText, t.add call = { t with attributes := t.attributes ++ [text] })
    (hresolves : call.Resolves P none) : Performs P name call := by
  refine h.records (fun a b => { b with attributes := b.attributes ++ [a] }) hperform
    (fun _ _ => rfl) ?_ hresolves
  intro a b t ha ht
  rw [hadd]
  exact { ht with attributes := List.rel_append ht.attributes (.cons ha .nil) }

/-- A call that adds an annotation adds the name of its attribute first. -/
theorem Interns.adds_visible {call : BuildCall} {body : BuildStep Bytes} {text : AnnotationText}
    (h : Interns P body fun bytes => ∃ a, text.Describes P a ∧ bytes = a.toBytes)
    (hperform : call.perform = BuildCall.silently (do
      discard (ClassBuilder.text visibleName)
      let body ← body
      modify fun b => { b with visible := b.visible ++ [body] }))
    (hadd : ∀ t : ClassText, t.add call = { t with visible := t.visible ++ [text] })
    (hresolves : call.Resolves P none) : Performs P name call := by
  have hname : IsShortText visibleName := by decide +kernel
  refine ((interns_text hname).bind fun _ => h).records
    (fun body b => { b with visible := b.visible ++ [body] }) hperform (fun _ _ => rfl) ?_ hresolves
  intro body b t ⟨index, hindex, hbody⟩ ht
  rw [hadd]
  exact { ht with visible := ht.visible.append ⟨index, hindex⟩ hbody }

theorem Interns.adds_invisible {call : BuildCall} {body : BuildStep Bytes} {text : AnnotationText}
    (h : Interns P body fun bytes => ∃ a, text.Describes P a ∧ bytes = a.toBytes)
    (hperform : call.perform = BuildCall.silently (do
      discard (ClassBuilder.text invisibleName)
      let body ← body
      modify fun b => { b with invisible := b.invisible ++ [body] }))
    (hadd : ∀ t : ClassText, t.add call = { t with invisible := t.invisible ++ [text] })
    (hresolves : call.Resolves P none) : Performs P name call := by
  have hname : IsShortText invisibleName := by decide +kernel
  refine ((interns_text hname).bind fun _ => h).records
    (fun body b => { b with invisible := b.invisible ++ [body] }) hperform (fun _ _ => rfl) ?_
    hresolves
  intro body b t ⟨index, hindex, hbody⟩ ht
  rw [hadd]
  exact { ht with invisible := ht.invisible.append ⟨index, hindex⟩ hbody }

/-- Every call that is given short texts only does what it says. -/
theorem performs {call : BuildCall} (hshort : ∀ t ∈ call.texts, IsShortText t) :
    Performs P name call := by
  have hsignature : IsShortText "Signature" := by decide +kernel
  have hsource : IsShortText "SourceFile" := by decide +kernel
  cases call <;> simp only [BuildCall.texts, List.forall_mem_cons] at hshort
  case majorVersion major =>
    exact (interns_pure ()).records (fun _ b => { b with majorVersion := major }) rfl
      (fun _ _ => rfl) (fun _ _ _ _ h => { h with version := rfl }) rfl
  case superClass super =>
    exact (interns_classRef hshort.1).records (fun i b => { b with superClass := i }) rfl
      (fun _ _ => rfl) (fun _ _ _ hi h => { h with superClass := hi }) rfl
  case interface interface =>
    exact (interns_classRef hshort.1).records
      (fun i b => { b with interfaces := b.interfaces ++ [i] }) rfl (fun _ _ => rfl)
      (fun _ _ _ hi h => { h with interfaces := List.rel_append h.interfaces (.cons hi .nil) }) rfl
  case field name descriptor =>
    obtain ⟨hname, hdescriptor, -⟩ := hshort
    exact (interns_plainMember hname hdescriptor).adds_field rfl (fun _ => rfl) rfl
  case fieldWithSignature name descriptor signature =>
    obtain ⟨hname, hdescriptor, htext, -⟩ := hshort
    exact (interns_memberWith hname hdescriptor (interns_textAttribute hsignature htext)).adds_field
      rfl (fun _ => rfl) rfl
  case method name descriptor =>
    obtain ⟨hname, hdescriptor, -⟩ := hshort
    exact (interns_plainMember hname hdescriptor).adds_method rfl (fun _ => rfl) rfl
  case methodWithCode name descriptor maxStack maxLocals code =>
    obtain ⟨hname, hdescriptor, -⟩ := hshort
    exact (interns_memberWith hname hdescriptor (interns_code maxStack maxLocals code)).adds_method
      rfl (fun _ => rfl) rfl
  case methodWithLocals name descriptor locals =>
    obtain ⟨hname, hdescriptor, hlocals⟩ := hshort
    exact (interns_memberWith hname hdescriptor (interns_codeWithLocals 1
      (UInt16.ofNat (locals.length + 1)) [0xB1] (List.forall_mem_flatMap.mp hlocals))).adds_method rfl
      (fun _ => rfl) rfl
  case annotate descriptor =>
    exact (interns_bareAnnotationBytes hshort.1).adds_visible rfl (fun _ => rfl) rfl
  case annotateInvisibly descriptor =>
    exact (interns_bareAnnotationBytes hshort.1).adds_invisible rfl (fun _ => rfl) rfl
  case annotateWithEnum descriptor element enumDescriptor constant =>
    obtain ⟨hdescriptor, helement, henum, hconstant, -⟩ := hshort
    exact (interns_enumAnnotationBytes hdescriptor helement henum hconstant).adds_visible rfl
      (fun _ => rfl) rfl
  case sourceFile name =>
    exact (interns_textAttribute hsource hshort.1).adds_attribute rfl (fun _ => rfl) rfl
  case classSignature signature =>
    exact (interns_textAttribute hsignature hshort.1).adds_attribute rfl (fun _ => rfl) rfl
  case rawClassAttribute name body =>
    exact (interns_namedAttribute hshort.1 (interns_pure body)).adds_attribute rfl (fun _ => rfl) rfl
  case stringConstant value =>
    exact (interns_literal hshort.1).answers rfl (fun _ => rfl) fun i hi => ⟨i, rfl, hi⟩
  case classRef name =>
    exact (interns_classRef hshort.1).answers rfl (fun _ => rfl) fun i hi => ⟨i, rfl, hi⟩
  case methodRef owner name descriptor =>
    obtain ⟨howner, hname, hdescriptor, -⟩ := hshort
    exact (interns_methodRef howner hname hdescriptor).answers rfl (fun _ => rfl)
      fun i hi => ⟨i, rfl, hi⟩
  case utf8 value =>
    exact (interns_text hshort.1).answers rfl (fun _ => rfl) fun i hi => ⟨i, rfl, hi⟩

/-! ## Runs of calls -/

theorem interned_blank (hroom : P.count ≤ ConstantPool.maxCount) (hwithin : blank.Within P) :
    blank.Interned P := by
  have hzero : P.get? 0 = some .unusable := by
    obtain ⟨more, hmore⟩ := hwithin
    rw [ConstantPool.get?_eq, ← hmore]
    rfl
  refine ⟨hroom, hwithin, ⟨Nat.one_pos, hzero⟩, ?_, ?_, nofun, nofun⟩
  · intro i k hpos hlt
    exact absurd hlt (Nat.not_lt.mpr hpos)
  · intro t i
    refine ⟨nofun, fun ⟨hlt, ht⟩ => ?_⟩
    obtain rfl : i = 0 := UInt16.toNat_inj.mp (Nat.lt_one_iff.mp hlt)
    obtain ⟨bytes, hbytes, -⟩ := ConstantPool.utf8Bytes_of_text? ht
    rw [ConstantPool.utf8Bytes_eq_ok, hzero] at hbytes
    cases hbytes

/-- A new builder represents a class of which nothing was said. -/
theorem represents_new (hroom : P.count ≤ ConstantPool.maxCount) (hname : IsShortText name)
    (hwithin : (new name).Within P) :
    (new name).Interned P ∧ (new name).Represents P name (.ofCalls []) := by
  have hobject : IsShortText "java/lang/Object" := by decide +kernel
  let steps : BuildStep (UInt16 × UInt16) := do
    return (← classRef name, ← classRef "java/lang/Object")
  have hsteps : Interns P steps fun classes => ∃ i, P.className i = .ok name ∧
      ∃ j, P.className j = .ok "java/lang/Object" ∧ classes = (i, j) :=
    (interns_classRef hname).bind fun i => (interns_classRef hobject).map fun j => (i, j)
  obtain ⟨hinterned, i, hi, j, hj, hclasses⟩ :=
    hsteps.sound blank (interned_blank hroom ((hsteps.grows blank).trans hwithin)) hwithin
  have hnew : new name = { steps.after blank with
      thisClass := (steps.result blank).1
      superClass := (steps.result blank).2 } := rfl
  refine ⟨{ hinterned with }, ?_⟩
  rw [hnew, hsteps.frame, hclasses]
  exact { version := rfl, thisClass := hi, superClass := hj, interfaces := .nil, fields := .nil,
          methods := .nil, attributes := .nil, visible := ⟨nofun, [], .nil, rfl⟩,
          invisible := ⟨nofun, [], .nil, rfl⟩ }

/-- Calls only add constants, and they say one after another what the builder represents in the end.
The answers of all of them resolve in the final pool. -/
theorem run_performs {calls : List BuildCall} (hcalls : ∀ call ∈ calls, Performs P name call) :
    (∀ b, b.slots.toList <+: (BuildStep.after (calls.mapM BuildCall.perform) b).slots.toList) ∧
      ∀ b said, b.Interned P → b.Represents P name (.ofCalls said) →
        (BuildStep.after (calls.mapM BuildCall.perform) b).Within P →
          (BuildStep.after (calls.mapM BuildCall.perform) b).Interned P ∧
          (BuildStep.after (calls.mapM BuildCall.perform) b).Represents P name
            (.ofCalls (said ++ calls)) ∧
          List.Forall₂ (BuildCall.Resolves P) calls
            (BuildStep.result (calls.mapM BuildCall.perform) b) := by
  -- the final pool is the same for all calls, so nothing that an earlier call did has to be carried
  induction calls with
  | nil =>
    refine ⟨fun b => List.prefix_rfl, fun b said hb hsaid _ => ⟨hb, ?_, .nil⟩⟩
    rw [List.append_nil]
    exact hsaid
  | cons call calls ih =>
    obtain ⟨hcall, hrest⟩ := List.forall_mem_cons.mp hcalls
    obtain ⟨hgrows, hsound⟩ := ih hrest
    rw [List.mapM_cons]
    refine ⟨fun b => (hcall.grows b).trans (hgrows _), fun b said hb hsaid hwithin => ?_⟩
    obtain ⟨hb', hsaid', hanswer⟩ := hcall.sound b _ hb hsaid ((hgrows _).trans hwithin)
    rw [← ClassText.ofCalls_append] at hsaid'
    obtain ⟨hend, hall, hanswers⟩ := hsound _ _ hb' hsaid' hwithin
    rw [List.append_assoc] at hall
    exact ⟨hend, hall, .cons hanswer hanswers⟩

end ClassBuilder

end JvmRelocation
