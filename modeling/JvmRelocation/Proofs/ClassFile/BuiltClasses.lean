import Mathlib.Algebra.GroupWithZero.Nat
import JvmRelocation.Proofs.ClassFile.AppliedAnnotations
import JvmRelocation.Proofs.ClassFile.BuiltContents

/-!
# Built classes mean what their calls say

The class that a run of calls builds is read back, provided that the texts are short enough, the
numbers fit their fields and the name can be used as a path. What is read is described by what the
calls say, and so are the annotations that the class carries.
-/

namespace JvmRelocation

open BigEndian

/-! ## Lists that are described member by member -/

section Forall₂

variable {α β : Type} {R : α → β → Prop} {list : List α} {list' : List β}

theorem exists_mem_of_right (h : List.Forall₂ R list list') {b : β} (hb : b ∈ list') :
    ∃ a ∈ list, R a b :=
  exists_of_forall₂ h.flip hb

theorem filterMap_of_forall₂ {f : β → Option α} (h : List.Forall₂ (fun a b => f b = some a) list list') :
    list'.filterMap f = list := by
  induction h with
  | nil => rfl
  | cons hab _ ih => rw [List.filterMap_cons_some hab, ih]

/-- The length of described bytes one after another. -/
theorem length_flatMap_of_forall₂ {s : α → Nat} {w : β → Bytes} (h : List.Forall₂ R list list')
    (hsize : ∀ a b, R a b → (w b).length = s a) :
    (list'.flatMap w).length = (list.map s).sum := by
  induction h with
  | nil => rfl
  | cons hab _ ih =>
    rw [List.flatMap_cons, List.length_append, hsize _ _ hab, ih, List.map_cons, List.sum_cons]

end Forall₂

theorem length_flatMap_le {α : Type} {w : α → Bytes} {l : List α} {n : Nat}
    (h : ∀ a ∈ l, (w a).length ≤ n) : (l.flatMap w).length ≤ l.length * n := by
  induction l with
  | nil => exact Nat.zero_le _
  | cons a l ih =>
    obtain ⟨ha, hl⟩ := List.forall_mem_cons.mp h
    rw [List.flatMap_cons, List.length_append, List.length_cons, Nat.succ_mul, Nat.add_comm]
    exact Nat.add_le_add (ih hl) ha

/-! ## Lengths of what is described -/

theorem AnnotationText.Describes.length_toBytes {P : ConstantPool} {t : AnnotationText}
    {a : AnnotationTree} (h : t.Describes P a) : a.toBytes.length = 4 + 7 * t.elements.length := by
  obtain ⟨text, texts⟩ := t
  obtain ⟨type, elements⟩ := a
  obtain ⟨-, helements⟩ := h
  dsimp only at helements ⊢
  have hlist : (AnnotationElement.listToBytes elements).length = 7 * texts.length := by
    induction helements with
    | nil => rfl
    | @cons _ e _ _ he _ ih =>
      obtain ⟨name, value⟩ := e
      obtain ⟨-, i, j, rfl, -⟩ := he
      simp only [AnnotationElement.listToBytes, ElementValue.content, List.length_append,
        List.length_cons, length_bytes16, ih]
      omega
  simp only [AnnotationTree.toBytes, List.length_append, length_bytes16, hlist]
  omega

theorem AnnotationText.Describes.fits {P : ConstantPool} {t : AnnotationText} {a : AnnotationTree}
    (h : t.Describes P a) (hlength : t.elements.length < 65536) : a.Fits := by
  obtain ⟨text, texts⟩ := t
  obtain ⟨type, elements⟩ := a
  obtain ⟨-, helements⟩ := h
  refine ⟨helements.length_eq ▸ hlength, ?_⟩
  dsimp only at helements
  clear hlength
  induction helements with
  | nil => trivial
  | @cons _ e _ _ he _ ih =>
    obtain ⟨name, value⟩ := e
    obtain ⟨-, i, j, rfl, -⟩ := he
    exact ⟨trivial, ih⟩

theorem Attribute.IsLocalVariableTable.length_toBytes {P : ConstantPool}
    {locals : List (String × String)} {table : Attribute}
    (h : table.IsLocalVariableTable P locals) : table.toBytes.length = 8 + 10 * locals.length := by
  obtain ⟨-, entries, hentries, hbody⟩ := h
  have hlength := length_flatMap_of_forall₂ (s := fun _ => 10) (w := id) hentries ?_
  · have hsize := congrArg List.length hbody
    simp only [Array.length_toList, countedBytes, List.length_append, length_bytes16, hlength,
      List.map_const', List.sum_replicate_nat, List.length_zipIdx] at hsize
    simp only [Attribute.toBytes, List.length_append, length_bytes16, length_bytes32,
      Array.length_toList, hsize]
    omega
  · rintro v _ ⟨name, descriptor, -, -, rfl⟩
    rfl

/-- The numbers of an attribute fit their fields: 32 bits for the length of its body, 16 bits for the
number of its annotations and of their elements. -/
def AttributeText.Fits : AttributeText → Prop
  | value _ _ => True
  | bytes _ body => body.length < 4294967296
  | code _ _ instructions tables =>
    12 + instructions.length + (tables.map fun locals => 8 + 10 * locals.length).sum < 4294967296
  | annotations _ list => list.length < 65536 ∧ ∀ t ∈ list, t.elements.length ≤ 1

theorem AttributeText.Describes.storable {P : ConstantPool} {t : AttributeText} {a : Attribute}
    (h : t.Describes P a) (hfits : t.Fits) : a.Storable := by
  rw [Attribute.Storable, ← Array.length_toList]
  obtain ⟨-, hbody⟩ := h
  cases t with
  | value name text =>
    obtain ⟨index, -, hbytes⟩ := hbody
    rw [hbytes, length_bytes16]
    omega
  | bytes name body =>
    rw [show a.body.toList = body from hbody]
    exact hfits
  | code maxStack maxLocals instructions tables =>
    obtain ⟨list, hlist, hbytes⟩ := hbody
    have htables := length_flatMap_of_forall₂ hlist fun _ _ h => h.length_toBytes
    simp only [Fits] at hfits
    simp only [hbytes, ClassBuilder.codeBody, countedBytes, List.length_append, length_bytes16,
      length_bytes32, htables]
    omega
  | annotations name list =>
    obtain ⟨trees, htrees, hbytes⟩ := hbody
    obtain ⟨hcount, helements⟩ := hfits
    have hlength := length_flatMap_le (w := AnnotationTree.toBytes) (l := trees) (n := 11) ?_
    · rw [← htrees.length_eq] at hlength
      simp only [hbytes, AnnotationTree.bodyBytes, countedBytes, List.length_append, length_bytes16]
      omega
    · intro tree htree
      obtain ⟨t, ht, hdescribes⟩ := exists_mem_of_right htrees htree
      have hone := helements t ht
      rw [hdescribes.length_toBytes]
      omega

/-- Every number that the members of a class store fits its field. -/
theorem MemberText.Describes.storable {P : ConstantPool} {t : MemberText} {m : Member}
    (h : t.Describes P m) (hcount : t.attributes.length < 65536)
    (hfits : ∀ a ∈ t.attributes, a.Fits) : m.Storable := by
  refine ⟨h.attributes.length_eq ▸ hcount, fun a ha => ?_⟩
  obtain ⟨text, htext, hdescribes⟩ := exists_mem_of_right h.attributes ha
  exact hdescribes.storable (hfits text htext)

namespace BuildCall

/-- What a call adds to a class fits. -/
theorem member_fits {call : BuildCall} {t : MemberText} (h : call.NumbersFit)
    (ht : call.field? = some t ∨ call.method? = some t) :
    t.attributes.length < 65536 ∧ ∀ a ∈ t.attributes, a.Fits := by
  cases call <;> simp only [field?, method?, reduceCtorEq, or_false, false_or, or_self,
    Option.some.injEq] at ht <;> subst ht
  case field | fieldWithSignature | method => simp [AttributeText.Fits]
  case methodWithCode =>
    simp only [NumbersFit] at h
    simp only [List.length_singleton, List.mem_singleton, forall_eq, AttributeText.Fits,
      List.map_nil, List.sum_nil]
    omega
  case methodWithLocals =>
    simp only [NumbersFit] at h
    simp only [List.length_singleton, List.mem_singleton, forall_eq, AttributeText.Fits,
      List.map_cons, List.map_nil, List.sum_cons, List.sum_nil]
    omega

theorem attribute_fits {call : BuildCall} {t : AttributeText} (h : call.NumbersFit)
    (ht : call.attribute? = some t) : t.Fits := by
  cases call <;> simp only [attribute?, reduceCtorEq, Option.some.injEq] at ht <;> subst ht
  case rawClassAttribute => exact Nat.lt_succ_of_le h
  all_goals trivial

end BuildCall

/-! ## The finished class -/

theorem ConstantPool.filled_of_forall {list : List Constant}
    (h : ∀ k ∈ list, k.Storable ∧ k.isWide = false) : Filled list := by
  induction list with
  | nil => exact .nil
  | cons k list ih =>
    obtain ⟨⟨hk, hwide⟩, hlist⟩ := List.forall_mem_cons.mp h
    exact .narrow hk hwide (ih hlist)

namespace ClassBuilder

variable {b : ClassBuilder} {name : String} {t : ClassText}

/-- The pool of a finished class can be stored. -/
theorem Interned.wellFormed (h : b.Interned b.finish.pool) : b.finish.pool.WellFormed := by
  have hroom := h.room
  obtain ⟨hpos, hzero⟩ := h.zero
  refine ⟨?_, hroom⟩
  obtain ⟨first, rest, hslots⟩ := List.exists_cons_of_length_pos
    (show 0 < b.finish.pool.slots.toList.length from hpos)
  rw [ConstantPool.get?_eq, hslots] at hzero
  obtain rfl : first = .unusable := Option.some.inj hzero
  refine ⟨rest, hslots, ConstantPool.filled_of_forall fun k hk => ?_⟩
  obtain ⟨i, hi⟩ := List.mem_iff_getElem?.mp hk
  obtain ⟨hlt, -⟩ := List.getElem?_eq_some_iff.mp hi
  have hcount : b.finish.pool.count = rest.length + 1 := congrArg List.length hslots
  have hindex : (UInt16.ofNat (i + 1)).toNat = i + 1 := by
    rw [UInt16.toNat_ofNat', Nat.mod_eq_of_lt]
    simp only [ConstantPool.maxCount] at hroom
    omega
  have hget : b.finish.pool.get? (UInt16.ofNat (i + 1)) = some k := by
    rw [ConstantPool.get?_eq, hindex, hslots]
    exact hi
  have hk := h.entries _ k (by omega) (ConstantPool.lt_count_of_get? hget) hget
  exact ⟨hk.storable, hk.narrow⟩

/-- The text with an index is the one whose encoding the entry holds. -/
theorem Interned.text?_iff (h : b.Interned b.finish.pool) {i : UInt16} {s : String} :
    b.finish.pool.text? i = some s ↔
      b.finish.pool.utf8Bytes i = .ok (ModifiedUtf8.encode s) := by
  refine ⟨fun hs => ?_, ConstantPool.text?_encode⟩
  obtain ⟨bytes, hbytes, hdecode⟩ := ConstantPool.utf8Bytes_of_text? hs
  have hget := ConstantPool.utf8Bytes_eq_ok.mp hbytes
  have hpos : 0 < i.toNat := by
    refine Nat.pos_of_ne_zero fun hi => ?_
    rw [UInt16.toNat_inj.mp (hi.trans UInt16.toNat_zero.symm), h.zero.2] at hget
    cases hget
  obtain ⟨s', rfl⟩ := (h.entries i _ hpos (ConstantPool.lt_count_of_get? hget) hget).encoded _ rfl
  rw [ModifiedUtf8.decode_encode, Option.some.injEq] at hdecode
  rw [hbytes, hdecode]

/-- A text has one index. -/
theorem Interned.index_unique (h : b.Interned b.finish.pool) {i j : UInt16} {s : String}
    (hi : b.finish.pool.text? i = some s) (hj : b.finish.pool.text? j = some s) : i = j := by
  have hknown {k : UInt16} (hk : b.finish.pool.text? k = some s) : b.texts.get? s = some k := by
    obtain ⟨bytes, hbytes, -⟩ := ConstantPool.utf8Bytes_of_text? hk
    exact (h.texts s k).mpr
      ⟨ConstantPool.lt_count_of_get? (ConstantPool.utf8Bytes_eq_ok.mp hbytes), hk⟩
  exact Option.some.inj ((hknown hi).symm.trans (hknown hj))

/-- The attribute that applies annotations is there exactly if there are annotations. -/
theorem Applies.describes {n : String} {list : List AnnotationText} {bodies : List Bytes}
    (happlies : Applies b.finish.pool n list bodies) (h : b.Interned b.finish.pool) :
    List.Forall₂ (AttributeText.Describes b.finish.pool) (AttributeText.ofAnnotations n list)
      (b.annotationAttribute n bodies) := by
  obtain ⟨hname, trees, htrees, rfl⟩ := happlies
  cases htrees with
  | nil => exact .nil
  | @cons text tree texts trees htree htrees =>
    obtain ⟨index, hindex⟩ := hname (List.cons_ne_nil _ _)
    obtain ⟨bytes, hbytes, -⟩ := ConstantPool.utf8Bytes_of_text? hindex
    have hknown := (h.texts n index).mpr
      ⟨ConstantPool.lt_count_of_get? (ConstantPool.utf8Bytes_eq_ok.mp hbytes), hindex⟩
    simp only [annotationAttribute, List.map_cons, hknown]
    refine .cons ⟨hindex, tree :: trees, .cons htree htrees, ?_⟩ .nil
    simp [AnnotationTree.bodyBytes, countedBytes, List.flatMap]

theorem Represents.attributes_finish (hrep : b.Represents b.finish.pool name t)
    (h : b.Interned b.finish.pool) :
    List.Forall₂ (AttributeText.Describes b.finish.pool) t.allAttributes
      b.finish.attributes.toList :=
  List.rel_append (List.rel_append hrep.attributes (hrep.visible.describes h))
    (hrep.invisible.describes h)

end ClassBuilder

/-! ## Calls that fit -/

/-- The attributes of a class are its own and those for annotations, where there are any. -/
theorem ClassText.mem_allAttributes {t : ClassText} {a : AttributeText} : a ∈ t.allAttributes ↔
    a ∈ t.attributes ∨
      t.visible ≠ [] ∧ a = .annotations ClassBuilder.visibleName t.visible ∨
      t.invisible ≠ [] ∧ a = .annotations ClassBuilder.invisibleName t.invisible := by
  have hmem (n : String) (list : List AnnotationText) :
      a ∈ AttributeText.ofAnnotations n list ↔ list ≠ [] ∧ a = .annotations n list := by
    cases list <;> simp [AttributeText.ofAnnotations]
  rw [allAttributes, List.mem_append, List.mem_append, hmem, hmem, or_assoc]

namespace BuildCall

/-- Calls whose class the format can store: the texts are short enough, and all numbers fit their
fields. -/
structure Fit (name : String) (calls : List BuildCall) : Prop where
  shortName : IsShortText name
  texts : ∀ call ∈ calls, ∀ t ∈ call.texts, IsShortText t
  numbers : ∀ call ∈ calls, call.NumbersFit
  version : isSupportedVersion (ClassText.ofCalls calls).majorVersion = true
  slots : (builder name calls).slots.size ≤ 65535
  interfaces : (ClassText.ofCalls calls).interfaces.length ≤ 65535
  fields : (ClassText.ofCalls calls).fields.length ≤ 65535
  methods : (ClassText.ofCalls calls).methods.length ≤ 65535
  attributes : (ClassText.ofCalls calls).allAttributes.length ≤ 65535
  visible : (ClassText.ofCalls calls).visible.length ≤ 65535
  invisible : (ClassText.ofCalls calls).invisible.length ≤ 65535

variable {name : String} {calls : List BuildCall}

/-- Annotations have one element at most. -/
theorem length_elements_le {call : BuildCall} {t : AnnotationText}
    (h : call.visible? = some t ∨ call.invisible? = some t) : t.elements.length ≤ 1 := by
  cases call <;> simp only [visible?, invisible?, reduceCtorEq, or_false, false_or, or_self,
    Option.some.injEq] at h <;> subst h <;> simp

theorem Fit.attribute_fits (h : Fit name calls) {t : AttributeText}
    (ht : t ∈ (ClassText.ofCalls calls).allAttributes) : t.Fits := by
  rcases ClassText.mem_allAttributes.mp ht with ht | ⟨-, rfl⟩ | ⟨-, rfl⟩
  · obtain ⟨call, hcall, ht⟩ := List.mem_filterMap.mp ht
    exact BuildCall.attribute_fits (h.numbers call hcall) ht
  · refine ⟨Nat.lt_succ_of_le h.visible, fun t ht => ?_⟩
    obtain ⟨call, -, ht⟩ := List.mem_filterMap.mp ht
    exact length_elements_le (.inl ht)
  · refine ⟨Nat.lt_succ_of_le h.invisible, fun t ht => ?_⟩
    obtain ⟨call, -, ht⟩ := List.mem_filterMap.mp ht
    exact length_elements_le (.inr ht)

/-- The builder that calls lead to represents what they say, and their answers resolve. -/
theorem Fit.represents (h : Fit name calls) :
    (builder name calls).Interned (builder name calls).finish.pool ∧
      (builder name calls).Represents (builder name calls).finish.pool name (.ofCalls calls) ∧
      List.Forall₂ (Resolves (builder name calls).finish.pool) calls (answers name calls) := by
  have hcalls : ∀ call ∈ calls,
      ClassBuilder.Performs (builder name calls).finish.pool name call :=
    fun call hcall => ClassBuilder.performs (h.texts call hcall)
  obtain ⟨hgrows, hsound⟩ := ClassBuilder.run_performs hcalls
  obtain ⟨hinterned, hrep⟩ := ClassBuilder.represents_new (P := (builder name calls).finish.pool)
    h.slots h.shortName (hgrows (.new name))
  exact hsound _ [] hinterned hrep List.prefix_rfl

/-- The finished class can be stored, and its header resolves. -/
theorem Fit.wellFormed (h : Fit name calls) : (builder name calls).finish.WellFormed := by
  obtain ⟨hinterned, hrep, -⟩ := h.represents
  have hattributes := hrep.attributes_finish hinterned
  have hmembers {list : List MemberText} {members : List Member}
      (hlist : List.Forall₂ (MemberText.Describes (builder name calls).finish.pool) list members)
      (hcount : list.length ≤ 65535)
      (hcalls : ∀ t ∈ list, ∃ call ∈ calls, call.field? = some t ∨ call.method? = some t) :
      members.length < 65536 ∧ ∀ m ∈ members, m.Storable := by
    refine ⟨Nat.lt_succ_of_le (hlist.length_eq ▸ hcount), fun m hm => ?_⟩
    obtain ⟨t, ht, hdescribes⟩ := exists_mem_of_right hlist hm
    obtain ⟨call, hcall, ht⟩ := hcalls t ht
    obtain ⟨hlength, hfits⟩ := member_fits (h.numbers call hcall) ht
    exact hdescribes.storable hlength hfits
  refine
    { version := (congrArg isSupportedVersion hrep.version).trans h.version
      pool := hinterned.wellFormed
      interfaces := Nat.lt_succ_of_le (hrep.interfaces.length_eq ▸ h.interfaces)
      fields := hmembers hrep.fields h.fields fun t ht => ?_
      methods := hmembers hrep.methods h.methods fun t ht => ?_
      attributes := ⟨Nat.lt_succ_of_le (hattributes.length_eq ▸ h.attributes), fun a ha => ?_⟩ }
  · obtain ⟨call, hcall, ht⟩ := List.mem_filterMap.mp ht
    exact ⟨call, hcall, .inl ht⟩
  · obtain ⟨call, hcall, ht⟩ := List.mem_filterMap.mp ht
    exact ⟨call, hcall, .inr ht⟩
  · obtain ⟨t, ht, hdescribes⟩ := exists_mem_of_right hattributes ha
    exact hdescribes.storable (h.attribute_fits ht)

theorem Fit.resolveHeader (h : Fit name calls) (hpath : isPathName name = true) :
    (builder name calls).finish.resolveHeader = .ok name := by
  obtain ⟨-, hrep, -⟩ := h.represents
  refine ClassFile.resolveHeader_eq_ok.mpr ⟨hrep.thisClass, hpath, fun _ => ⟨_, hrep.superClass⟩, ?_⟩
  intro i hi
  obtain ⟨interface, -, hname⟩ := exists_mem_of_right hrep.interfaces hi
  exact ⟨interface, hname⟩

end BuildCall

/-! ## Annotations of a built class -/

/-- An attribute that applies described annotations applies those of the types that are given. -/
theorem AttributeText.Describes.applies_iff {b : ClassBuilder} {n : String}
    {list : List AnnotationText} {a : Attribute} (h : b.Interned b.finish.pool)
    (hdescribes : (annotations n list).Describes b.finish.pool a) (hfits : (annotations n list).Fits)
    (marker : String) :
    (∃ trees rest, AnnotationTree.BodyFits trees ∧
      a.body.toList = AnnotationTree.bodyBytes trees ++ rest ∧
        ∃ tree ∈ trees, b.finish.pool.utf8Bytes tree.type = .ok (ModifiedUtf8.encode marker)) ↔
      ∃ t ∈ list, t.type = marker := by
  obtain ⟨-, trees, htrees, hbody⟩ := hdescribes
  obtain ⟨hcount, helements⟩ := hfits
  have hbodyFits : AnnotationTree.BodyFits trees := by
    refine ⟨htrees.length_eq ▸ hcount, fun tree htree => ?_⟩
    obtain ⟨t, ht, htree⟩ := exists_mem_of_right htrees htree
    exact htree.fits (Nat.lt_of_le_of_lt (helements t ht) (by omega))
  constructor
  · rintro ⟨trees', rest, hfits', hbody', tree, htree, htype⟩
    obtain ⟨rfl, -⟩ := AnnotationTree.bodyBytes_unique hbodyFits hfits'
      ((List.append_nil _).trans (hbody.symm.trans hbody'))
    obtain ⟨t, ht, hdescribes⟩ := exists_mem_of_right htrees htree
    have hmarker := hdescribes.1.symm.trans (h.text?_iff.mpr htype)
    exact ⟨t, ht, Option.some.inj hmarker⟩
  · rintro ⟨t, ht, rfl⟩
    obtain ⟨tree, htree, hdescribes⟩ := exists_of_forall₂ htrees ht
    exact ⟨trees, [], hbodyFits, hbody.trans (List.append_nil _).symm, tree, htree,
      h.text?_iff.mp hdescribes.1⟩

namespace BuildCall

theorem annotationType?_eq_some {call : BuildCall} {marker : String} :
    call.annotationType? = some marker ↔
      ∃ t, (call.visible? = some t ∨ call.invisible? = some t) ∧ t.type = marker := by
  cases call <;> simp [annotationType?, visible?, invisible?]

variable {name : String} {calls : List BuildCall}

/-- A class carries the annotations that calls gave it, unless an attribute of its own has the name
of one that applies annotations. -/
theorem Fit.hasMarker_iff (h : Fit name calls)
    (hraw : ∀ n body, rawClassAttribute n body ∈ calls → n ∉ annotationAttributeNames)
    (marker : String) : (builder name calls).finish.hasMarker marker = true ↔
      ∃ call ∈ calls, call.annotationType? = some marker := by
  obtain ⟨hinterned, hrep, -⟩ := h.represents
  have hattributes := hrep.attributes_finish hinterned
  have hnames {t : AttributeText} {a : Attribute}
      (ht : t.Describes (builder name calls).finish.pool a) :
      (builder name calls).finish.pool.NamesAnnotations a.nameIndex ↔
        t.name ∈ annotationAttributeNames := by
    simp only [ConstantPool.NamesAnnotations, ← hinterned.text?_iff, ht.1, Option.some.injEq,
      exists_eq_right']
  have hown {t : AttributeText} (ht : t ∈ (ClassText.ofCalls calls).attributes) :
      t.name ∉ annotationAttributeNames := by
    obtain ⟨call, hcall, ht⟩ := List.mem_filterMap.mp ht
    cases call <;> simp only [attribute?, reduceCtorEq, Option.some.injEq] at ht <;> subst ht
    case rawClassAttribute n body => exact hraw n body hcall
    all_goals simp [AttributeText.name, annotationAttributeNames]
  rw [ClassFile.hasMarker_iff]
  constructor
  · rintro ⟨a, ha, hname, happlies⟩
    obtain ⟨t, ht, hdescribes⟩ := exists_mem_of_right hattributes (Array.mem_toList_iff.mpr ha)
    have hfits := h.attribute_fits ht
    rw [hnames hdescribes] at hname
    rcases ClassText.mem_allAttributes.mp ht with ht | ⟨-, rfl⟩ | ⟨-, rfl⟩
    · exact absurd hname (hown ht)
    · obtain ⟨t, ht, hmarker⟩ := (hdescribes.applies_iff hinterned hfits marker).mp happlies
      obtain ⟨call, hcall, ht⟩ := List.mem_filterMap.mp ht
      exact ⟨call, hcall, annotationType?_eq_some.mpr ⟨t, .inl ht, hmarker⟩⟩
    · obtain ⟨t, ht, hmarker⟩ := (hdescribes.applies_iff hinterned hfits marker).mp happlies
      obtain ⟨call, hcall, ht⟩ := List.mem_filterMap.mp ht
      exact ⟨call, hcall, annotationType?_eq_some.mpr ⟨t, .inr ht, hmarker⟩⟩
  · rintro ⟨call, hcall, hmarker⟩
    obtain ⟨t, ht, rfl⟩ := annotationType?_eq_some.mp hmarker
    have hgiven : ∃ n ∈ annotationAttributeNames, ∃ list, t ∈ list ∧
        .annotations n list ∈ (ClassText.ofCalls calls).allAttributes := by
      rcases ht with ht | ht
      · have hmem : t ∈ (ClassText.ofCalls calls).visible :=
          List.mem_filterMap.mpr ⟨call, hcall, ht⟩
        exact ⟨ClassBuilder.visibleName, by decide, _, hmem,
          ClassText.mem_allAttributes.mpr (.inr (.inl ⟨List.ne_nil_of_mem hmem, rfl⟩))⟩
      · have hmem : t ∈ (ClassText.ofCalls calls).invisible :=
          List.mem_filterMap.mpr ⟨call, hcall, ht⟩
        exact ⟨ClassBuilder.invisibleName, by decide, _, hmem,
          ClassText.mem_allAttributes.mpr (.inr (.inr ⟨List.ne_nil_of_mem hmem, rfl⟩))⟩
    obtain ⟨n, hn, list, ht, hlist⟩ := hgiven
    obtain ⟨a, ha, hdescribes⟩ := exists_of_forall₂ hattributes hlist
    exact ⟨a, Array.mem_toList_iff.mp ha, (hnames hdescribes).mpr hn,
      (hdescribes.applies_iff hinterned (h.attribute_fits hlist) _).mpr ⟨t, ht, rfl⟩⟩

end BuildCall

/-- **A built class means what the calls say.** Calls in any order on a class whose name can be used
as a path, that keep texts and numbers within their fields, lead to a class that is read back: with
the name given, the version and superclass set last, the interfaces, members and attributes added in
the order of the calls, and every index that was answered denotes what its call asked for, whatever
was called later. Equal texts have one index. And unless a call adds an attribute of its own under
the name of one that applies annotations, the class carries exactly the annotations that calls
added. -/
theorem parse_built (name : String) (calls : List BuildCall) (hpath : isPathName name = true)
    (hfit : BuildCall.Fit name calls) :
    ∃ c, LoadedClass.parse (BuildCall.builder name calls).build = .ok c ∧
      c.declaredName = name ∧
      c.majorVersion = (ClassText.ofCalls calls).majorVersion ∧
      c.superName = some (ClassText.ofCalls calls).superName ∧
      c.interfaceNames = (ClassText.ofCalls calls).interfaces ∧
      List.Forall₂ (MemberText.Describes c.pool) (ClassText.ofCalls calls).fields
        c.fields.toList ∧
      List.Forall₂ (MemberText.Describes c.pool) (ClassText.ofCalls calls).methods
        c.methods.toList ∧
      List.Forall₂ (AttributeText.Describes c.pool) (ClassText.ofCalls calls).allAttributes
        c.attributes.toList ∧
      List.Forall₂ (BuildCall.Resolves c.pool) calls (BuildCall.answers name calls) ∧
      (∀ i j t, c.pool.text? i = some t → c.pool.text? j = some t → i = j) ∧
      ((∀ n body, .rawClassAttribute n body ∈ calls → n ∉ annotationAttributeNames) →
        ∀ marker, c.hasMarker marker = true ↔
          ∃ call ∈ calls, call.annotationType? = some marker) := by
  obtain ⟨hinterned, hrep, hanswers⟩ := hfit.represents
  refine ⟨_, LoadedClass.parse_toBytes hfit.wellFormed (hfit.resolveHeader hpath), rfl,
    hrep.version, ?_, ?_, hrep.fields, hrep.methods, hrep.attributes_finish hinterned, hanswers,
    fun _ _ _ => hinterned.index_unique, hfit.hasMarker_iff⟩
  · have hne : (BuildCall.builder name calls).superClass ≠ 0 := by
      intro hzero
      obtain ⟨text, hget, -⟩ := ConstantPool.className_eq_ok.mp hrep.superClass
      rw [hzero, hinterned.zero.2] at hget
      cases hget
    exact (if_neg hne).trans (toOption_eq_some.mpr hrep.superClass)
  · exact filterMap_of_forall₂ (hrep.interfaces.imp fun _ _ h => toOption_eq_some.mpr h)

/-- One call of each kind, two superclasses and two interfaces. -/
def everyCall : List BuildCall :=
  [.majorVersion 61, .superClass "p/Old", .annotate "Lq/M;", .interface "p/I", .field "x" "I",
    .fieldWithSignature "list" "Ljava/util/List;" "Ljava/util/List<Lp/A;>;", .method "run" "()V",
    .methodWithCode "go" "()V" 1 1 [0xB1], .methodWithLocals "at" "(Lp/A;)V" [("a", "Lp/A;")],
    .superClass "p/B", .sourceFile "A.java", .classSignature "Lp/B;Lp/I;Lp/J;",
    .rawClassAttribute "Custom" [1, 2], .stringConstant "p/A", .classRef "p/I",
    .methodRef "p/B" "run" "()V", .utf8 "p/A", .annotateWithEnum "Lq/E;" "kind" "Lq/K;" "ONE",
    .annotateInvisibly "Lq/N;", .interface "p/J"]

theorem parse_built_everyCall :
    isPathName "p/A" = true ∧ BuildCall.Fit "p/A" everyCall ∧
      ∃ c, LoadedClass.parse (BuildCall.builder "p/A" everyCall).build = .ok c ∧
        c.declaredName = "p/A" ∧ c.superName = some "p/B" ∧ c.interfaceNames = ["p/I", "p/J"] ∧
        List.Forall₂ (BuildCall.Resolves c.pool) everyCall (BuildCall.answers "p/A" everyCall) ∧
        c.hasMarker "Lq/N;" = true ∧ c.hasMarker "Lq/K;" = false := by
  have hfit : BuildCall.Fit "p/A" everyCall :=
    { shortName := by decide +kernel
      texts := by decide +kernel
      numbers := by simp [everyCall, BuildCall.NumbersFit]
      version := by decide
      slots := by decide +kernel
      interfaces := by decide
      fields := by decide
      methods := by decide
      attributes := by decide
      visible := by decide
      invisible := by decide }
  have hpath : isPathName "p/A" = true := by decide +kernel
  obtain ⟨c, hparse, hname, -, hsuper, hinterfaces, -, -, -, hanswers, -, hmarkers⟩ :=
    parse_built "p/A" everyCall hpath hfit
  have hmarker := hmarkers (by simp [everyCall, annotationAttributeNames])
  refine ⟨hpath, hfit, c, hparse, hname, hsuper, hinterfaces, hanswers, (hmarker _).mpr ?_, ?_⟩
  · exact ⟨.annotateInvisibly "Lq/N;", by simp [everyCall], rfl⟩
  · rw [Bool.eq_false_iff, ne_eq, hmarker]
    simp [everyCall, BuildCall.annotationType?]

end JvmRelocation
