import JvmRelocation.ClassFile.Layout
import JvmRelocation.Proofs.Bytes.Codec
import JvmRelocation.Proofs.Failure

/-!
# A body is cut at the same places after its indices are exchanged

The cut of a body is a tiling: its parts put together are the body. Where the indices of names in it
are exchanged for others, and nothing else is touched, the new body is cut into the same parts with
the new indices. The bodies of nested attributes are told apart by the names of their attributes, so
this needs that every such name still stands for the same kind of attribute.
-/

namespace JvmRelocation

open Decoder BigEndian

/-! ## Layouts of one shape -/

/-- Parts that differ at most in an index that may be exchanged. -/
inductive BodyPart.Similar : BodyPart → BodyPart → Prop
  | refl (part : BodyPart) : Similar part part
  | index {use : IndexUse} (h : use ≠ .pinned) (value value' : UInt16) :
      Similar (.index use value) (.index use value')

namespace Layout

/-- Layouts that differ at most in indices that may be exchanged. -/
abbrev Similar (l l' : Layout) : Prop :=
  List.Forall₂ BodyPart.Similar l l'

/-- A layout has a nested attribute whose name has the given index. -/
def NamesAttribute (l : Layout) (name : UInt16) : Prop :=
  ∃ length, [.index .pinned name, .plain (bytes32 length)] <:+: l

theorem NamesAttribute.of_infix {l l' : Layout} {name : UInt16} (h : l.NamesAttribute name)
    (hl : l <:+: l') : l'.NamesAttribute name := by
  obtain ⟨length, hname⟩ := h
  exact ⟨length, hname.trans hl⟩

theorem similar_plain {bytes : Bytes} {l : Layout} {l' : Layout} :
    Similar (.plain bytes :: l) l' ↔ ∃ rest, Similar l rest ∧ l' = .plain bytes :: rest := by
  constructor
  · intro h
    obtain ⟨_, rest, ⟨⟩, hrest, rfl⟩ := List.forall₂_cons_left_iff.mp h
    exact ⟨rest, hrest, rfl⟩
  · rintro ⟨rest, hrest, rfl⟩
    exact .cons (.refl _) hrest

theorem similar_append {l₁ l₂ l' : Layout} :
    Similar (l₁ ++ l₂) l' ↔ ∃ l₁' l₂', Similar l₁ l₁' ∧ Similar l₂ l₂' ∧ l' = l₁' ++ l₂' := by
  constructor
  · intro h
    refine ⟨l'.take l₁.length, l'.drop l₁.length, ?_, ?_, (List.take_append_drop _ _).symm⟩
    · simpa using List.forall₂_take l₁.length h
    · simpa using List.forall₂_drop l₁.length h
  · rintro ⟨l₁', l₂', h₁, h₂, rfl⟩
    exact List.rel_append h₁ h₂

@[simp] theorem toBytes_nil : toBytes [] = [] := rfl

@[simp] theorem toBytes_cons (part : BodyPart) (l : Layout) :
    toBytes (part :: l) = part.toBytes ++ toBytes l := rfl

@[simp] theorem toBytes_append (l l' : Layout) : toBytes (l ++ l') = toBytes l ++ toBytes l' :=
  List.flatMap_append

/-- Layouts of one shape have bodies of one length. -/
theorem Similar.length_toBytes {l l' : Layout} (h : Similar l l') :
    (toBytes l').length = (toBytes l).length := by
  induction h with
  | nil => rfl
  | cons hpart _ ih =>
    simp only [toBytes_cons, List.length_append, ih]
    cases hpart <;> rfl

/-! ## Steady decoders

Two decoders of layouts belong together if the second one reads again what the first one has read,
with other indices. -/

/-- The second decoder reads every layout of the shape of one that the first decoder has read,
provided the names of nested attributes have the property `Kept`. -/
structure Steady (Kept : UInt16 → Prop) (d d' : Decoder Layout) : Prop where
  /-- The parts that are read are a tiling of what was consumed. -/
  tiling : ∀ {c l c'}, d c = .ok l c' → c.rest = toBytes l ++ c'.rest
  /-- A layout of the same shape is read back. -/
  reread : ∀ {c l c'}, d c = .ok l c' → ∀ {l'}, Similar l l' →
    (∀ name, l.NamesAttribute name → Kept name) → ∀ offset rest,
      d' ⟨offset, toBytes l' ++ rest⟩ = .ok l' ⟨offset + (toBytes l').length, rest⟩

section Steady

variable {Kept : UInt16 → Prop} {d d' e e' : Decoder Layout}

theorem steady_nil : Steady Kept (pure []) (pure []) where
  tiling := by
    intro c l c' h
    obtain ⟨rfl, rfl⟩ : [] = l ∧ c = c' := by simpa [pure, EStateM.pure] using h
    rfl
  reread := by
    intro c l c' h l' hl _ offset rest
    obtain ⟨rfl, rfl⟩ : [] = l ∧ c = c' := by simpa [pure, EStateM.pure] using h
    obtain rfl := List.forall₂_nil_left_iff.mp hl
    rfl

theorem steady_throw (error : FormatError) : Steady Kept (throw error) e' where
  tiling h := by cases h
  reread h := by cases h

theorem steady_skip (n : Nat) : Steady Kept (skip n) (skip n) where
  tiling := by
    intro c l c' h
    obtain ⟨block, hblock, rfl⟩ := return_ok h
    simpa [BodyPart.toBytes] using ((take_codec n).sound _ _ _ hblock).2.1
  reread := by
    intro c l c' h l' hl _ offset rest
    obtain ⟨block, hblock, rfl⟩ := return_ok h
    obtain ⟨_, hnil, rfl⟩ := similar_plain.mp hl
    obtain rfl := List.forall₂_nil_left_iff.mp hnil
    obtain ⟨rfl, -⟩ := (take_codec n).sound _ _ _ hblock
    rw [skip, toBytes_cons, toBytes_nil, List.append_nil, BodyPart.toBytes,
      bind_of_ok (take_append block offset rest)]
    rfl

theorem steady_indexFor (use : IndexUse) : Steady Kept (indexFor use) (indexFor use) where
  tiling := by
    intro c l c' h
    obtain ⟨value, hvalue, rfl⟩ := return_ok h
    simpa [BodyPart.toBytes] using (word16_codec.sound _ _ _ hvalue).2.1
  reread := by
    intro c l c' h l' hl _ offset rest
    obtain ⟨value, hvalue, rfl⟩ := return_ok h
    -- a similar layout is one index for the same use
    obtain ⟨part, _, hpart, hnil, rfl⟩ := List.forall₂_cons_left_iff.mp hl
    obtain rfl := List.forall₂_nil_left_iff.mp hnil
    obtain ⟨value', rfl⟩ : ∃ value', part = .index use value' := by
      cases hpart
      · exact ⟨value, rfl⟩
      · exact ⟨_, rfl⟩
    rw [indexFor, toBytes_cons, toBytes_nil, List.append_nil, BodyPart.toBytes,
      bind_of_ok (word16_codec.complete value' trivial offset rest)]
    rfl

/-- One layout after another. -/
theorem Steady.append (hd : Steady Kept d d') (he : Steady Kept e e') :
    Steady Kept (do return (← d) ++ (← e)) (do return (← d') ++ (← e')) where
  tiling := by
    intro c l c' h
    obtain ⟨l₁, mid, h₁, h⟩ := bind_ok h
    obtain ⟨l₂, h₂, rfl⟩ := return_ok h
    rw [hd.tiling h₁, he.tiling h₂, toBytes_append, List.append_assoc]
  reread := by
    intro c l c' h l' hl hkept offset rest
    obtain ⟨l₁, mid, h₁, h⟩ := bind_ok h
    obtain ⟨l₂, h₂, rfl⟩ := return_ok h
    obtain ⟨l₁', l₂', hl₁, hl₂, rfl⟩ := similar_append.mp hl
    -- an attribute that one of the parts names is named by the whole
    have hkept₁ (name) (hname : NamesAttribute l₁ name) : Kept name :=
      hkept name (hname.of_infix (List.prefix_append l₁ l₂).isInfix)
    have hkept₂ (name) (hname : NamesAttribute l₂ name) : Kept name :=
      hkept name (hname.of_infix (List.suffix_append l₁ l₂).isInfix)
    rw [toBytes_append, List.append_assoc, bind_of_ok (hd.reread h₁ hl₁ hkept₁ offset _),
      bind_of_ok (he.reread h₂ hl₂ hkept₂ _ rest), List.length_append, ← Nat.add_assoc]
    rfl

/-- A layout behind a value that decides what the layout is. -/
theorem Steady.behind {α : Type} {first : Decoder α} {write : α → Bytes} {f f' : α → Decoder Layout}
    (hfirst : Codec first write fun _ => True) (hf : ∀ a, Steady Kept (f a) (f' a)) :
    Steady Kept (do let a ← first; return .plain (write a) :: (← f a))
      (do let a ← first; return .plain (write a) :: (← f' a)) where
  tiling := by
    intro c l c' h
    obtain ⟨a, mid, ha, h⟩ := bind_ok h
    obtain ⟨l₁, h₁, rfl⟩ := return_ok h
    rw [(hfirst.sound _ _ _ ha).2.1, (hf a).tiling h₁, toBytes_cons, List.append_assoc]
    rfl
  reread := by
    intro c l c' h l' hl hkept offset rest
    obtain ⟨a, mid, ha, h⟩ := bind_ok h
    obtain ⟨l₁, h₁, rfl⟩ := return_ok h
    obtain ⟨l₁', hl₁, rfl⟩ := similar_plain.mp hl
    have hkept₁ (name) (hname : NamesAttribute l₁ name) : Kept name :=
      hkept name (hname.of_infix (List.suffix_cons _ l₁).isInfix)
    rw [toBytes_cons, List.append_assoc, BodyPart.toBytes,
      bind_of_ok (hfirst.complete a trivial offset _),
      bind_of_ok ((hf a).reread h₁ hl₁ hkept₁ _ rest), List.length_append, ← Nat.add_assoc]
    rfl

/-- A layout read again and again. -/
theorem Steady.timesFrom (hd : Steady Kept d d') (n : Nat) {done list : List Layout} {c c' : Cursor}
    (h : timesFrom d n done c = .ok list c') :
    ∃ more, list = done.reverse ++ more ∧ c.rest = toBytes more.flatten ++ c'.rest ∧
      ∀ l', Similar more.flatten l' → (∀ name, NamesAttribute more.flatten name → Kept name) →
        ∀ done' offset rest, ∃ more', more'.flatten = l' ∧
          timesFrom d' n done' ⟨offset, toBytes l' ++ rest⟩ =
            .ok (done'.reverse ++ more') ⟨offset + (toBytes l').length, rest⟩ := by
  induction n generalizing done c with
  | zero =>
    obtain ⟨rfl, rfl⟩ : done.reverse = list ∧ c = c' := by
      simpa [Decoder.timesFrom, pure, EStateM.pure] using h
    refine ⟨[], by simp, by simp, fun l' hl _ done' offset rest => ⟨[], ?_, ?_⟩⟩
    · exact (List.forall₂_nil_left_iff.mp hl).symm
    · obtain rfl := List.forall₂_nil_left_iff.mp hl
      simp [Decoder.timesFrom, pure, EStateM.pure]
  | succ n ih =>
    obtain ⟨l₁, mid, h₁, h⟩ := bind_ok h
    obtain ⟨more, hlist, hread, hagain⟩ := ih h
    refine ⟨l₁ :: more, by simp [hlist], ?_, fun l' hl hkept done' offset rest => ?_⟩
    · rw [hd.tiling h₁, hread, List.flatten_cons, toBytes_append, List.append_assoc]
    · rw [List.flatten_cons] at hl hkept
      obtain ⟨l₁', l₂', hl₁, hl₂, rfl⟩ := similar_append.mp hl
      have hkept₁ (name) (hname : NamesAttribute l₁ name) : Kept name :=
        hkept name (hname.of_infix (List.prefix_append l₁ _).isInfix)
      have hkept₂ (name) (hname : NamesAttribute more.flatten name) : Kept name :=
        hkept name (hname.of_infix (List.suffix_append l₁ _).isInfix)
      -- the rest is read again behind the first item, whatever was read before it
      obtain ⟨more', rfl, hmore⟩ := hagain l₂' hl₂ hkept₂ (l₁' :: done')
        (offset + (toBytes l₁').length) rest
      refine ⟨l₁' :: more', rfl, ?_⟩
      rw [toBytes_append, List.append_assoc, Decoder.timesFrom,
        bind_of_ok (hd.reread h₁ hl₁ hkept₁ offset _), hmore]
      simp only [List.reverse_cons, List.append_assoc, List.cons_append, List.nil_append,
        List.length_append, Nat.add_assoc]

theorem Steady.times (hd : Steady Kept d d') (n : Nat) :
    Steady Kept (do return (← times n d).flatten) (do return (← times n d').flatten) where
  tiling := by
    intro c l c' h
    obtain ⟨list, hlist, rfl⟩ := return_ok h
    obtain ⟨more, hmore, hread, -⟩ := hd.timesFrom n hlist
    obtain rfl : list = more := by simpa using hmore
    exact hread
  reread := by
    intro c l c' h l' hl hkept offset rest
    obtain ⟨list, hlist, rfl⟩ := return_ok h
    obtain ⟨more, hmore, -, hagain⟩ := hd.timesFrom n hlist
    obtain rfl : list = more := by simpa using hmore
    obtain ⟨more', rfl, hread⟩ := hagain l' hl hkept [] offset rest
    rw [List.reverse_nil, List.nil_append] at hread
    rw [Decoder.times, bind_of_ok hread]
    rfl

/-! ## The parts of bodies -/

theorem steady_counted (hd : Steady Kept d d') : Steady Kept (counted d) (counted d') := by
  have h := Steady.behind word16_codec fun count : UInt16 => hd.times count.toNat
  simpa only [counted, bind_assoc, pure_bind] using h

theorem steady_shortCounted (hd : Steady Kept d d') :
    Steady Kept (shortCounted d) (shortCounted d') := by
  have h := Steady.behind byte_codec fun count : UInt8 => hd.times count.toNat
  simpa only [shortCounted, bind_assoc, pure_bind] using h

theorem steady_table (width : Nat) : Steady Kept (table width) (table width) :=
  Steady.behind word16_codec fun count => steady_skip (count.toNat * width)

theorem steady_instructions : Steady Kept instructions instructions :=
  Steady.behind word32_codec fun length => steady_skip length.toNat

theorem steady_sequence {list list' : List (Decoder Layout)}
    (h : List.Forall₂ (Steady Kept) list list') : Steady Kept (sequence list) (sequence list') := by
  induction h with
  | nil => exact steady_nil
  | cons hitem hrest ih =>
    cases hrest with
    | nil => exact hitem
    | cons hsecond hrest => exact hitem.append ih

theorem steady_annotationWith (hd : Steady Kept d d') (use : IndexUse) :
    Steady Kept (annotationWith d use) (annotationWith d' use) :=
  steady_sequence (.cons (steady_indexFor use)
    (.cons (steady_counted (steady_sequence (.cons (steady_indexFor .pinned) (.cons hd .nil)))) .nil))

/-- What stands behind the tag of an annotation element's value. -/
def elementContent (fuel : Nat) (tag : UInt8) : Decoder Layout :=
  match Char.ofNat tag.toNat with
  | 'B' | 'C' | 'D' | 'F' | 'I' | 'J' | 'S' | 'Z' => skip 2
  | 's' => indexFor .pinned
  | 'e' => sequence [descriptorIndex, indexFor .pinned]
  | 'c' => descriptorIndex
  | '@' => annotationWith (elementValue fuel) (.name .descriptor)
  | '[' => counted (elementValue fuel)
  | _ => throw (.unknownElementTag tag)

theorem elementValue_succ (fuel : Nat) : elementValue (fuel + 1) = do
    let tag ← byte
    return .plain [tag] :: (← elementContent fuel tag) := by
  rw [elementValue]
  congr 1
  funext tag
  unfold elementContent
  generalize Char.ofNat tag.toNat = letter
  split
  case h_14 => simp only [*]
  all_goals rfl

theorem steady_elementValue (fuel : Nat) : Steady Kept (elementValue fuel) (elementValue fuel) := by
  induction fuel with
  | zero => exact steady_throw _
  | succ fuel ih =>
    rw [elementValue_succ]
    refine Steady.behind byte_codec fun tag => ?_
    unfold elementContent
    split
    case h_9 => exact steady_indexFor .pinned
    case h_10 =>
      exact steady_sequence (.cons (steady_indexFor _) (.cons (steady_indexFor _) .nil))
    case h_11 => exact steady_indexFor _
    case h_12 => exact steady_annotationWith ih _
    case h_13 => exact steady_counted ih
    case h_14 => exact steady_throw _
    all_goals exact steady_skip 2

theorem steady_annotationItem (fuel : Nat) (use : IndexUse) :
    Steady Kept (annotationItem fuel use) (annotationItem fuel use) :=
  steady_annotationWith (steady_elementValue fuel) use

theorem steady_targetInfo (code : UInt8) : Steady Kept (targetInfo code) (targetInfo code) := by
  simp only [targetInfo]
  split_ifs
  · exact steady_skip 1
  · exact steady_skip 2
  · exact steady_nil
  · exact steady_table 6
  · exact steady_skip 3
  · exact steady_throw _

theorem steady_typeAnnotationItem (fuel : Nat) :
    Steady Kept (typeAnnotationItem fuel) (typeAnnotationItem fuel) := by
  have hpath (steps : UInt8) : Steady Kept _ _ := (steady_skip (steps.toNat * 2)).append
    (steady_annotationItem fuel (.name .descriptor))
  have h : Steady Kept _ _ := Steady.behind byte_codec fun code =>
    (steady_targetInfo code).append (Steady.behind byte_codec hpath)
  simpa only [typeAnnotationItem, bind_assoc, pure_bind] using h

end Steady

/-! ## Whole bodies -/

/-- The name with the given index, as far as the layout of an attribute depends on it: an index that
denotes no text counts like a name that no known attribute has. -/
def nameAt (pool : ConstantPool) (index : UInt16) : String :=
  (pool.text? index).getD ""

/-- The kind of attribute that the name with the given index stands for. -/
def kindAt (pool : ConstantPool) (index : UInt16) : Option AttributeKind :=
  AttributeKind.ofName? (nameAt pool index)

theorem cut_of_unknown {name : String} (h : AttributeKind.ofName? name = none) (pool : ConstantPool)
    (fuel : Nat) (body : Bytes) : cut pool fuel name body = .ok [.plain body] := by
  cases fuel with
  | zero => rfl
  | succ fuel => rw [cut, h]

theorem cut_of_known {name : String} {kind : AttributeKind} (h : AttributeKind.ofName? name = some kind)
    {pool : ConstantPool} {fuel : Nat} {body : Bytes} {l : Layout} :
    cut pool (fuel + 1) name body = .ok l ↔
      (bodyOf (fuel + 1) (nestedAttribute pool (cut pool fuel)) kind).runOn body = .ok (l, []) := by
  rw [cut, h]
  simp only [exceptBind_eq_ok]
  constructor
  · rintro ⟨⟨parts, rest⟩, hrun, hend⟩
    obtain ⟨hrest, hparts⟩ := exceptGuard_eq_ok.mp hend
    obtain rfl : parts = l := by simpa [pure, Except.pure] using hparts
    obtain rfl : rest = [] := by simpa using hrest
    exact hrun
  · intro hrun
    exact ⟨(l, []), hrun, rfl⟩

/-- How a nested attribute is read: its name, its length, its body, and the parts of the body. -/
theorem nestedAttribute_reads {pool : ConstantPool} {fuel : Nat} {c c' : Cursor} {l : Layout}
    (h : nestedAttribute pool (cut pool fuel) c = .ok l c') :
    ∃ name length body parts afterName afterLength, word16 c = .ok name afterName ∧
      word32 afterName = .ok length afterLength ∧ take length.toNat afterLength = .ok body c' ∧
      cut pool fuel (nameAt pool name) body = .ok parts ∧
      l = .index .pinned name :: .plain (bytes32 length) :: parts := by
  obtain ⟨name, afterName, hname, h⟩ := bind_ok h
  obtain ⟨length, afterLength, hlength, h⟩ := bind_ok h
  obtain ⟨body, afterBody, hbody, h⟩ := bind_ok h
  -- an attribute without a name is as unknown as one with an unknown name
  cases htext : pool.text? name with
  | none =>
    obtain ⟨rfl, rfl⟩ : .index .pinned name :: .plain (bytes32 length) :: [.plain body] = l ∧
        afterBody = c' := by simpa [htext, pure, EStateM.pure, bind, EStateM.bind] using h
    refine ⟨name, length, body, [.plain body], _, _, hname, hlength, hbody, ?_, rfl⟩
    exact cut_of_unknown (by rw [nameAt, htext]; rfl) pool fuel body
  | some text =>
    cases hcut : cut pool fuel text body with
    | error e =>
      simp only [htext, hcut] at h
      cases h
    | ok parts =>
      obtain ⟨rfl, rfl⟩ : .index .pinned name :: .plain (bytes32 length) :: parts = l ∧
          afterBody = c' := by simpa [htext, hcut, pure, EStateM.pure, bind, EStateM.bind] using h
      refine ⟨name, length, body, parts, _, _, hname, hlength, hbody, ?_, rfl⟩
      rw [nameAt, htext]
      exact hcut

/-- What a nested attribute is: its name, its length, its body, and the parts of the body. -/
theorem nestedAttribute_ok {pool : ConstantPool} {fuel : Nat} {c c' : Cursor} {l : Layout}
    (h : nestedAttribute pool (cut pool fuel) c = .ok l c') :
    ∃ name length body parts, c.rest = bytes16 name ++ (bytes32 length ++ (body ++ c'.rest)) ∧
      body.length = length.toNat ∧ cut pool fuel (nameAt pool name) body = .ok parts ∧
      l = .index .pinned name :: .plain (bytes32 length) :: parts := by
  obtain ⟨name, length, body, parts, afterName, afterLength, hname, hlength, hbody, hcut, hl⟩ :=
    nestedAttribute_reads h
  refine ⟨name, length, body, parts, ?_, ((take_codec _).sound _ _ _ hbody).1, hcut, hl⟩
  rw [(word16_codec.sound _ _ _ hname).2.1, (word32_codec.sound _ _ _ hlength).2.1,
    ((take_codec _).sound _ _ _ hbody).2.1]
  rfl

theorem nestedAttribute_complete {pool : ConstantPool} {fuel : Nat} {name : UInt16} {length : UInt32}
    {body : Bytes} {parts : Layout} (hlength : body.length = length.toNat)
    (h : cut pool fuel (nameAt pool name) body = .ok parts) (offset : Nat) (rest : Bytes) :
    nestedAttribute pool (cut pool fuel)
        ⟨offset, bytes16 name ++ (bytes32 length ++ (body ++ rest))⟩ =
      .ok (.index .pinned name :: .plain (bytes32 length) :: parts)
        ⟨offset + 2 + 4 + body.length, rest⟩ := by
  have hbody := take_append body (offset + 2 + 4) rest
  rw [hlength] at hbody
  rw [nestedAttribute, bind_of_ok (word16_codec.complete name trivial offset _), length_bytes16,
    bind_of_ok (word32_codec.complete length trivial _ _), length_bytes32, bind_of_ok hbody, hlength]
  cases htext : pool.text? name with
  | none =>
    rw [nameAt, htext, cut_of_unknown rfl] at h
    obtain rfl : [.plain body] = parts := by simpa using h
    rfl
  | some text =>
    rw [nameAt, htext, Option.getD_some] at h
    simp [h, pure, EStateM.pure, bind, EStateM.bind]

section Pools

variable {pool pool' : ConstantPool}

/-- The name with an index stands for the same kind of attribute in both pools. -/
abbrev SameKind (pool pool' : ConstantPool) (name : UInt16) : Prop :=
  kindAt pool name = kindAt pool' name

/-- What cutting with a given fuel preserves between two pools. -/
structure SteadyCut (pool pool' : ConstantPool) (fuel : Nat) : Prop where
  tiling : ∀ {name body l}, cut pool fuel name body = .ok l → body = toBytes l
  recut : ∀ {name name' body l l'}, cut pool fuel name body = .ok l → Similar l l' →
    AttributeKind.ofName? name = AttributeKind.ofName? name' →
    (∀ nested, l.NamesAttribute nested → SameKind pool pool' nested) →
      cut pool' fuel name' (toBytes l') = .ok l'

theorem steady_nestedAttribute {fuel : Nat} (h : SteadyCut pool pool' fuel) :
    Steady (SameKind pool pool') (nestedAttribute pool (cut pool fuel))
      (nestedAttribute pool' (cut pool' fuel)) where
  tiling := by
    intro c l c' hread
    obtain ⟨name, length, body, parts, hrest, -, hcut, rfl⟩ := nestedAttribute_ok hread
    rw [hrest, h.tiling hcut]
    simp only [toBytes_cons, BodyPart.toBytes, List.append_assoc]
  reread := by
    intro c l c' hread l' hl hkept offset rest
    obtain ⟨name, length, body, parts, -, hlength, hcut, rfl⟩ := nestedAttribute_ok hread
    -- the name is pinned, so it is the same index, and it stands for the same kind of attribute
    obtain ⟨_, l₁, ⟨⟩ | ⟨hpinned, _, _⟩, hl₁, rfl⟩ := List.forall₂_cons_left_iff.mp hl
    case index => exact absurd rfl hpinned
    obtain ⟨parts', hparts, rfl⟩ := similar_plain.mp hl₁
    have hname : SameKind pool pool' name := hkept name ⟨length, [], parts, rfl⟩
    have hinside (nested) (hnested : NamesAttribute parts nested) : SameKind pool pool' nested :=
      hkept nested (hnested.of_infix ((List.suffix_cons _ _).trans (List.suffix_cons _ _)).isInfix)
    have hcut' := h.recut hcut hparts hname hinside
    have hlength' : (toBytes parts').length = length.toNat := by
      rw [hparts.length_toBytes, ← h.tiling hcut, hlength]
    simp only [toBytes_cons, BodyPart.toBytes, List.append_assoc]
    rw [nestedAttribute_complete hlength' hcut']
    simp only [List.length_append, length_bytes16, length_bytes32, Nat.add_assoc]

theorem steady_bodyOf {Kept : UInt16 → Prop} {d d' : Decoder Layout} (hd : Steady Kept d d')
    (fuel : Nat) (kind : AttributeKind) : Steady Kept (bodyOf fuel d kind) (bodyOf fuel d' kind) := by
  cases kind with
  | code =>
    exact steady_sequence (.cons (steady_skip 4) (.cons steady_instructions
      (.cons (steady_table 8) (.cons (steady_counted hd) .nil))))
  | signature => exact steady_indexFor _
  | localVariables role =>
    exact steady_counted (steady_sequence (.cons (steady_skip 4) (.cons (steady_indexFor _)
      (.cons (steady_indexFor _) (.cons (steady_skip 2) .nil)))))
  | annotations => exact steady_counted (steady_annotationItem fuel _)
  | parameterAnnotations =>
    exact steady_shortCounted (steady_counted (steady_annotationItem fuel _))
  | typeAnnotations => exact steady_counted (steady_typeAnnotationItem fuel)
  | annotationDefault => exact steady_elementValue fuel
  | record =>
    exact steady_counted (steady_sequence (.cons (steady_indexFor _) (.cons (steady_indexFor _)
      (.cons (steady_counted hd) .nil))))
  | sourceFile => exact steady_indexFor _
  | innerClasses =>
    exact steady_counted (steady_sequence (.cons (steady_skip 4) (.cons (steady_indexFor _)
      (.cons (steady_skip 2) .nil))))
  | methodParameters =>
    exact steady_shortCounted (steady_sequence (.cons (steady_indexFor _)
      (.cons (steady_skip 2) .nil)))

theorem runOn_eq_ok {d : Decoder Layout} {body rest : Bytes} {l : Layout} :
    d.runOn body = .ok (l, rest) ↔ ∃ c', d (Cursor.start body) = .ok l c' ∧ c'.rest = rest := by
  simp only [runOn]
  split
  case h_1 l₁ c' h => simp [h]
  case h_2 e c' h => simp [h]

/-- **Every body is cut the same way again.** -/
theorem steadyCut (pool pool' : ConstantPool) (fuel : Nat) : SteadyCut pool pool' fuel := by
  induction fuel with
  | zero =>
    constructor
    · intro name body l h
      obtain rfl : [.plain body] = l := by simpa [cut] using h
      exact (List.append_nil body).symm
    · intro name name' body l l' h hl _ _
      obtain rfl : [.plain body] = l := by simpa [cut] using h
      obtain ⟨_, hnil, rfl⟩ := similar_plain.mp hl
      obtain rfl := List.forall₂_nil_left_iff.mp hnil
      simp [cut, BodyPart.toBytes]
  | succ fuel ih =>
    -- a body holds attributes, whose bodies are cut with one less fuel
    have hsteady := steady_bodyOf (steady_nestedAttribute ih) (fuel + 1)
    constructor
    · intro name body l h
      cases hkind : AttributeKind.ofName? name with
      | none =>
        rw [cut_of_unknown hkind] at h
        obtain rfl : [.plain body] = l := by simpa using h
        exact (List.append_nil body).symm
      | some kind =>
        obtain ⟨c', hread, hend⟩ := runOn_eq_ok.mp ((cut_of_known hkind).mp h)
        have htiling := (hsteady kind).tiling hread
        rwa [hend, List.append_nil] at htiling
    · intro name name' body l l' h hl hsame hkept
      cases hkind : AttributeKind.ofName? name with
      | none =>
        rw [cut_of_unknown hkind] at h
        obtain rfl : [.plain body] = l := by simpa using h
        obtain ⟨_, hnil, rfl⟩ := similar_plain.mp hl
        obtain rfl := List.forall₂_nil_left_iff.mp hnil
        rw [cut_of_unknown (hsame ▸ hkind)]
        simp [BodyPart.toBytes]
      | some kind =>
        obtain ⟨c', hread, -⟩ := runOn_eq_ok.mp ((cut_of_known hkind).mp h)
        have hagain := (hsteady kind).reread hread hl hkept 0 []
        rw [List.append_nil] at hagain
        exact (cut_of_known (hsame ▸ hkind)).mpr (runOn_eq_ok.mpr ⟨_, hagain, rfl⟩)

end Pools

end Layout

end JvmRelocation
