import JvmRelocation.Proofs.ClassFile.AnnotationWalk

/-!
# Walking a body by position

A walker reads a body byte by byte and keeps no parts. It notes every index it comes to with its
position, which it counts from the start of the slice it walks and from where that slice starts in the
whole body: the body of an attribute inside another one is a slice of its own. What it notes are the
mentions of the layout, at the same places, and it fails where the cut fails.
-/

namespace JvmRelocation

open BigEndian Layout

namespace PositionWalk

/-! ## The walker -/

/-- A walk over the bytes at a cursor, which notes indices behind those already found. -/
abbrev Walker := StateT (List Mention) Decoder

/-- How many bytes of the slice lie behind. -/
def position : Walker Nat := fun found c => .ok (c.offset, found) c

/-- Reads an index and notes it with its use. The slice that is walked starts at `base` in the whole
body. -/
def record (base : Nat) (use : IndexUse) : Walker UInt16 := do
  let offset := base + (← position)
  let index ← Decoder.word16
  modify fun found => found ++ [⟨offset, index, use⟩]
  return index

/-- Notes an index with its use. -/
def note (base : Nat) (use : IndexUse) : Walker Unit := do
  let _ ← record base use

/-- Passes over some bytes. -/
def pass (n : Nat) : Walker Unit := do
  let _ ← Decoder.take n

/-- Walks over a number of items. -/
def repeated (item : Walker Unit) : Nat → Walker Unit
  | 0 => pure ()
  | n + 1 => do
    item
    repeated item n

/-- Items behind their number in 16 bits. -/
def counted (item : Walker Unit) : Walker Unit := do
  let count ← Decoder.word16
  repeated item count.toNat

/-- Items behind their number in 8 bits. -/
def shortCounted (item : Walker Unit) : Walker Unit := do
  let count ← Decoder.byte
  repeated item count.toNat

/-- A block of `width` bytes an item, behind the number of items in 16 bits. -/
def table (width : Nat) : Walker Unit := do
  let count ← Decoder.word16
  pass (count.toNat * width)

/-- Instructions, behind their length in 32 bits. -/
def instructions : Walker Unit := do
  let length ← Decoder.word32
  pass length.toNat

/-- An annotation, given how the values of its elements are walked. -/
def annotationWith (base : Nat) (value : Walker Unit) (use : IndexUse) : Walker Unit := do
  note base use
  counted do
    note base .pinned
    value

/-- What stands behind the tag of an element's value, given how the values inside it are walked. -/
def valueContent (base : Nat) (inside : Walker Unit) (tag : UInt8) : Walker Unit :=
  match Char.ofNat tag.toNat with
  | 'B' | 'C' | 'D' | 'F' | 'I' | 'J' | 'S' | 'Z' => pass 2
  | 's' => note base .pinned
  | 'e' => do
    note base (.name .descriptor)
    note base .pinned
  | 'c' => note base (.name .descriptor)
  | '@' => annotationWith base inside (.name .descriptor)
  | '[' => counted inside
  | _ => throw (.unknownElementTag tag)

/-- The value of an annotation element. -/
def elementValue (base : Nat) : Nat → Walker Unit
  | 0 => throw (.unknownElementTag 0)
  | fuel + 1 => do
    let tag ← Decoder.byte
    valueContent base (elementValue base fuel) tag

/-- What stands between the code of an annotation's target and its path. -/
def targetInfo (code : UInt8) : Walker Unit :=
  let n := code.toNat
  if n = 0x00 ∨ n = 0x01 ∨ n = 0x16 then pass 1
  else if n = 0x10 ∨ n = 0x11 ∨ n = 0x12 ∨ n = 0x17 ∨ (0x42 ≤ n ∧ n ≤ 0x46) then pass 2
  else if 0x13 ≤ n ∧ n ≤ 0x15 then pure ()
  else if n = 0x40 ∨ n = 0x41 then table 6
  else if 0x47 ≤ n ∧ n ≤ 0x4B then pass 3
  else throw (.unknownTarget code)

/-- An annotation of a type, behind its target and the path into the type. -/
def typeAnnotationItem (base fuel : Nat) : Walker Unit := do
  let code ← Decoder.byte
  targetInfo code
  let steps ← Decoder.byte
  pass (steps.toNat * 2)
  annotationWith base (elementValue base fuel) (.name .descriptor)

/-- The body of an attribute of the given kind, given how the attributes inside it are walked. -/
def bodyOf (base fuel : Nat) (nested : Walker Unit) : AttributeKind → Walker Unit
  | .code => do
    pass 4
    instructions
    table 8
    counted nested
  | .signature => note base (.name .signature)
  | .localVariables role => counted do
    pass 4
    note base .pinned
    note base (.name role)
    pass 2
  | .annotations => counted (annotationWith base (elementValue base fuel) .annotationType)
  | .parameterAnnotations =>
    shortCounted (counted (annotationWith base (elementValue base fuel) (.name .descriptor)))
  | .typeAnnotations => counted (typeAnnotationItem base fuel)
  | .annotationDefault => elementValue base fuel
  | .record => counted do
    note base .pinned
    note base (.name .descriptor)
    counted nested
  | .sourceFile => note base .pinned
  | .innerClasses => counted do
    pass 4
    note base .pinned
    pass 2
  | .methodParameters => shortCounted do
    note base .pinned
    pass 2

/-- How a body is walked: for the name of its attribute, from where it starts in the whole body,
behind the indices already found. -/
abbrev BodyWalk := String → Bytes → Nat → List Mention → Except FormatError (List Mention)

/-- An attribute inside another one. Its body is a slice that starts where the walk has got to. -/
def nestedAttribute (pool : ConstantPool) (inside : BodyWalk) (base : Nat) : Walker Unit := do
  let nameIndex ← record base .pinned
  let length ← Decoder.word32
  let start := base + (← position)
  let body ← Decoder.take length.toNat
  let found ← get
  match pool.text? nameIndex with
  | none => pure ()
  | some name =>
    match inside name body start found with
    | .ok found => set found
    | .error e => throw (e.inAttribute name)

/-- Walks the whole body of the attribute with the given name. -/
def walk (pool : ConstantPool) : Nat → BodyWalk
  | 0, _, _, _, found => .ok found
  | fuel + 1, name, body, base, found =>
    match AttributeKind.ofName? name with
    | none => .ok found
    | some kind =>
      let nested := nestedAttribute pool (walk pool fuel) base
      match bodyOf base (fuel + 1) nested kind found (Cursor.start body) with
      | .ok (_, found) c =>
        if !c.rest.isEmpty then .error (.attributeTrailing name c.rest.length) else .ok found
      | .error e _ => .error e

/-! ## Steps of a walk -/

section

variable {α β : Type} {found found' : List Mention} {c c' : Cursor} {a : α} {e : FormatError}

theorem bind_of_ok {x : Walker α} {g : α → Walker β} (h : x found c = .ok (a, found') c') :
    (x >>= g) found c = g a found' c' := by
  simp only [bind, StateT.bind, EStateM.bind, h]

theorem bind_of_error {x : Walker α} {g : α → Walker β} (h : x found c = .error e c') :
    (x >>= g) found c = .error e c' := by
  simp only [bind, StateT.bind, EStateM.bind, h]

theorem lift_of_ok {d : Decoder α} (h : d c = .ok a c') :
    (liftM d : Walker α) found c = .ok (a, found) c' := by
  simp only [liftM, monadLift, MonadLift.monadLift, StateT.lift, bind, EStateM.bind, h]
  rfl

theorem lift_of_error {d : Decoder α} (h : d c = .error e c') :
    (liftM d : Walker α) found c = .error e c' := by
  simp only [liftM, monadLift, MonadLift.monadLift, StateT.lift, bind, EStateM.bind, h]

end

/-! ## Walking and cutting -/

/-- A walker notes the mentions of what a decoder cuts, at their positions, and fails where it does. -/
structure Notes (base : Nat) (w : Walker Unit) (d : Decoder Layout) : Prop where
  /-- What is cut is what the cursor moves over. -/
  advance : ∀ {c l c'}, d c = .ok l c' → c'.offset = c.offset + (toBytes l).length
  finds : ∀ {c l c'}, d c = .ok l c' → ∀ found,
    w found c = .ok ((), found ++ mentionsAt (base + c.offset) l) c'
  fails : ∀ {c e c'}, d c = .error e c' → ∀ found, w found c = .error e c'

section

variable {base : Nat} {w v : Walker Unit} {d e : Decoder Layout}

theorem notes_nil : Notes base (pure ()) (pure []) where
  advance := by
    intro c l c' h
    obtain ⟨rfl, rfl⟩ : [] = l ∧ c = c' := by simpa [pure, EStateM.pure] using h
    rfl
  finds := by
    intro c l c' h found
    obtain ⟨rfl, rfl⟩ : [] = l ∧ c = c' := by simpa [pure, EStateM.pure] using h
    rw [mentionsAt, List.append_nil]
    rfl
  fails h := by cases h

theorem notes_throw (error : FormatError) : Notes base (throw error) (throw error) where
  advance h := by cases h
  finds h := by cases h
  fails := by
    intro c e c' h found
    obtain ⟨rfl, rfl⟩ := EStateM.Result.error.inj h
    rfl

/-- A walk behind a value that decides how it goes on. -/
theorem Notes.behind {α : Type} {first : Decoder α} {write : α → Bytes} {wf : α → Walker Unit}
    {f : α → Decoder Layout} (hfirst : Decoder.Codec first write fun _ => True)
    (hf : ∀ a, Notes base (wf a) (f a)) :
    Notes base (do let a ← first; wf a) (do let a ← first; return .plain (write a) :: (← f a)) where
  advance := by
    intro c l c' h
    obtain ⟨a, mid, ha, h⟩ := JvmRelocation.bind_ok h
    obtain ⟨l₁, h₁, rfl⟩ := return_ok h
    rw [(hf a).advance h₁, (hfirst.sound _ _ _ ha).2.2, toBytes_cons, List.length_append,
      Nat.add_assoc]
    rfl
  finds := by
    intro c l c' h found
    obtain ⟨a, mid, ha, h⟩ := JvmRelocation.bind_ok h
    obtain ⟨l₁, h₁, rfl⟩ := return_ok h
    rw [bind_of_ok (lift_of_ok ha), (hf a).finds h₁ found, (hfirst.sound _ _ _ ha).2.2, mentionsAt,
      Nat.add_assoc]
  fails := by
    intro c e c' h found
    rcases JvmRelocation.bind_error h with hfirst | ⟨a, mid, ha, h⟩
    · exact bind_of_error (lift_of_error hfirst)
    · rw [bind_of_ok (lift_of_ok ha)]
      exact (hf a).fails (return_error h) found

/-- One walk after another. -/
theorem Notes.append (hw : Notes base w d) (hv : Notes base v e) :
    Notes base (do w; v) (do return (← d) ++ (← e)) where
  advance := by
    intro c l c' h
    obtain ⟨l₁, mid, h₁, h⟩ := JvmRelocation.bind_ok h
    obtain ⟨l₂, h₂, rfl⟩ := return_ok h
    rw [hv.advance h₂, hw.advance h₁, toBytes_append, List.length_append, Nat.add_assoc]
  finds := by
    intro c l c' h found
    obtain ⟨l₁, mid, h₁, h⟩ := JvmRelocation.bind_ok h
    obtain ⟨l₂, h₂, rfl⟩ := return_ok h
    rw [bind_of_ok (hw.finds h₁ found), hv.finds h₂, hw.advance h₁, mentionsAt_append,
      List.append_assoc, Nat.add_assoc]
  fails := by
    intro c e c' h found
    rcases JvmRelocation.bind_error h with hfirst | ⟨l₁, mid, h₁, h⟩
    · exact bind_of_error (hw.fails hfirst found)
    · rw [bind_of_ok (hw.finds h₁ found)]
      exact hv.fails (return_error h) _

/-- The same walk again and again, whatever has been cut before. -/
theorem Notes.timesFrom (h : Notes base w d) (n : Nat) (done : List Layout) (c : Cursor) :
    match Decoder.timesFrom d n done c with
    | .ok list c' => ∃ more, list = done.reverse ++ more ∧
        c'.offset = c.offset + (toBytes more.flatten).length ∧
        ∀ found, repeated w n found c = .ok ((), found ++ mentionsAt (base + c.offset) more.flatten) c'
    | .error e c' => ∀ found, repeated w n found c = .error e c' := by
  induction n generalizing done c with
  | zero => exact ⟨[], (List.append_nil _).symm, rfl, fun found => notes_nil.finds rfl found⟩
  | succ n ih =>
    cases hread : d c with
    | error e c' =>
      simp only [Decoder.timesFrom, bind, EStateM.bind, hread]
      exact fun found => bind_of_error (h.fails hread found)
    | ok l mid =>
      have hrest := ih (l :: done) mid
      rw [Decoder.timesFrom, JvmRelocation.bind_of_ok hread]
      generalize Decoder.timesFrom d n (l :: done) mid = answer at hrest ⊢
      cases answer with
      | error e c' =>
        intro found
        rw [repeated, bind_of_ok (h.finds hread found)]
        exact hrest _
      | ok list c' =>
        obtain ⟨more, rfl, hoffset, hfinds⟩ := hrest
        refine ⟨l :: more, by simp, ?_, fun found => ?_⟩
        · rw [hoffset, h.advance hread, List.flatten_cons, toBytes_append, List.length_append,
            Nat.add_assoc]
        · rw [repeated, bind_of_ok (h.finds hread found), hfinds, h.advance hread,
            List.flatten_cons, mentionsAt_append, List.append_assoc, Nat.add_assoc]

theorem Notes.times (h : Notes base w d) (n : Nat) :
    Notes base (repeated w n) (do return (← Decoder.times n d).flatten) where
  advance := by
    intro c l c' hread
    obtain ⟨list, hlist, rfl⟩ := return_ok hread
    have hall := h.timesFrom n [] c
    rw [show Decoder.timesFrom d n [] c = .ok list c' from hlist] at hall
    obtain ⟨more, rfl, hoffset, -⟩ := hall
    exact hoffset
  finds := by
    intro c l c' hread found
    obtain ⟨list, hlist, rfl⟩ := return_ok hread
    have hall := h.timesFrom n [] c
    rw [show Decoder.timesFrom d n [] c = .ok list c' from hlist] at hall
    obtain ⟨more, rfl, -, hfinds⟩ := hall
    exact hfinds found
  fails := by
    intro c e c' hread found
    have hall := h.timesFrom n [] c
    rw [show Decoder.timesFrom d n [] c = .error e c' from return_error hread] at hall
    exact hall found

/-! ## The parts of bodies -/

theorem notes_pass (n : Nat) : Notes base (pass n) (skip n) where
  advance := by
    intro c l c' h
    obtain ⟨block, hblock, rfl⟩ := return_ok h
    rw [((Decoder.take_codec n).sound _ _ _ hblock).2.2, toBytes_cons, toBytes_nil, List.append_nil]
    rfl
  finds := by
    intro c l c' h found
    obtain ⟨block, hblock, rfl⟩ := return_ok h
    rw [pass, bind_of_ok (lift_of_ok hblock), mentionsAt, mentionsAt, List.append_nil]
    rfl
  fails h _ := bind_of_error (lift_of_error (return_error h))

/-- An index is noted where the cursor stands in the whole body. -/
theorem record_of_ok {use : IndexUse} {found : List Mention} {c c' : Cursor} {index : UInt16}
    (h : Decoder.word16 c = .ok index c') : record base use found c =
      .ok (index, found ++ [⟨base + c.offset, index, use⟩]) c' := by
  have hposition : position found c = .ok (c.offset, found) c := rfl
  rw [record, bind_of_ok hposition, bind_of_ok (lift_of_ok h)]
  rfl

theorem record_of_error {use : IndexUse} {found : List Mention} {c c' : Cursor} {e : FormatError}
    (h : Decoder.word16 c = .error e c') : record base use found c = .error e c' := by
  have hposition : position found c = .ok (c.offset, found) c := rfl
  rw [record, bind_of_ok hposition]
  exact bind_of_error (lift_of_error h)

theorem notes_note (use : IndexUse) : Notes base (note base use) (indexFor use) where
  advance := by
    intro c l c' h
    obtain ⟨index, hindex, rfl⟩ := return_ok h
    exact (Decoder.word16_codec.sound _ _ _ hindex).2.2
  finds := by
    intro c l c' h found
    obtain ⟨index, hindex, rfl⟩ := return_ok h
    rw [note, bind_of_ok (record_of_ok hindex)]
    rfl
  fails h _ := bind_of_error (record_of_error (return_error h))

theorem notes_counted (h : Notes base w d) : Notes base (counted w) (Layout.counted d) := by
  have hitems := Notes.behind Decoder.word16_codec fun count : UInt16 => h.times count.toNat
  simpa only [counted, Layout.counted, bind_assoc, pure_bind] using hitems

theorem notes_shortCounted (h : Notes base w d) :
    Notes base (shortCounted w) (Layout.shortCounted d) := by
  have hitems := Notes.behind Decoder.byte_codec fun count : UInt8 => h.times count.toNat
  simpa only [shortCounted, Layout.shortCounted, bind_assoc, pure_bind] using hitems

theorem notes_table (width : Nat) : Notes base (table width) (Layout.table width) :=
  Notes.behind Decoder.word16_codec fun count => notes_pass (count.toNat * width)

theorem notes_instructions : Notes base instructions Layout.instructions :=
  Notes.behind Decoder.word32_codec fun length => notes_pass length.toNat

theorem notes_annotationWith (h : Notes base w d) (use : IndexUse) :
    Notes base (annotationWith base w use) (Layout.annotationWith d use) :=
  (notes_note use).append (notes_counted ((notes_note .pinned).append h))

theorem notes_valueContent {fuel : Nat} (h : Notes base w (Layout.elementValue fuel)) (tag : UInt8) :
    Notes base (valueContent base w tag) (elementContent fuel tag) := by
  unfold elementContent
  split
  all_goals simp only [valueContent, *]
  case h_9 => exact notes_note .pinned
  case h_10 => exact (notes_note _).append (notes_note _)
  case h_11 => exact notes_note _
  case h_12 => exact notes_annotationWith h _
  case h_13 => exact notes_counted h
  case h_14 => exact notes_throw _
  all_goals exact notes_pass 2

theorem notes_elementValue (fuel : Nat) :
    Notes base (elementValue base fuel) (Layout.elementValue fuel) := by
  induction fuel with
  | zero => exact notes_throw _
  | succ fuel ih =>
    rw [elementValue_succ]
    exact Notes.behind Decoder.byte_codec (notes_valueContent ih)

theorem notes_targetInfo (code : UInt8) :
    Notes base (targetInfo code) (Layout.targetInfo code) := by
  simp only [targetInfo, Layout.targetInfo]
  split_ifs
  · exact notes_pass 1
  · exact notes_pass 2
  · exact notes_nil
  · exact notes_table 6
  · exact notes_pass 3
  · exact notes_throw _

theorem notes_typeAnnotationItem (fuel : Nat) :
    Notes base (typeAnnotationItem base fuel) (Layout.typeAnnotationItem fuel) := by
  have hpath (steps : UInt8) : Notes base _ _ := (notes_pass (steps.toNat * 2)).append
    (notes_annotationWith (notes_elementValue fuel) (.name .descriptor))
  have hitem : Notes base _ _ := Notes.behind Decoder.byte_codec fun code =>
    (notes_targetInfo code).append (Notes.behind Decoder.byte_codec hpath)
  simpa only [typeAnnotationItem, Layout.typeAnnotationItem, annotationItem, bind_assoc,
    pure_bind] using hitem

theorem notes_bodyOf (h : Notes base w d) (fuel : Nat) (kind : AttributeKind) :
    Notes base (bodyOf base fuel w kind) (Layout.bodyOf fuel d kind) := by
  have hitem (use : IndexUse) : Notes base (annotationWith base (elementValue base fuel) use)
      (annotationItem fuel use) := notes_annotationWith (notes_elementValue fuel) use
  cases kind with
  | code =>
    exact (notes_pass 4).append (notes_instructions.append ((notes_table 8).append (notes_counted h)))
  | signature => exact notes_note _
  | localVariables role =>
    exact notes_counted ((notes_pass 4).append ((notes_note _).append ((notes_note _).append
      (notes_pass 2))))
  | annotations => exact notes_counted (hitem _)
  | parameterAnnotations => exact notes_shortCounted (notes_counted (hitem _))
  | typeAnnotations => exact notes_counted (notes_typeAnnotationItem fuel)
  | annotationDefault => exact notes_elementValue fuel
  | record =>
    exact notes_counted ((notes_note _).append ((notes_note _).append (notes_counted h)))
  | sourceFile => exact notes_note _
  | innerClasses =>
    exact notes_counted ((notes_pass 4).append ((notes_note _).append (notes_pass 2)))
  | methodParameters => exact notes_shortCounted ((notes_note _).append (notes_pass 2))

/-! ## Whole bodies -/

/-- A walk over bodies finds the mentions of what they are cut into, wherever they start. -/
def FindsMentions (inside : BodyWalk) (cut : String → Bytes → Except FormatError Layout) : Prop :=
  ∀ name body start found,
    inside name body start found = (cut name body).map fun l => found ++ mentionsAt start l

/-- The body of an attribute inside another one is a slice with a start of its own. -/
theorem notes_nestedAttribute {pool : ConstantPool} {fuel : Nat} {inside : BodyWalk}
    (h : FindsMentions inside (cut pool fuel)) :
    Notes base (nestedAttribute pool inside base) (Layout.nestedAttribute pool (cut pool fuel)) where
  advance := by
    intro c l c' hread
    obtain ⟨name, length, body, parts, afterName, afterLength, hname, hlength, hbody, hcut, rfl⟩ :=
      nestedAttribute_reads hread
    rw [((Decoder.take_codec _).sound _ _ _ hbody).2.2,
      (Decoder.word32_codec.sound _ _ _ hlength).2.2, (Decoder.word16_codec.sound _ _ _ hname).2.2]
    simp only [toBytes_cons, BodyPart.toBytes, List.length_append, Nat.add_assoc,
      ← (steadyCut pool pool fuel).tiling hcut]
    rfl
  finds := by
    intro c l c' hread found
    obtain ⟨name, length, body, parts, afterName, afterLength, hname, hlength, hbody, hcut, rfl⟩ :=
      nestedAttribute_reads hread
    have hstart : base + afterLength.offset = base + c.offset + 2 + 4 := by
      rw [(Decoder.word32_codec.sound _ _ _ hlength).2.2, (Decoder.word16_codec.sound _ _ _ hname).2.2,
        Nat.add_assoc, Nat.add_assoc]
      rfl
    rw [nestedAttribute, bind_of_ok (record_of_ok hname), bind_of_ok (lift_of_ok hlength),
      bind_of_ok (a := afterLength.offset) rfl, bind_of_ok (lift_of_ok hbody), hstart]
    cases htext : pool.text? name with
    | none =>
      -- an attribute without a name is as unknown as one with an unknown name
      rw [nameAt, htext, cut_of_unknown rfl] at hcut
      obtain rfl : [.plain body] = parts := Except.ok.inj hcut
      rfl
    | some text =>
      rw [nameAt, htext, Option.getD_some] at hcut
      rw [bind_of_ok (a := found ++ [⟨base + c.offset, name, .pinned⟩]) rfl]
      simp only [h text body, hcut, Except.map, mentionsAt, length_bytes32]
      rw [List.append_assoc]
      rfl
  fails := by
    intro c e c' hread found
    rcases JvmRelocation.bind_error hread with hname | ⟨name, afterName, hname, hread⟩
    · exact bind_of_error (record_of_error hname)
    rw [nestedAttribute, bind_of_ok (record_of_ok hname)]
    rcases JvmRelocation.bind_error hread with hlength | ⟨length, afterLength, hlength, hread⟩
    · exact bind_of_error (lift_of_error hlength)
    rw [bind_of_ok (lift_of_ok hlength), bind_of_ok (a := afterLength.offset) rfl]
    rcases JvmRelocation.bind_error hread with hbody | ⟨body, afterBody, hbody, hread⟩
    · exact bind_of_error (lift_of_error hbody)
    rw [bind_of_ok (lift_of_ok hbody),
      bind_of_ok (a := found ++ [⟨base + c.offset, name, .pinned⟩]) rfl]
    cases htext : pool.text? name with
    | none =>
      simp only [htext] at hread
      cases hread
    | some text =>
      simp only [htext] at hread
      cases hcut : cut pool fuel text body with
      | ok parts =>
        simp only [hcut] at hread
        cases hread
      | error e' =>
        simp only [hcut] at hread
        cases hread
        simp only [h text body, hcut, Except.map]
        rfl

/-- **What a walk notes are the mentions of the layout**, at their places in the whole body. -/
theorem findsMentions_walk (pool : ConstantPool) (fuel : Nat) :
    FindsMentions (walk pool fuel) (cut pool fuel) := by
  induction fuel with
  | zero =>
    intro name body start found
    show Except.ok found = Except.ok (found ++ [])
    rw [List.append_nil]
  | succ fuel ih =>
    intro name body start found
    rw [walk, cut]
    cases AttributeKind.ofName? name with
    | none =>
      show Except.ok found = Except.ok (found ++ [])
      rw [List.append_nil]
    | some kind =>
      have hnotes : Notes start _ _ := notes_bodyOf (notes_nestedAttribute ih) (fuel + 1) kind
      simp only [Decoder.runOn]
      cases hread : Layout.bodyOf (fuel + 1) (Layout.nestedAttribute pool (cut pool fuel)) kind
          (Cursor.start body) with
      | error e c' =>
        simp only [hnotes.fails hread found]
        rfl
      | ok l c' =>
        simp only [hnotes.finds hread found]
        obtain ⟨_, _ | ⟨b, rest⟩⟩ := c'
        · show Except.ok _ = Except.ok _
          rw [Cursor.start, Nat.add_zero]
        · rfl

end

end PositionWalk

end JvmRelocation
