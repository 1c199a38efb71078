import JvmRelocation.Proofs.ClassFile.LayoutStability

/-!
# The nesting bound of a cut is never reached

Attributes inside an attribute and annotations inside an annotation are cut with one less fuel each,
and each stands behind bytes of what it is in. So a cut does not depend on its fuel where that exceeds
the number of bytes ahead: bodies are cut at any depth.
-/

namespace JvmRelocation

open Decoder BigEndian

namespace Layout

/-- Two decoders do the same where fewer than `n` bytes are ahead, and the first one cuts what it
consumes into parts. -/
structure AgreeBelow (n : Nat) (d d' : Decoder Layout) : Prop where
  steady : Steady (fun _ => True) d d
  same : ∀ c, c.rest.length < n → d c = d' c

variable {n : Nat} {d d' e e' : Decoder Layout}

theorem AgreeBelow.refl (h : Steady (fun _ => True) d d) : AgreeBelow n d d := ⟨h, fun _ _ => rfl⟩

/-- What is cut is no longer ahead. -/
theorem AgreeBelow.rest_lt (h : AgreeBelow n d d') {c c' : Cursor} {l : Layout}
    (hread : d c = .ok l c') (hlt : c.rest.length < n) : c'.rest.length < n := by
  rw [h.steady.tiling hread, List.length_append] at hlt
  omega

theorem AgreeBelow.append (hd : AgreeBelow n d d') (he : AgreeBelow n e e') :
    AgreeBelow n (do return (← d) ++ (← e)) (do return (← d') ++ (← e')) where
  steady := hd.steady.append he.steady
  same := by
    intro c hlt
    simp only [bind, EStateM.bind, ← hd.same c hlt]
    cases hread : d c with
    | error => rfl
    | ok l mid =>
      simp only
      rw [he.same mid (hd.rest_lt hread hlt)]

/-- Behind a value that takes some bytes there are that many less ahead. -/
theorem AgreeBelow.behind {α : Type} {first : Decoder α} {write : α → Bytes}
    {f f' : α → Decoder Layout} {k : Nat} (hfirst : Codec first write fun _ => True)
    (hk : ∀ a, k ≤ (write a).length) (hf : ∀ a, AgreeBelow n (f a) (f' a)) :
    AgreeBelow (n + k) (do let a ← first; return .plain (write a) :: (← f a))
      (do let a ← first; return .plain (write a) :: (← f' a)) where
  steady := Steady.behind hfirst fun a => (hf a).steady
  same := by
    intro c hlt
    simp only [bind, EStateM.bind]
    cases hread : first c with
    | error => rfl
    | ok a mid =>
      have hmid : mid.rest.length < n := by
        have hlength := congrArg List.length (hfirst.sound _ _ _ hread).2.1
        have := hk a
        rw [List.length_append] at hlength
        omega
      simp only
      rw [(hf a).same mid hmid]

/-- Behind any value there are no more bytes ahead. -/
theorem AgreeBelow.following {α : Type} {first : Decoder α} {write : α → Bytes}
    {f f' : α → Decoder Layout} (hfirst : Codec first write fun _ => True)
    (hf : ∀ a, AgreeBelow n (f a) (f' a)) :
    AgreeBelow n (do let a ← first; return .plain (write a) :: (← f a))
      (do let a ← first; return .plain (write a) :: (← f' a)) :=
  .behind (k := 0) hfirst (fun _ => Nat.zero_le _) hf

theorem AgreeBelow.timesFrom (h : AgreeBelow n d d') (m : Nat) (done : List Layout) (c : Cursor)
    (hlt : c.rest.length < n) : timesFrom d m done c = timesFrom d' m done c := by
  induction m generalizing done c with
  | zero => rfl
  | succ m ih =>
    simp only [Decoder.timesFrom, bind, EStateM.bind, ← h.same c hlt]
    cases hread : d c with
    | error => rfl
    | ok l mid => exact ih (l :: done) mid (h.rest_lt hread hlt)

theorem AgreeBelow.times (h : AgreeBelow n d d') (m : Nat) :
    AgreeBelow n (do return (← times m d).flatten) (do return (← times m d').flatten) where
  steady := h.steady.times m
  same := by
    intro c hlt
    simp only [bind, EStateM.bind, Decoder.times, h.timesFrom m [] c hlt]

/-! ## The parts of bodies -/

theorem agreeBelow_counted (h : AgreeBelow n d d') : AgreeBelow n (counted d) (counted d') := by
  have h := AgreeBelow.following word16_codec fun count : UInt16 => h.times count.toNat
  simpa only [counted, bind_assoc, pure_bind] using h

theorem agreeBelow_shortCounted (h : AgreeBelow n d d') :
    AgreeBelow n (shortCounted d) (shortCounted d') := by
  have h := AgreeBelow.following byte_codec fun count : UInt8 => h.times count.toNat
  simpa only [shortCounted, bind_assoc, pure_bind] using h

theorem agreeBelow_sequence {list list' : List (Decoder Layout)}
    (h : List.Forall₂ (AgreeBelow n) list list') : AgreeBelow n (sequence list) (sequence list') := by
  induction h with
  | nil => exact .refl steady_nil
  | cons hitem hrest ih =>
    cases hrest with
    | nil => exact hitem
    | cons hsecond hrest => exact hitem.append ih

theorem agreeBelow_annotationWith (h : AgreeBelow n d d') (use : IndexUse) :
    AgreeBelow n (annotationWith d use) (annotationWith d' use) :=
  agreeBelow_sequence (.cons (.refl (steady_indexFor use)) (.cons (agreeBelow_counted
    (agreeBelow_sequence (.cons (.refl (steady_indexFor .pinned)) (.cons h .nil)))) .nil))

/-- Every value inside another one stands behind the tag of that one. -/
theorem agreeBelow_elementValue {fuel fuel' : Nat} (h : n ≤ fuel) (h' : n ≤ fuel') :
    AgreeBelow n (elementValue fuel) (elementValue fuel') := by
  induction n generalizing fuel fuel' with
  | zero => exact ⟨steady_elementValue fuel, fun c hlt => absurd hlt (Nat.not_lt_zero _)⟩
  | succ n ih =>
    obtain ⟨fuel, rfl⟩ := Nat.exists_eq_add_of_le' (Nat.one_le_of_lt h)
    obtain ⟨fuel', rfl⟩ := Nat.exists_eq_add_of_le' (Nat.one_le_of_lt h')
    have hinside := ih (Nat.le_of_succ_le_succ h) (Nat.le_of_succ_le_succ h')
    rw [elementValue_succ, elementValue_succ]
    refine AgreeBelow.behind byte_codec (fun _ => Nat.le_refl 1) fun tag => ?_
    unfold elementContent
    generalize Char.ofNat tag.toNat = letter
    split
    case h_9 => exact .refl (steady_indexFor .pinned)
    case h_10 =>
      exact .refl (steady_sequence (.cons (steady_indexFor _) (.cons (steady_indexFor _) .nil)))
    case h_11 => exact .refl (steady_indexFor _)
    case h_12 => exact agreeBelow_annotationWith hinside _
    case h_13 => exact agreeBelow_counted hinside
    case h_14 => exact .refl (steady_throw _)
    all_goals exact .refl (steady_skip 2)

theorem agreeBelow_typeAnnotationItem {fuel fuel' : Nat} (h : n ≤ fuel) (h' : n ≤ fuel') :
    AgreeBelow n (typeAnnotationItem fuel) (typeAnnotationItem fuel') := by
  have hpath (steps : UInt8) : AgreeBelow n _ _ :=
    (AgreeBelow.refl (steady_skip (steps.toNat * 2))).append
      (agreeBelow_annotationWith (agreeBelow_elementValue h h') (.name .descriptor))
  have hitem : AgreeBelow n _ _ := AgreeBelow.following byte_codec fun code =>
    (AgreeBelow.refl (steady_targetInfo code)).append (AgreeBelow.following byte_codec hpath)
  simpa only [typeAnnotationItem, annotationItem, bind_assoc, pure_bind] using hitem

theorem agreeBelow_bodyOf {fuel fuel' : Nat} (h : n ≤ fuel) (h' : n ≤ fuel')
    (hd : AgreeBelow n d d') (kind : AttributeKind) :
    AgreeBelow n (bodyOf fuel d kind) (bodyOf fuel' d' kind) := by
  have hitem (use : IndexUse) : AgreeBelow n (annotationItem fuel use) (annotationItem fuel' use) :=
    agreeBelow_annotationWith (agreeBelow_elementValue h h') use
  have hsteady : Steady (fun _ => True) _ _ := steady_bodyOf hd.steady fuel kind
  cases kind with
  | code =>
    exact agreeBelow_sequence (.cons (.refl (steady_skip 4)) (.cons (.refl steady_instructions)
      (.cons (.refl (steady_table 8)) (.cons (agreeBelow_counted hd) .nil))))
  | annotations => exact agreeBelow_counted (hitem _)
  | parameterAnnotations => exact agreeBelow_shortCounted (agreeBelow_counted (hitem _))
  | typeAnnotations => exact agreeBelow_counted (agreeBelow_typeAnnotationItem h h')
  | annotationDefault => exact agreeBelow_elementValue h h'
  | record =>
    exact agreeBelow_counted (agreeBelow_sequence (.cons (.refl (steady_indexFor _))
      (.cons (.refl (steady_indexFor _)) (.cons (agreeBelow_counted hd) .nil))))
  | signature | localVariables | sourceFile | innerClasses | methodParameters =>
    -- no fuel is needed
    exact .refl hsteady

/-! ## Whole bodies -/

/-- The body of a nested attribute is shorter than what it is cut from. -/
theorem agreeBelow_nestedAttribute {pool : ConstantPool} {fuel fuel' : Nat}
    (h : ∀ name body, body.length < n → cut pool fuel name body = cut pool fuel' name body) :
    AgreeBelow (n + 1) (nestedAttribute pool (cut pool fuel))
      (nestedAttribute pool (cut pool fuel')) where
  steady := by
    have hsteady := steady_nestedAttribute (steadyCut pool pool fuel)
    refine ⟨hsteady.tiling, fun hread _ hl _ => hsteady.reread hread hl fun _ _ => rfl⟩
  same := by
    intro c hlt
    simp only [nestedAttribute, bind, EStateM.bind]
    cases hname : word16 c with
    | error => rfl
    | ok name afterName =>
      cases hlength : word32 afterName with
      | error => simp only [hlength]
      | ok length afterLength =>
        simp only [hlength]
        cases hbody : take length.toNat afterLength with
        | error => rfl
        | ok body afterBody =>
          have hshort : body.length < n := by
            have hrest : c.rest = bytes16 name ++ (bytes32 length ++ (body ++ afterBody.rest)) := by
              rw [(word16_codec.sound _ _ _ hname).2.1, (word32_codec.sound _ _ _ hlength).2.1,
                ((take_codec _).sound _ _ _ hbody).2.1]
              rfl
            have hsize := congrArg List.length hrest
            simp only [List.length_append, length_bytes16, length_bytes32] at hsize
            omega
          simp only [h _ body hshort]

theorem cut_agree (pool : ConstantPool) {fuel fuel' : Nat} (h : n ≤ fuel) (h' : n ≤ fuel')
    (name : String) {body : Bytes} (hlt : body.length < n) :
    cut pool fuel name body = cut pool fuel' name body := by
  induction n generalizing fuel fuel' name body with
  | zero => exact absurd hlt (Nat.not_lt_zero _)
  | succ n ih =>
    obtain ⟨fuel, rfl⟩ := Nat.exists_eq_add_of_le' (Nat.one_le_of_lt h)
    obtain ⟨fuel', rfl⟩ := Nat.exists_eq_add_of_le' (Nat.one_le_of_lt h')
    rw [cut, cut]
    cases AttributeKind.ofName? name with
    | none => rfl
    | some kind =>
      have hnested := agreeBelow_nestedAttribute fun name body hshort =>
        ih (Nat.le_of_succ_le_succ h) (Nat.le_of_succ_le_succ h') name hshort
      have hsame := (agreeBelow_bodyOf h h' hnested kind).same (Cursor.start body) hlt
      simp only [runOn, hsame]

end Layout

/-- **The bound does not matter.** A body is cut in the same way with any fuel that exceeds its
length. -/
theorem Attribute.cut_eq_layout (pool : ConstantPool) (name : String) (a : Attribute) {fuel : Nat}
    (h : a.body.size < fuel) : Layout.cut pool fuel name a.body.toList = a.layout pool name :=
  Layout.cut_agree pool h (Nat.le_refl _) name (by rw [Array.length_toList]; omega)

end JvmRelocation
