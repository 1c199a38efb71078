import JvmRelocation.Proofs.Name.SignatureReading

/-!
# The fuel of the readers is never used up

Between two characters at most two readers are called, each with one less fuel. So with twice as much
fuel as there are characters, and some more, a reader does what it does with any more fuel: it returns
the same, or refuses at the same place.
-/

namespace JvmRelocation

open SignatureReader

/-- Two readers do the same with a text, whatever has been met. -/
def ReadsAlike {α : Type} (r r' : SignatureReader α) (text : List Char) : Prop :=
  ∀ met, r ⟨text, met⟩ = r' ⟨text, met⟩

namespace ReadsAlike

variable {α β : Type} {text : List Char} {r r' : SignatureReader α}

theorem refl (r : SignatureReader α) (text : List Char) : ReadsAlike r r text := fun _ => rfl

theorem bind {f f' : α → SignatureReader β} (hr : ReadsAlike r r' text)
    (hf : ∀ a met rest met', r ⟨text, met⟩ = .ok a ⟨rest, met'⟩ → ReadsAlike (f a) (f' a) rest) :
    ReadsAlike (r >>= f) (r' >>= f') text := by
  intro met
  show EStateM.bind r f _ = EStateM.bind r' f' _
  rw [EStateM.bind, EStateM.bind, ← hr met]
  cases hread : r ⟨text, met⟩ with
  | ok a c => exact hf a met c.rest c.met hread c.met
  | error _ c => rfl

theorem map {g : α → β} (hr : ReadsAlike r r' text) :
    ReadsAlike (r >>= fun a => Pure.pure (g a)) (r' >>= fun a => Pure.pure (g a)) text :=
  hr.bind fun _ _ rest _ _ => refl _ rest

theorem peek {f f' : Option Char → SignatureReader α}
    (h : ∀ next, text.head? = next → ReadsAlike (f next) (f' next) text) :
    ReadsAlike (SignatureReader.peek >>= f) (SignatureReader.peek >>= f') text :=
  fun met => h _ rfl met

theorem advance {c : Char} {f f' : Unit → SignatureReader α} (h : ReadsAlike (f ()) (f' ()) text) :
    ReadsAlike (SignatureReader.advance >>= f) (SignatureReader.advance >>= f') (c :: text) :=
  fun met => h met

theorem meet {name : String} {f f' : Unit → SignatureReader α} (h : ReadsAlike (f ()) (f' ()) text) :
    ReadsAlike (SignatureReader.meet name >>= f) (SignatureReader.meet name >>= f') text :=
  fun met => h (name :: met)

theorem upTo {stop : Char → Bool} {f f' : String → SignatureReader α}
    (h : ∀ name c rest, text = name.toList ++ c :: rest → stop c = true →
      ReadsAlike (f name) (f' name) (c :: rest)) :
    ReadsAlike (SignatureReader.upTo stop >>= f) (SignatureReader.upTo stop >>= f') text := by
  refine bind (refl _ text) fun name met rest met' hread => ?_
  rw [← bind_pure (SignatureReader.upTo stop)] at hread
  obtain ⟨name', c, rest', htext, -, hc, hend⟩ := upTo_bind_ok hread
  obtain ⟨rfl, hcursor⟩ := pure_ok hend
  obtain ⟨rfl, -⟩ := SignatureCursor.mk.inj hcursor
  exact h name' c rest' htext hc

end ReadsAlike

/-! ## What is read is gone past -/

section Lengths

variable {fuel : Nat} {text rest : List Char} {met met' : List String}

theorem length_lt_of_type {t : TypeSignature} (h : type fuel ⟨text, met⟩ = .ok t ⟨rest, met'⟩) :
    rest.length < text.length := by
  obtain ⟨hproper, rfl⟩ := readsOnly_type fuel _ _ _ _ _ h
  have hpos := TypeSignature.length_pos hproper
  rw [t.length_textBefore]
  omega

theorem length_lt_of_arguments {list : List TypeArgument}
    (h : arguments fuel ⟨text, met⟩ = .ok list ⟨rest, met'⟩) : rest.length < text.length := by
  obtain ⟨-, rfl⟩ := (readsOnly_fuel fuel).2.2 _ _ _ _ _ h
  rw [TypeArgument.length_listTextBefore, List.length_cons]
  omega

theorem length_lt_of_parameters {list : List TypeSignature}
    (h : parameters fuel ⟨text, met⟩ = .ok list ⟨rest, met'⟩) : rest.length < text.length := by
  obtain ⟨-, rfl⟩ := readsOnly_parameters fuel _ _ _ _ _ h
  rw [TypeSignature.length_listTextBefore, List.length_cons]
  omega

theorem length_le_of_bounds {list : List (Option TypeSignature)}
    (h : bounds fuel ⟨text, met⟩ = .ok list ⟨rest, met'⟩) : rest.length ≤ text.length := by
  obtain ⟨-, rfl, -⟩ := bounds_ok h
  rw [length_boundsTextBefore]
  omega

theorem length_le_of_formals {list : List FormalParameter}
    (h : formals fuel ⟨text, met⟩ = .ok list ⟨rest, met'⟩) : rest.length ≤ text.length := by
  obtain ⟨-, rfl⟩ := readsOnly_formals fuel _ _ _ _ _ h
  exact Nat.le_of_lt (length_formalsTextBefore list rest)

end Lengths

/-! ## Types -/

section Types

section Step

/-! With one more fuel each reader calls the others with the fuel that they have. -/

variable {fuel : Nat}
  (htype : ∀ text : List Char, 2 * text.length + 1 ≤ fuel →
    ReadsAlike (type fuel) (type (fuel + 1)) text)
  (hsuffixes : ∀ outer, ∀ text : List Char, 2 * text.length + 1 ≤ fuel →
    ReadsAlike (suffixes fuel outer) (suffixes (fuel + 1) outer) text)
  (harguments : ∀ text : List Char, 2 * text.length + 2 ≤ fuel →
    ReadsAlike (arguments fuel) (arguments (fuel + 1)) text)

include htype hsuffixes in
theorem readsAlike_type_succ (text : List Char) (hfuel : 2 * text.length + 1 ≤ fuel + 1) :
    ReadsAlike (type (fuel + 1)) (type (fuel + 1 + 1)) text := by
  rw [type, type]
  apply ReadsAlike.peek
  intro next hnext
  split
  case h_1 => -- an array
    obtain ⟨text, rfl⟩ := eq_cons_of_head? hnext
    rw [List.length_cons] at hfuel
    exact .advance (.map (htype text (by omega)))
  case h_2 => exact .refl _ text
  case h_3 => -- a class type
    obtain ⟨text, rfl⟩ := eq_cons_of_head? hnext
    refine .advance (.upTo fun name c rest htext _ => .meet (.map (hsuffixes name _ ?_)))
    rw [htext] at hfuel
    simp only [List.length_cons, List.length_append] at hfuel ⊢
    omega
  case h_4 => exact .refl _ text
  case h_5 => exact .refl _ text

include hsuffixes harguments in
theorem readsAlike_suffixes_succ (outer : String) (text : List Char)
    (hfuel : 2 * text.length + 1 ≤ fuel + 1) :
    ReadsAlike (suffixes (fuel + 1) outer) (suffixes (fuel + 1 + 1) outer) text := by
  rw [suffixes, suffixes]
  apply ReadsAlike.peek
  intro next hnext
  split
  case h_1 => -- type arguments
    obtain ⟨text, rfl⟩ := eq_cons_of_head? hnext
    rw [List.length_cons] at hfuel
    refine .advance (.bind (harguments text (by omega)) fun list met rest met' hlist => ?_)
    have hlength := length_lt_of_arguments hlist
    exact .map (hsuffixes outer rest (by omega))
  case h_2 => -- an inner class
    obtain ⟨text, rfl⟩ := eq_cons_of_head? hnext
    refine .advance (.upTo fun name c rest htext _ => .meet (.map (hsuffixes _ _ ?_)))
    rw [htext] at hfuel
    simp only [List.length_cons, List.length_append] at hfuel ⊢
    omega
  case h_3 => exact .refl _ text
  case h_4 => exact .refl _ text

include htype harguments in
theorem readsAlike_arguments_succ (text : List Char) (hfuel : 2 * text.length + 2 ≤ fuel + 1) :
    ReadsAlike (arguments (fuel + 1)) (arguments (fuel + 1 + 1)) text := by
  -- a type argument that starts with a type has it behind no character of its own
  have hthen {g : TypeSignature → List TypeArgument → List TypeArgument} (text : List Char)
      (hfuel : 2 * text.length + 2 ≤ fuel + 1) :
      ReadsAlike (type fuel >>= fun t => arguments fuel >>= fun list => Pure.pure (g t list))
        (type (fuel + 1) >>= fun t => arguments (fuel + 1) >>= fun list => Pure.pure (g t list))
        text := by
    refine .bind (htype text (by omega)) fun t met rest met' ht => ?_
    have hlength := length_lt_of_type ht
    exact .map (harguments rest (by omega))
  rw [arguments, arguments]
  apply ReadsAlike.peek
  intro next hnext
  split
  case h_1 => exact .refl _ text
  case h_2 => -- a wildcard
    obtain ⟨text, rfl⟩ := eq_cons_of_head? hnext
    rw [List.length_cons] at hfuel
    exact .advance (.map (harguments text (by omega)))
  case h_3 => -- a bound from above
    obtain ⟨text, rfl⟩ := eq_cons_of_head? hnext
    rw [List.length_cons] at hfuel
    exact .advance (hthen text (by omega))
  case h_4 => -- a bound from below
    obtain ⟨text, rfl⟩ := eq_cons_of_head? hnext
    rw [List.length_cons] at hfuel
    exact .advance (hthen text (by omega))
  case h_5 => exact hthen text hfuel
  case h_6 => exact .refl _ text

end Step

/-- The three readers of a type with one more fuel than they need. -/
theorem readsAlike_fuel (fuel : Nat) :
    (∀ text : List Char, 2 * text.length + 1 ≤ fuel →
      ReadsAlike (type fuel) (type (fuel + 1)) text) ∧
    (∀ outer, ∀ text : List Char, 2 * text.length + 1 ≤ fuel →
      ReadsAlike (suffixes fuel outer) (suffixes (fuel + 1) outer) text) ∧
    ∀ text : List Char, 2 * text.length + 2 ≤ fuel →
      ReadsAlike (arguments fuel) (arguments (fuel + 1)) text := by
  induction fuel with
  | zero =>
    refine ⟨fun text hfuel => ?_, fun outer text hfuel => ?_, fun text hfuel => ?_⟩ <;>
      exact absurd hfuel (Nat.not_succ_le_zero _)
  | succ fuel ih =>
    obtain ⟨htype, hsuffixes, harguments⟩ := ih
    exact ⟨readsAlike_type_succ htype hsuffixes, readsAlike_suffixes_succ hsuffixes harguments,
      readsAlike_arguments_succ htype harguments⟩

theorem readsAlike_type {fuel : Nat} {text : List Char} (hfuel : 2 * text.length + 1 ≤ fuel) :
    ReadsAlike (type fuel) (type (fuel + 1)) text :=
  (readsAlike_fuel fuel).1 text hfuel

end Types

/-! ## Bodies and formal type parameters -/

section Bodies

variable {fuel : Nat} {text : List Char}

theorem readsAlike_parameters (hfuel : 2 * text.length + 2 ≤ fuel) :
    ReadsAlike (parameters fuel) (parameters (fuel + 1)) text := by
  induction fuel generalizing text with
  | zero => exact absurd hfuel (Nat.not_succ_le_zero _)
  | succ fuel ih =>
    rw [parameters, parameters]
    apply ReadsAlike.peek
    intro next hnext
    split
    case h_1 => exact .refl _ text
    case h_2 =>
      refine .bind (readsAlike_type (by omega)) fun t met rest met' ht => ?_
      have hlength := length_lt_of_type ht
      exact .map (ih (by omega))
    case h_3 => exact .refl _ text

theorem readsAlike_thrown (hfuel : 2 * text.length + 2 ≤ fuel) :
    ReadsAlike (thrown fuel) (thrown (fuel + 1)) text := by
  induction fuel generalizing text with
  | zero => exact absurd hfuel (Nat.not_succ_le_zero _)
  | succ fuel ih =>
    rw [thrown, thrown]
    apply ReadsAlike.peek
    intro next hnext
    split
    case isTrue hcaret =>
      obtain ⟨text, rfl⟩ := eq_cons_of_head? (hnext.trans hcaret)
      rw [List.length_cons] at hfuel
      refine .advance (.bind (readsAlike_type (by omega)) fun t met rest met' ht => ?_)
      have hlength := length_lt_of_type ht
      exact .map (ih (by omega))
    case isFalse => exact .refl _ text

theorem readsAlike_typesToEnd (hfuel : 2 * text.length + 2 ≤ fuel) :
    ReadsAlike (typesToEnd fuel) (typesToEnd (fuel + 1)) text := by
  induction fuel generalizing text with
  | zero => exact absurd hfuel (Nat.not_succ_le_zero _)
  | succ fuel ih =>
    rw [typesToEnd, typesToEnd]
    apply ReadsAlike.peek
    intro next hnext
    split
    case h_1 => exact .refl _ text
    case h_2 =>
      refine .bind (readsAlike_type (by omega)) fun t met rest met' ht => ?_
      have hlength := length_lt_of_type ht
      exact .map (ih (by omega))

theorem readsAlike_bounds (hfuel : 2 * text.length + 2 ≤ fuel) :
    ReadsAlike (bounds fuel) (bounds (fuel + 1)) text := by
  induction fuel generalizing text with
  | zero => exact absurd hfuel (Nat.not_succ_le_zero _)
  | succ fuel ih =>
    rw [bounds, bounds]
    apply ReadsAlike.peek
    intro next hnext
    split
    case isTrue hcolon =>
      obtain ⟨text, rfl⟩ := eq_cons_of_head? (hnext.trans hcolon)
      rw [List.length_cons] at hfuel
      refine .advance (.peek fun next _ => ?_)
      split
      case isTrue =>
        refine .bind (readsAlike_type (by omega)) fun t met rest met' ht => ?_
        have hlength := length_lt_of_type ht
        exact .map (ih (by omega))
      case isFalse => exact .map (ih (by omega))
    case isFalse => exact .refl _ text

theorem readsAlike_formals (hfuel : 2 * text.length + 2 ≤ fuel) :
    ReadsAlike (formals fuel) (formals (fuel + 1)) text := by
  induction fuel generalizing text with
  | zero => exact absurd hfuel (Nat.not_succ_le_zero _)
  | succ fuel ih =>
    rw [formals, formals]
    apply ReadsAlike.peek
    intro next hnext
    split
    case h_1 => exact .refl _ text
    case h_2 => exact .refl _ text
    case h_3 _ hcolon =>
      refine .upTo fun name c rest htext hc => ?_
      obtain rfl : c = ':' := by simpa using hc
      -- the name is not empty, so it has a character that is gone past
      have hname : name.toList ≠ [] := by
        intro hnil
        rw [htext, hnil] at hnext
        exact hcolon hnext.symm
      have hlength : (':' :: rest).length < text.length := by
        have hpos := List.length_pos_iff.mpr hname
        rw [htext, List.length_append]
        omega
      refine .bind (readsAlike_bounds (by omega)) fun list met rest' met' hlist => ?_
      have hbounds := length_le_of_bounds hlist
      exact .map (ih (by omega))

theorem readsAlike_body (hfuel : 2 * text.length + 2 ≤ fuel) :
    ReadsAlike (body fuel) (body (fuel + 1)) text := by
  rw [body, body]
  apply ReadsAlike.peek
  intro next hnext
  split
  case h_1 => exact .refl _ text
  case h_2 => -- a method
    obtain ⟨text, rfl⟩ := eq_cons_of_head? hnext
    rw [List.length_cons] at hfuel
    refine .advance (.bind (readsAlike_parameters (by omega)) fun list met rest met' hlist => ?_)
    have hparameters := length_lt_of_parameters hlist
    refine .bind (readsAlike_type (by omega)) fun t _ rest' _ ht => ?_
    have hresult := length_lt_of_type ht
    exact .bind (readsAlike_thrown (by omega)) fun _ _ rest'' _ _ => .refl _ rest''
  case h_3 => exact .map (readsAlike_typesToEnd hfuel)

theorem readsAlike_signature (hfuel : 2 * text.length + 2 ≤ fuel) :
    ReadsAlike (signature fuel) (signature (fuel + 1)) text := by
  rw [signature, signature]
  apply ReadsAlike.peek
  intro next hnext
  split
  case isTrue hopen =>
    obtain ⟨text, rfl⟩ := eq_cons_of_head? (hnext.trans hopen)
    rw [List.length_cons] at hfuel
    refine .advance (.bind (readsAlike_formals (by omega)) fun list met rest met' hlist => ?_)
    have hlength := length_le_of_formals hlist
    exact .map (readsAlike_body (by omega))
  case isFalse => exact .map (readsAlike_body hfuel)

end Bodies

/-- A text is read with as much fuel as it takes. -/
theorem Signature.read_of_le {text : List Char} {fuel : Nat} (hfuel : 2 * text.length + 2 ≤ fuel) :
    SignatureReader.signature fuel ⟨text, []⟩ = Signature.read text := by
  induction fuel, hfuel using Nat.le_induction with
  | base => rfl
  | succ fuel hfuel ih => rw [← readsAlike_signature hfuel, ih]

end JvmRelocation
