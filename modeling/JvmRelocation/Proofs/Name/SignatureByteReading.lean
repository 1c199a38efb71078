import JvmRelocation.Proofs.Name.SignatureFuel
import JvmRelocation.Proofs.Name.SignatureWritten

/-!
# The bytes of a signature are read as its characters

The reader of bytes goes through a text as the reader of trees does, place by place. Where the one
returns a tree, the other has written the text of the renamed tree, and noted whether a label differs;
where the one refuses to go on, so does the other, at the same place. A step of one is a step of the
other, with one lemma for each thing that a reader can do; the readers themselves follow by induction
on the fuel.
-/

namespace JvmRelocation

/-! ## Steps of both readers -/

/-- Readings that end alike: with a result and what is to be written until then, or with a refusal, and
at the same place of the text. -/
def EndsAlike {α : Type} (text : List Char) (after : α → Written) :
    EStateM.Result Unit SignatureCursor α → EStateM.Result ByteFault ByteCursor Unit → Prop
  | .ok a c, .ok _ c' => At text c.rest c'.position ∧ c'.written = after a
  | .error _ c, .error fault c' => At text c.rest c'.position ∧ fault = .malformed c'.position
  | _, _ => False

/-- From a place on, a reader of bytes goes along with a reader of characters, and writes what belongs to
the result. -/
def Follows {α : Type} (text rest : List Char) (before : Written) (r : SignatureReader α)
    (b : ByteReader Unit) (after : α → Written) : Prop :=
  ∀ met position, At text rest position →
    EndsAlike text after (r ⟨rest, met⟩) (b ⟨position, before⟩)

namespace Follows

variable {α β : Type} {text rest : List Char} {before : Written} {r : SignatureReader α}
  {b k : ByteReader Unit} {after : α → Written} {after' : β → Written}

theorem refuse : Follows text rest before (SignatureReader.refuse : SignatureReader α)
    ByteReader.refuse after := by
  intro met position hat
  exact ⟨hat, rfl⟩

/-- One reading after another; the second one may use what the first one has returned. -/
theorem bind_of_ok {f : α → SignatureReader β} (hr : Follows text rest before r b after)
    (hf : ∀ a met rest' met', r ⟨rest, met⟩ = .ok a ⟨rest', met'⟩ →
      Follows text rest' (after a) (f a) k after') :
    Follows text rest before (r >>= f) (b >>= fun _ => k) after' := by
  intro met position hat
  have hstep := hr met position hat
  show EndsAlike text after' (EStateM.bind r f ⟨rest, met⟩) (EStateM.bind b (fun _ => k) _)
  rw [EStateM.bind, EStateM.bind]
  cases hread : r ⟨rest, met⟩ with
  | ok a c =>
    cases hbytes : b ⟨position, before⟩ with
    | ok _ c' =>
      rw [hread, hbytes] at hstep
      obtain ⟨hat', hwritten⟩ := hstep
      have hthen := hf a met c.rest c.met hread c.met c'.position hat'
      rw [← hwritten] at hthen
      exact hthen
    | error fault c' =>
      rw [hread, hbytes] at hstep
      exact hstep.elim
  | error _ c =>
    cases hbytes : b ⟨position, before⟩ with
    | ok _ c' =>
      rw [hread, hbytes] at hstep
      exact hstep.elim
    | error fault c' =>
      rw [hread, hbytes] at hstep
      exact hstep

theorem bind {f : α → SignatureReader β} (hr : Follows text rest before r b after)
    (hf : ∀ a rest', Follows text rest' (after a) (f a) k after') :
    Follows text rest before (r >>= f) (b >>= fun _ => k) after' :=
  hr.bind_of_ok fun a _ rest' _ _ => hf a rest'

theorem pure {a : α} (ha : after a = before) :
    Follows text rest before (Pure.pure a) (Pure.pure ()) after := by
  intro met position hat
  exact ⟨hat, ha.symm⟩

/-- A result that is wrapped. -/
theorem map {g : α → β} (hr : Follows text rest before r b after)
    (hg : ∀ a, after' (g a) = after a) :
    Follows text rest before (r >>= fun a => Pure.pure (g a)) b after' := by
  have h : Follows text rest before (r >>= fun a => Pure.pure (g a)) (b >>= fun _ => Pure.pure ())
      after' := hr.bind fun a rest' => pure (hg a)
  rwa [bind_pure_unit] at h

theorem peek {f : Option Char → SignatureReader α} {k : Option UInt8 → ByteReader Unit}
    (h : Follows text rest before (f rest.head?) (k (utf8 rest).head?) after) :
    Follows text rest before (SignatureReader.peek >>= f) (ByteReader.peek text >>= k) after := by
  intro met position hat
  have hstep := h met position hat
  show EndsAlike text after (f rest.head? ⟨rest, met⟩) (EStateM.bind (ByteReader.peek text) k _)
  rwa [EStateM.bind, ByteReader.peek_eq before hat]

theorem meet {name : String} {f : Unit → SignatureReader α}
    (h : Follows text rest before (f ()) b after) :
    Follows text rest before (SignatureReader.meet name >>= f) b after := by
  intro met position hat
  exact h (name :: met) position hat

theorem write {w : Written} {k : Unit → ByteReader Unit}
    (h : Follows text rest (before ++ w) r (k ()) after) :
    Follows text rest before r (ByteReader.write w >>= k) after := by
  intro met position hat
  exact h met position hat

theorem copy {c : Char} {f : Unit → SignatureReader α} {k : Unit → ByteReader Unit}
    (hc : c.toNat < 128) (h : Follows text rest (before ++ .copied [c]) (f ()) (k ()) after) :
    Follows text (c :: rest) before (SignatureReader.advance >>= f) (ByteReader.copy text 1 >>= k)
      after := by
  intro met position hat
  obtain ⟨hcopy, hat'⟩ := ByteReader.copy_eq before hc hat
  have hstep := h met (position + 1) hat'
  show EndsAlike text after (f () ⟨rest, met⟩) (EStateM.bind (ByteReader.copy text 1) k _)
  rwa [EStateM.bind, hcopy]

/-- A last character. -/
theorem copy_end {c : Char} {a : α} (hc : c.toNat < 128) (ha : after a = before ++ .copied [c]) :
    Follows text (c :: rest) before (SignatureReader.advance >>= fun _ => Pure.pure a)
      (ByteReader.copy text 1) after := by
  intro met position hat
  obtain ⟨hcopy, hat'⟩ := ByteReader.copy_eq before hc hat
  rw [hcopy]
  exact ⟨hat', ha.symm⟩

/-- A name, up to one of some characters. -/
theorem upTo {stop : Char → Bool} {stops : List Char} {f : String → SignatureReader α}
    {k : String → ByteReader Unit} (hstops : ∀ x ∈ stops, x.toNat < 128)
    (hstop : ∀ c, stop c = true ↔ c ∈ stops)
    (h : ∀ name c rest', stop c = true → rest = name.toList ++ c :: rest' →
      Follows text (c :: rest') before (f name) (k name) after) :
    Follows text rest before (SignatureReader.upTo stop >>= f) (ByteReader.takeUntil text stops >>= k)
      after := by
  intro met position hat
  show EndsAlike text after (EStateM.bind (SignatureReader.upTo stop) f _)
    (EStateM.bind (ByteReader.takeUntil text stops) k _)
  rw [EStateM.bind, EStateM.bind, SignatureReader.upTo, List.span_eq_takeWhile_dropWhile]
  have hnone {c : Char} (hc : (!stop c) = true) : c ∉ stops := by
    rw [← hstop c]
    simpa using hc
  cases hdrop : rest.dropWhile fun x => !stop x with
  | nil =>
    have hrest (c : Char) (hc : c ∈ rest) : c ∉ stops := hnone (List.dropWhile_eq_nil_iff.mp hdrop c hc)
    rw [ByteReader.takeUntil_of_not_mem before hstops hrest hat]
    exact ⟨hat, rfl⟩
  | cons c rest' =>
    have hc : stop c = true := by
      have hhead := List.head?_dropWhile_not (fun x => !stop x) rest
      rw [hdrop] at hhead
      simpa using hhead
    have hrest : rest = rest.takeWhile (fun x => !stop x) ++ c :: rest' := by
      rw [← hdrop, List.takeWhile_append_dropWhile]
    have htoken (x : Char) (hx : x ∈ rest.takeWhile fun x => !stop x) : x ∉ stops :=
      hnone (List.mem_takeWhile_imp (p := fun x => !stop x) hx)
    have hat' := hat
    rw [hrest] at hat'
    obtain ⟨htake, hbehind⟩ := ByteReader.takeUntil_of_mem before hstops htoken
      ((hstop c).mp hc) hat'
    rw [htake]
    exact h _ c rest' hc (by rw [String.toList_ofList]; exact hrest) met _ hbehind

/-- Both readers may end behind the last character only. -/
theorem atEnd {a : α} (ha : after a = before) :
    Follows text rest before
      (match rest.head? with
      | none => Pure.pure a
      | some _ => SignatureReader.refuse)
      (ByteReader.atEnd text) after := by
  intro met position hat
  have hlength := hat.add_length
  rw [ByteReader.atEnd]
  cases rest with
  | nil =>
    rw [if_pos (by simpa [utf8] using hlength)]
    exact ⟨hat, ha.symm⟩
  | cons c rest =>
    have hpos := c.utf8Size_pos
    rw [utf8_cons, List.length_append, String.length_utf8EncodeChar] at hlength
    rw [if_neg (by dsimp only; omega)]
    exact ⟨hat, rfl⟩

end Follows

/-! ## Types -/

theorem isOneOf_head? {rest : List Char} (stops : List Char) (hstops : ∀ x ∈ stops, x.toNat < 128) :
    ByteReader.isOneOf stops (utf8 rest).head? = stops.any fun x => rest.head? = some x := by
  rw [ByteReader.isOneOf, Bool.eq_iff_iff, List.any_eq_true, List.any_eq_true]
  refine exists_congr fun x => and_congr_right fun hx => ?_
  rw [decide_eq_true_eq, decide_eq_true_eq, head?_utf8_eq (hstops x hx)]

theorem endsName_iff (c : Char) : SignatureReader.endsName c = true ↔ c ∈ ['<', '.', ';'] := by
  simp [SignatureReader.endsName, or_assoc]

section Types

variable {m : NameMapper} {text : List Char}

section Step

/-! With one more fuel each reader calls the others with the fuel that they have. -/

variable {fuel : Nat}
  (htype : ∀ rest before, Follows text rest before (SignatureReader.type fuel)
    (ByteReader.type text m fuel) fun t => before ++ t.written m)
  (hsuffixes : ∀ outer target rest before, Follows text rest before
    (SignatureReader.suffixes fuel outer) (ByteReader.suffixes text m fuel outer target)
    fun list => before ++ (TypeSuffix.written m outer target list ++ .copied [';']))
  (harguments : ∀ rest before, Follows text rest before (SignatureReader.arguments fuel)
    (ByteReader.arguments text m fuel)
    fun list => before ++ (TypeArgument.written m list ++ .copied ['>']))

include htype hsuffixes in
theorem follows_type_succ (rest : List Char) (before : Written) :
    Follows text rest before (SignatureReader.type (fuel + 1)) (ByteReader.type text m (fuel + 1))
      fun t => before ++ t.written m := by
  rw [SignatureReader.type, ByteReader.type]
  apply Follows.peek
  simp only [isOneOf_head? ['B', 'C', 'D', 'F', 'I', 'J', 'S', 'Z', 'V'] (by simp),
    head?_utf8_eq (x := '[') (by decide), head?_utf8_eq (x := 'T') (by decide),
    head?_utf8_eq (x := 'L') (by decide)]
  generalize hnext : rest.head? = next
  split
  case h_1 => -- an array
    obtain ⟨rest, rfl⟩ := eq_cons_of_head? hnext
    rw [if_neg (by decide), if_pos rfl]
    refine .copy (by decide) (.map (htype rest _) fun element => ?_)
    rw [TypeSignature.written_array, Written.append_assoc]
  case h_2 => -- a type variable
    obtain ⟨rest, rfl⟩ := eq_cons_of_head? hnext
    rw [if_neg (by decide), if_neg (by decide), if_pos rfl]
    refine .copy (by decide) (.upTo (by simp) (by simp) fun name c rest' hc _ => .write ?_)
    obtain rfl : c = ';' := by simpa using hc
    refine .copy_end (by decide) ?_
    rw [TypeSignature.written_typeVariable, Written.append_assoc, Written.append_assoc]
  case h_3 => -- a class type
    obtain ⟨rest, rfl⟩ := eq_cons_of_head? hnext
    rw [if_neg (by decide), if_neg (by decide), if_neg (by decide), if_pos rfl]
    refine .copy (by decide) (.upTo (by simp) endsName_iff fun name c rest' _ _ => ?_)
    refine .meet (.write (.map (hsuffixes name (m.rename name) _ _) fun suffixes => ?_))
    rw [TypeSignature.written_classType, Written.append_assoc, Written.append_assoc]
  case h_4 c hopen hvariable hclass => -- a primitive type, if it is one
    obtain ⟨rest, rfl⟩ := eq_cons_of_head? hnext
    by_cases hbase : SignatureReader.isBaseLetter c = true
    · rw [if_pos hbase, if_pos (by simpa [SignatureReader.isBaseLetter] using hbase)]
      have hc : c.toNat < 128 := by
        obtain rfl | rfl | rfl | rfl | rfl | rfl | rfl | rfl | rfl := isBaseLetter_eq_true hbase <;>
          decide
      exact .copy_end hc rfl
    · rw [if_neg hbase, if_neg (by simpa [SignatureReader.isBaseLetter] using hbase),
        if_neg (by simpa using hopen), if_neg (by simpa using hvariable),
        if_neg (by simpa using hclass)]
      exact .refuse
  case h_5 => -- the end of the text
    rw [if_neg (by decide), if_neg (by decide), if_neg (by decide), if_neg (by decide)]
    exact .refuse

include hsuffixes harguments in
theorem follows_suffixes_succ (outer target : String) (rest : List Char) (before : Written) :
    Follows text rest before (SignatureReader.suffixes (fuel + 1) outer)
      (ByteReader.suffixes text m (fuel + 1) outer target)
      fun list => before ++ (TypeSuffix.written m outer target list ++ .copied [';']) := by
  rw [SignatureReader.suffixes, ByteReader.suffixes]
  apply Follows.peek
  simp only [head?_utf8_eq (x := '<') (by decide), head?_utf8_eq (x := '.') (by decide),
    head?_utf8_eq (x := ';') (by decide)]
  generalize hnext : rest.head? = next
  split
  case h_1 => -- type arguments
    obtain ⟨rest, rfl⟩ := eq_cons_of_head? hnext
    rw [if_pos rfl]
    refine .copy (by decide) (.bind (harguments rest _) fun inside rest' => ?_)
    refine .map (hsuffixes outer target rest' _) fun list => ?_
    simp only [TypeSuffix.written_arguments, Written.append_assoc]
  case h_2 => -- an inner class
    obtain ⟨rest, rfl⟩ := eq_cons_of_head? hnext
    rw [if_neg (by decide), if_pos rfl]
    refine .copy (by decide) (.upTo (by simp) endsName_iff fun name c rest' _ _ => .meet ?_)
    split
    case h_1 replaced hreplaced =>
      refine .write (.map (hsuffixes _ replaced _ _) fun list => ?_)
      simp only [TypeSuffix.written_inner_some _ _ _ hreplaced, Written.append_assoc]
    case h_2 hnone =>
      refine .write (.map (hsuffixes _ (innerName target name) _ _) fun list => ?_)
      simp only [TypeSuffix.written_inner_none _ _ _ hnone, Written.append_assoc]
  case h_3 => -- the end
    obtain ⟨rest, rfl⟩ := eq_cons_of_head? hnext
    rw [if_neg (by decide), if_neg (by decide), if_pos rfl]
    exact .copy_end (by decide) rfl
  case h_4 harguments' hinner hend =>
    rw [if_neg harguments', if_neg hinner, if_neg hend]
    exact .refuse

include htype harguments in
theorem follows_arguments_succ (rest : List Char) (before : Written) :
    Follows text rest before (SignatureReader.arguments (fuel + 1))
      (ByteReader.arguments text m (fuel + 1))
      fun list => before ++ (TypeArgument.written m list ++ .copied ['>']) := by
  rw [SignatureReader.arguments, ByteReader.arguments]
  apply Follows.peek
  simp only [isOneOf_head? ['+', '-'] (by simp), head?_utf8_eq (x := '>') (by decide),
    head?_utf8_eq (x := '*') (by decide), isNone_head?_utf8]
  generalize hnext : rest.head? = next
  split
  case h_1 => -- the end
    obtain ⟨rest, rfl⟩ := eq_cons_of_head? hnext
    rw [if_pos rfl]
    exact .copy_end (by decide) rfl
  case h_2 => -- a wildcard
    obtain ⟨rest, rfl⟩ := eq_cons_of_head? hnext
    rw [if_neg (by decide), if_pos rfl]
    refine .copy (by decide) (.map (harguments rest _) fun list => ?_)
    simp only [TypeArgument.written_wildcard, Written.append_assoc]
  case h_3 => -- a bound from above
    obtain ⟨rest, rfl⟩ := eq_cons_of_head? hnext
    rw [if_neg (by decide), if_neg (by decide), if_pos (by decide)]
    refine .copy (by decide) (.bind (htype rest _) fun bound rest' => ?_)
    refine .map (harguments rest' _) fun list => ?_
    simp only [TypeArgument.written_subtypeOf, Written.append_assoc]
  case h_4 => -- a bound from below
    obtain ⟨rest, rfl⟩ := eq_cons_of_head? hnext
    rw [if_neg (by decide), if_neg (by decide), if_pos (by decide)]
    refine .copy (by decide) (.bind (htype rest _) fun bound rest' => ?_)
    refine .map (harguments rest' _) fun list => ?_
    simp only [TypeArgument.written_supertypeOf, Written.append_assoc]
  case h_5 c hend hwildcard hplus hminus => -- a type, none of whose characters is read yet
    rw [if_neg (by simpa using hend), if_neg (by simpa using hwildcard),
      if_neg (by simpa using ⟨hplus, hminus⟩), if_neg (by simp)]
    refine .bind (htype rest _) fun type rest' => ?_
    refine .map (harguments rest' _) fun list => ?_
    simp only [TypeArgument.written_exactly, Written.append_assoc]
  case h_6 => -- the end of the text
    rw [if_neg (by decide), if_neg (by decide), if_neg (by decide), if_pos Option.isNone_none]
    exact .refuse

end Step

/-- The three readers of a type call each other with one less fuel. -/
theorem follows_fuel (fuel : Nat) :
    (∀ rest before, Follows text rest before (SignatureReader.type fuel)
      (ByteReader.type text m fuel) fun t => before ++ t.written m) ∧
    (∀ outer target rest before, Follows text rest before
      (SignatureReader.suffixes fuel outer) (ByteReader.suffixes text m fuel outer target)
      fun list => before ++ (TypeSuffix.written m outer target list ++ .copied [';'])) ∧
    ∀ rest before, Follows text rest before (SignatureReader.arguments fuel)
      (ByteReader.arguments text m fuel)
      fun list => before ++ (TypeArgument.written m list ++ .copied ['>']) := by
  induction fuel with
  | zero =>
    refine ⟨fun rest before => ?_, fun outer target rest before => ?_, fun rest before => ?_⟩
    · rw [SignatureReader.type, ByteReader.type]
      exact .refuse
    · rw [SignatureReader.suffixes, ByteReader.suffixes]
      exact .refuse
    · rw [SignatureReader.arguments, ByteReader.arguments]
      exact .refuse
  | succ fuel ih =>
    obtain ⟨htype, hsuffixes, harguments⟩ := ih
    exact ⟨follows_type_succ htype hsuffixes, follows_suffixes_succ hsuffixes harguments,
      follows_arguments_succ htype harguments⟩

theorem follows_type (fuel : Nat) (rest : List Char) (before : Written) :
    Follows text rest before (SignatureReader.type fuel) (ByteReader.type text m fuel)
      fun t => before ++ t.written m :=
  (follows_fuel fuel).1 rest before

end Types

/-! ## Bodies and formal type parameters -/

section Bodies

variable {m : NameMapper} {text : List Char}

theorem follows_parameters (fuel : Nat) (rest : List Char) (before : Written) :
    Follows text rest before (SignatureReader.parameters fuel) (ByteReader.parameters text m fuel)
      fun list => before ++ (.each (TypeSignature.written m) list ++ .copied [')']) := by
  induction fuel generalizing rest before with
  | zero => exact .refuse
  | succ fuel ih =>
    rw [SignatureReader.parameters, ByteReader.parameters]
    apply Follows.peek
    simp only [head?_utf8_eq (x := ')') (by decide), isNone_head?_utf8]
    generalize hnext : rest.head? = next
    split
    case h_1 =>
      obtain ⟨rest, rfl⟩ := eq_cons_of_head? hnext
      rw [if_pos rfl]
      exact .copy_end (by decide) rfl
    case h_2 c hend =>
      rw [if_neg (by simpa using hend), if_neg (by simp)]
      refine .bind (follows_type fuel rest _) fun parameter rest' => .map (ih rest' _) fun list => ?_
      simp only [Written.each_cons, Written.append_assoc]
    case h_3 =>
      rw [if_neg (by decide), if_pos Option.isNone_none]
      exact .refuse

theorem follows_thrown (fuel : Nat) (rest : List Char) (before : Written) :
    Follows text rest before (SignatureReader.thrown fuel) (ByteReader.thrown text m fuel)
      fun list => before ++ .each (TypeSignature.thrownWritten m) list := by
  induction fuel generalizing rest before with
  | zero => exact .refuse
  | succ fuel ih =>
    rw [SignatureReader.thrown, ByteReader.thrown]
    apply Follows.peek
    simp only [head?_utf8_eq (x := '^') (by decide)]
    split
    case isTrue hnext =>
      obtain ⟨rest, rfl⟩ := eq_cons_of_head? hnext
      refine .copy (by decide) (.bind (follows_type fuel rest _) fun exception rest' => ?_)
      refine .map (ih rest' _) fun list => ?_
      simp only [Written.each_cons, TypeSignature.thrownWritten, Written.append_assoc]
    case isFalse => exact .pure (Written.append_nothing before)

theorem follows_typesToEnd (fuel : Nat) (rest : List Char) (before : Written) :
    Follows text rest before (SignatureReader.typesToEnd fuel) (ByteReader.typesToEnd text m fuel)
      fun list => before ++ .each (TypeSignature.written m) list := by
  induction fuel generalizing rest before with
  | zero => exact .refuse
  | succ fuel ih =>
    rw [SignatureReader.typesToEnd, ByteReader.typesToEnd]
    apply Follows.peek
    simp only [← Option.not_isNone, isNone_head?_utf8]
    generalize hnext : rest.head? = next
    split
    case h_1 =>
      exact .pure (Written.append_nothing before)
    case h_2 c =>
      refine .bind (follows_type fuel rest _) fun first rest' => .map (ih rest' _) fun list => ?_
      simp only [Written.each_cons, Written.append_assoc]

theorem startsBound_eq {next : Option Char} :
    SignatureReader.startsBound next = ['L', 'T', '['].any fun x => next = some x := by
  simp [SignatureReader.startsBound, Bool.or_assoc]

theorem follows_bounds (fuel : Nat) (rest : List Char) (before : Written) :
    Follows text rest before (SignatureReader.bounds fuel) (ByteReader.bounds text m fuel)
      fun list => before ++ .each (FormalParameter.boundWritten m) list := by
  induction fuel generalizing rest before with
  | zero => exact .refuse
  | succ fuel ih =>
    rw [SignatureReader.bounds, ByteReader.bounds]
    apply Follows.peek
    simp only [head?_utf8_eq (x := ':') (by decide)]
    split
    case isTrue hnext =>
      obtain ⟨rest, rfl⟩ := eq_cons_of_head? hnext
      refine .copy (by decide) (.peek ?_)
      simp only [isOneOf_head? ['L', 'T', '['] (by simp), ← startsBound_eq]
      split
      case isTrue =>
        refine .bind (follows_type fuel rest _) fun bound rest' => .map (ih rest' _) fun list => ?_
        simp only [Written.each_cons, FormalParameter.boundWritten, Written.append_assoc]
      case isFalse =>
        refine .map (ih rest _) fun list => ?_
        simp only [Written.each_cons, FormalParameter.boundWritten, Written.append_assoc]
    case isFalse => exact .pure (Written.append_nothing before)

theorem follows_formals (fuel : Nat) (rest : List Char) (before : Written) :
    Follows text rest before (SignatureReader.formals fuel) (ByteReader.formals text m fuel)
      fun list => before ++ (.each (FormalParameter.written m) list ++ .copied ['>']) := by
  induction fuel generalizing rest before with
  | zero => exact .refuse
  | succ fuel ih =>
    rw [SignatureReader.formals, ByteReader.formals]
    apply Follows.peek
    simp only [head?_utf8_eq (x := '>') (by decide)]
    generalize hnext : rest.head? = next
    split
    case h_1 =>
      obtain ⟨rest, rfl⟩ := eq_cons_of_head? hnext
      rw [if_pos rfl]
      exact .copy_end (by decide) rfl
    case h_2 =>
      obtain ⟨rest, rfl⟩ := eq_cons_of_head? hnext
      rw [if_neg (by decide)]
      intro met position hat
      have hempty : At text ([] ++ ':' :: rest) position := hat
      obtain ⟨htake, hat'⟩ := ByteReader.takeUntil_of_mem before (by simp) (by simp)
        (List.mem_singleton_self ':') hempty
      show EndsAlike text _ _ (EStateM.bind (ByteReader.takeUntil text [':']) _ _)
      rw [EStateM.bind, htake]
      exact ⟨hat', rfl⟩
    case h_3 hend hcolon =>
      rw [if_neg hend]
      refine .upTo (by simp) (by simp) fun name c rest' hc hrest => ?_
      have hname : name ≠ "" := by
        rintro rfl
        obtain rfl : c = ':' := by simpa using hc
        exact hcolon (by rw [← hnext, hrest]; rfl)
      rw [if_neg hname]
      refine .write (.bind (follows_bounds fuel _ _) fun bounds rest'' => ?_)
      refine .map (ih rest'' _) fun list => ?_
      simp only [Written.each_cons, FormalParameter.written, Written.append_assoc]

theorem follows_body (fuel : Nat) (rest : List Char) (before : Written) :
    Follows text rest before (SignatureReader.body fuel) (ByteReader.body text m fuel)
      fun b => before ++ b.written m := by
  rw [SignatureReader.body, ByteReader.body]
  apply Follows.peek
  simp only [head?_utf8_eq (x := '(') (by decide), isNone_head?_utf8]
  generalize hnext : rest.head? = next
  split
  case h_1 =>
    rw [if_neg (by decide), if_pos Option.isNone_none]
    exact .refuse
  case h_2 => -- a method
    obtain ⟨rest, rfl⟩ := eq_cons_of_head? hnext
    rw [if_pos rfl]
    refine .copy (by decide) (.bind (follows_parameters fuel rest _) fun list afterList => ?_)
    refine .bind (follows_type fuel afterList _) fun result afterResult => ?_
    refine .bind (follows_thrown fuel afterResult _) fun exceptions afterThrown => .atEnd ?_
    simp only [SignatureBody.written, Written.append_assoc]
  case h_3 c hparen => -- types
    rw [if_neg (by simpa using hparen), if_neg (by simp)]
    -- the one reader looks for the end once more, where the other knows that it is there
    refine .bind_of_ok (follows_typesToEnd fuel rest _) fun list met rest' met' hread => ?_
    obtain ⟨-, -, rfl⟩ := readsAll_typesToEnd fuel _ _ _ _ _ hread
    exact .atEnd rfl

theorem follows_signature (fuel : Nat) (rest : List Char) (before : Written) :
    Follows text rest before (SignatureReader.signature fuel) (ByteReader.signature text m fuel)
      fun s => before ++ s.written m := by
  rw [SignatureReader.signature, ByteReader.signature]
  apply Follows.peek
  simp only [head?_utf8_eq (x := '<') (by decide)]
  split
  case isTrue hnext =>
    obtain ⟨rest, rfl⟩ := eq_cons_of_head? hnext
    refine .copy (by decide) (.bind (follows_formals fuel rest _) fun list rest' => ?_)
    refine .map (follows_body fuel rest' _) fun b => ?_
    simp only [Signature.written, Written.append_assoc]
  case isFalse => exact .map (follows_body fuel rest _) fun b => rfl

end Bodies

/-! ## Signatures -/

namespace Signature

/-- What happens while the bytes of a text are read is what happens while its characters are. -/
theorem emit_eq (m : NameMapper) (text : String) (fuel : Nat) :
    emit m text fuel =
      match SignatureReader.signature fuel ⟨text.toList, []⟩ with
      | .ok s _ => .ok (.of (s.rename m).toText s.labels (s.rename m).labels)
      | .error _ c => .error (.malformed (utf8Length text.toList - utf8Length c.rest)) := by
  have hends : EndsAlike _ (fun s : Signature => .nothing ++ s.written m) _ _ :=
    follows_signature fuel text.toList .nothing [] 0 (At.start text.toList)
  rw [emit]
  cases hread : SignatureReader.signature fuel ⟨text.toList, []⟩ with
  | ok s c =>
    cases hbytes : ByteReader.signature text.toList m fuel ⟨0, .nothing⟩ with
    | ok _ c' =>
      rw [hread, hbytes] at hends
      have hwritten : c'.written = .nothing ++ s.written m := hends.2
      dsimp only
      rw [hwritten, Written.nothing_append, s.written_eq]
    | error fault c' =>
      rw [hread, hbytes] at hends
      exact hends.elim
  | error _ c =>
    cases hbytes : ByteReader.signature text.toList m fuel ⟨0, .nothing⟩ with
    | ok _ c' =>
      rw [hread, hbytes] at hends
      exact hends.elim
    | error fault c' =>
      rw [hread, hbytes] at hends
      obtain ⟨hat, rfl⟩ := hends
      have hlength := hat.add_length
      rw [length_utf8, length_utf8] at hlength
      dsimp only
      rw [← hlength, Nat.add_sub_cancel]

/-- Every slice is between characters, with whatever fuel. -/
theorem emit_ne_badSlice (m : NameMapper) (text : String) (fuel : Nat) :
    emit m text fuel ≠ .error .badSlice := by
  rw [emit_eq]
  cases SignatureReader.signature fuel ⟨text.toList, []⟩ <;> exact nofun

variable {m : NameMapper} {text : String} {fuel : Nat}

theorem emit_of_le (hfuel : 2 * text.toList.length + 2 ≤ fuel) :
    emit m text fuel =
      match read text.toList with
      | .ok s _ => .ok (.of (s.rename m).toText s.labels (s.rename m).labels)
      | .error _ c => .error (.malformed (utf8Length text.toList - utf8Length c.rest)) := by
  rw [emit_eq, read_of_le hfuel]

/-- With as much fuel as it takes, what is written is what renaming the tree gives. -/
theorem answer_emit (hfuel : 2 * text.toList.length + 2 ≤ fuel) :
    (emit m text fuel).map Written.answer = (remap m text).mapError .malformed := by
  rw [emit_of_le hfuel, remap]
  cases read text.toList with
  | ok s c => exact congrArg Except.ok (Written.answer_of ..)
  | error _ c => rfl

theorem emit_of_remap_none (hfuel : 2 * text.toList.length + 2 ≤ fuel)
    (h : remap m text = .ok none) : emit m text fuel = .ok (.copied text.toList) := by
  rw [emit_of_le hfuel]
  rw [remap] at h
  cases hread : read text.toList with
  | ok s c =>
    obtain ⟨-, htext, -⟩ := readsAll_signature _ _ _ _ _ _ hread
    rw [hread] at h
    have hlabels : (s.rename m).labels = s.labels := by
      by_contra hne
      simp [hne] at h
    dsimp only
    rw [rename_of_labels hlabels, Written.of_self, htext]
  | error _ c =>
    rw [hread] at h
    cases h

end Signature

/-- **A text is accepted exactly if the grammar derives it, and reading its bytes is safe**: whatever the
mapper, with as much fuel as it takes the reader of bytes gives the same answer, it slices between
characters only, and where no class is renamed it has written the text itself. -/
theorem remap_reads_exactly_grammar (m : NameMapper) (text : String) :
    ((∃ result, Signature.remap m text = .ok result) ↔ IsSignature text.toList) ∧
      (∀ fuel, Signature.emit m text fuel ≠ .error .badSlice) ∧
      ∀ fuel, 2 * text.toList.length + 2 ≤ fuel →
        (Signature.emit m text fuel).map Written.answer = (Signature.remap m text).mapError .malformed ∧
        (Signature.remap m text = .ok none →
          Signature.emit m text fuel = .ok (.copied text.toList)) := by
  refine ⟨exists_remap_iff_isSignature, Signature.emit_ne_badSlice m text, fun fuel hfuel => ?_⟩
  exact ⟨Signature.answer_emit hfuel, Signature.emit_of_remap_none hfuel⟩

/-- Names of which a character takes several bytes. -/
theorem remap_reads_exactly_wideNames :
    2 * "<Ü:>Lä/B<-TÜ;>.Ç;".toList.length + 2 ≤ 50 ∧
      Signature.remap (.single "ä/C" "v/ä/C") "<Ü:>Lä/B<-TÜ;>.Ç;" = .ok none ∧
      Signature.emit (.single "ä/C" "v/ä/C") "<Ü:>Lä/B<-TÜ;>.Ç;" 50 =
        .ok (.copied "<Ü:>Lä/B<-TÜ;>.Ç;".toList) := by
  have hfuel : 2 * "<Ü:>Lä/B<-TÜ;>.Ç;".toList.length + 2 ≤ 50 := by decide
  have hnone : Signature.remap (.single "ä/C" "v/ä/C") "<Ü:>Lä/B<-TÜ;>.Ç;" = .ok none := by
    decide +kernel
  exact ⟨hfuel, hnone, ((remap_reads_exactly_grammar _ _).2.2 50 hfuel).2 hnone⟩

end JvmRelocation
