import JvmRelocation.Proofs.Name.SignatureText

/-!
# Whatever is read as a generic signature has that text

Whatever a reader of signatures returns is proper, and its text is what was read. Each reader takes
one less fuel for the readers it calls, so this is an induction on the fuel with one lemma for a
step of each. Together with the text of a proper tree being read as that tree, it tells what the
texts of signatures are.
-/

namespace JvmRelocation

open SignatureReader

/-! ## Steps of a reader -/

/-- Whatever a reader returns has a property, and its text is what was read. -/
def ReadsOnly {α : Type} (r : SignatureReader α) (Proper : α → Prop)
    (textBefore : α → List Char → List Char) : Prop :=
  ∀ text met a rest met', r ⟨text, met⟩ = .ok a ⟨rest, met'⟩ →
    Proper a ∧ text = textBefore a rest

section Steps

variable {α β : Type} {b : β} {last : SignatureCursor}

theorem peek_bind {f : Option Char → SignatureReader β} (text : List Char) (met : List String) :
    (peek >>= f) ⟨text, met⟩ = f text.head? ⟨text, met⟩ := rfl

theorem advance_bind {f : Unit → SignatureReader β} (c : Char) (text : List Char)
    (met : List String) : (advance >>= f) ⟨c :: text, met⟩ = f () ⟨text, met⟩ := rfl

theorem pure_ok {a : α} {c c' : SignatureCursor} {a' : α}
    (h : (Pure.pure a : SignatureReader α) c = .ok a' c') : a = a' ∧ c = c' := by
  simpa [Pure.pure, EStateM.pure] using h

theorem upTo_bind_ok {stop : Char → Bool} {f : String → SignatureReader β} {text : List Char}
    {met : List String} (h : (upTo stop >>= f) ⟨text, met⟩ = .ok b last) :
    ∃ name c rest, text = name.toList ++ c :: rest ∧ (∀ x ∈ name.toList, stop x = false) ∧
      stop c = true ∧ f name ⟨c :: rest, met⟩ = .ok b last := by
  obtain ⟨name, mid, hname, hthen⟩ := bind_ok h
  rw [upTo, List.span_eq_takeWhile_dropWhile] at hname
  dsimp only at hname
  split at hname
  case h_1 => cases hname
  case h_2 token rest hne hspan =>
    obtain ⟨rfl, rfl⟩ := EStateM.Result.ok.inj hname
    obtain ⟨rfl, rfl⟩ := Prod.mk.inj hspan
    cases hrest : text.dropWhile fun x => !stop x with
    | nil => exact absurd hrest (fun heq => hne (by rw [heq]))
    | cons c rest =>
      rw [hrest] at hthen
      refine ⟨_, c, rest, ?_, fun x hx => ?_, ?_, hthen⟩
      · rw [String.toList_ofList, ← hrest, List.takeWhile_append_dropWhile]
      · rw [String.toList_ofList] at hx
        simpa using List.mem_takeWhile_imp hx
      · have := List.head?_dropWhile_not (fun x => !stop x) text
        rw [hrest] at this
        simpa using this

/-- A result that is wrapped. -/
theorem ReadsOnly.wrapped {r : SignatureReader α} {P : α → Prop} {w : α → List Char → List Char}
    (hr : ReadsOnly r P w) {g : α → β} {text rest : List Char} {met met' : List String}
    (h : (r >>= fun a => Pure.pure (g a)) ⟨text, met⟩ = .ok b ⟨rest, met'⟩) :
    ∃ a, P a ∧ text = w a rest ∧ b = g a := by
  obtain ⟨a, mid, ha, hend⟩ := bind_ok h
  obtain ⟨rfl, rfl⟩ := pure_ok hend
  obtain ⟨hproper, htext⟩ := hr _ _ _ _ _ ha
  exact ⟨a, hproper, htext, rfl⟩

/-- Two results that are wrapped together. -/
theorem ReadsOnly.wrapped₂ {γ : Type} {r : SignatureReader α} {P : α → Prop}
    {w : α → List Char → List Char} (hr : ReadsOnly r P w) {r' : SignatureReader γ} {P' : γ → Prop}
    {w' : γ → List Char → List Char} (hr' : ReadsOnly r' P' w') {g : α → γ → β}
    {text rest : List Char} {met met' : List String}
    (h : (r >>= fun a => r' >>= fun x => Pure.pure (g a x)) ⟨text, met⟩ = .ok b ⟨rest, met'⟩) :
    ∃ a x, P a ∧ P' x ∧ text = w a (w' x rest) ∧ b = g a x := by
  obtain ⟨a, ⟨textMid, metMid⟩, ha, hthen⟩ := bind_ok h
  obtain ⟨hproper, rfl⟩ := hr _ _ _ _ _ ha
  obtain ⟨x, hproper', rfl, rfl⟩ := hr'.wrapped hthen
  exact ⟨a, x, hproper, hproper', rfl, rfl⟩

end Steps

theorem eq_cons_of_head? {text : List Char} {c : Char} (h : text.head? = some c) :
    ∃ text', text = c :: text' := by
  cases text with
  | nil => cases h
  | cons first text =>
    obtain rfl := Option.some.inj h
    exact ⟨text, rfl⟩

/-! ## Types -/

section Types

variable {fuel : Nat}

/-- With more fuel a type is read as the three readers of its parts allow. -/
theorem readsOnly_type_succ
    (hsuffixes : ∀ outer, ReadsOnly (suffixes fuel outer) TypeSuffix.ListProper fun list rest =>
      TypeSuffix.listTextBefore list (';' :: rest))
    (htype : ReadsOnly (type fuel) TypeSignature.Proper TypeSignature.textBefore) :
    ReadsOnly (type (fuel + 1)) TypeSignature.Proper TypeSignature.textBefore := by
  intro text met t rest met' h
  rw [type, peek_bind] at h
  generalize hnext : text.head? = next at h
  split at h
  case h_1 => -- an array
    obtain ⟨text, rfl⟩ := eq_cons_of_head? hnext
    obtain ⟨element, hproper, rfl, rfl⟩ := htype.wrapped h
    exact ⟨hproper, by rw [TypeSignature.textBefore]⟩
  case h_2 => -- a type variable
    obtain ⟨text, rfl⟩ := eq_cons_of_head? hnext
    obtain ⟨name, c, behind, rfl, hname, hc, hend⟩ := upTo_bind_ok h
    obtain ⟨rfl, hcursor⟩ := pure_ok hend
    obtain ⟨rfl, rfl⟩ := SignatureCursor.mk.inj hcursor
    obtain rfl : c = ';' := by simpa using hc
    refine ⟨fun hmem => ?_, by simp only [TypeSignature.textBefore, List.tail_cons]⟩
    simpa using hname _ hmem
  case h_3 => -- a class type
    obtain ⟨text, rfl⟩ := eq_cons_of_head? hnext
    obtain ⟨name, c, behind, rfl, hname, hc, hend⟩ := upTo_bind_ok h
    obtain ⟨list, hproper, hbehind, rfl⟩ := (hsuffixes name).wrapped hend
    exact ⟨⟨hname, hproper⟩, by rw [TypeSignature.textBefore, ← hbehind]⟩
  case h_4 c => -- a primitive type, if it is one
    obtain ⟨text, rfl⟩ := eq_cons_of_head? hnext
    split at h
    case isTrue hbase =>
      obtain ⟨rfl, hcursor⟩ := pure_ok h
      obtain ⟨rfl, rfl⟩ := SignatureCursor.mk.inj hcursor
      exact ⟨hbase, by simp only [TypeSignature.textBefore, List.tail_cons]⟩
    case isFalse => cases h
  case h_5 => cases h

theorem readsOnly_suffixes_succ
    (hsuffixes : ∀ outer, ReadsOnly (suffixes fuel outer) TypeSuffix.ListProper fun list rest =>
      TypeSuffix.listTextBefore list (';' :: rest))
    (harguments : ReadsOnly (arguments fuel) TypeArgument.ListProper fun list rest =>
      TypeArgument.listTextBefore list ('>' :: rest)) (outer : String) :
    ReadsOnly (suffixes (fuel + 1) outer) TypeSuffix.ListProper fun list rest =>
      TypeSuffix.listTextBefore list (';' :: rest) := by
  intro text met list rest met' h
  rw [suffixes, peek_bind] at h
  generalize hnext : text.head? = next at h
  split at h
  case h_1 => -- type arguments
    obtain ⟨text, rfl⟩ := eq_cons_of_head? hnext
    obtain ⟨inside, list, hinside, hlist, rfl, rfl⟩ := harguments.wrapped₂ (hsuffixes outer) h
    exact ⟨⟨hinside, hlist⟩, by simp only [TypeSuffix.listTextBefore]⟩
  case h_2 => -- an inner class
    obtain ⟨text, rfl⟩ := eq_cons_of_head? hnext
    obtain ⟨name, c, behind, rfl, hname, hc, hend⟩ := upTo_bind_ok h
    obtain ⟨list, hproper, hbehind, rfl⟩ := (hsuffixes (innerName outer name)).wrapped hend
    exact ⟨⟨hname, hproper⟩, by simp only [TypeSuffix.listTextBefore, ← hbehind]⟩
  case h_3 => -- the end
    obtain ⟨text, rfl⟩ := eq_cons_of_head? hnext
    obtain ⟨rfl, hcursor⟩ := pure_ok h
    obtain ⟨rfl, rfl⟩ := SignatureCursor.mk.inj hcursor
    exact ⟨trivial, by simp only [TypeSuffix.listTextBefore, List.tail_cons]⟩
  case h_4 => cases h

theorem readsOnly_arguments_succ
    (htype : ReadsOnly (type fuel) TypeSignature.Proper TypeSignature.textBefore)
    (harguments : ReadsOnly (arguments fuel) TypeArgument.ListProper fun list rest =>
      TypeArgument.listTextBefore list ('>' :: rest)) :
    ReadsOnly (arguments (fuel + 1)) TypeArgument.ListProper fun list rest =>
      TypeArgument.listTextBefore list ('>' :: rest) := by
  intro text met list rest met' h
  rw [arguments, peek_bind] at h
  generalize hnext : text.head? = next at h
  split at h
  case h_1 => -- the end
    obtain ⟨text, rfl⟩ := eq_cons_of_head? hnext
    obtain ⟨rfl, hcursor⟩ := pure_ok h
    obtain ⟨rfl, rfl⟩ := SignatureCursor.mk.inj hcursor
    exact ⟨trivial, by simp only [TypeArgument.listTextBefore, List.tail_cons]⟩
  case h_2 => -- a wildcard
    obtain ⟨text, rfl⟩ := eq_cons_of_head? hnext
    obtain ⟨list, hlist, rfl, rfl⟩ := harguments.wrapped h
    exact ⟨hlist, by simp only [TypeArgument.listTextBefore]⟩
  case h_3 => -- a bound from above
    obtain ⟨text, rfl⟩ := eq_cons_of_head? hnext
    obtain ⟨bound, list, hbound, hlist, rfl, rfl⟩ := htype.wrapped₂ harguments h
    exact ⟨⟨hbound, hlist⟩, by simp only [TypeArgument.listTextBefore]⟩
  case h_4 => -- a bound from below
    obtain ⟨text, rfl⟩ := eq_cons_of_head? hnext
    obtain ⟨bound, list, hbound, hlist, rfl, rfl⟩ := htype.wrapped₂ harguments h
    exact ⟨⟨hbound, hlist⟩, by simp only [TypeArgument.listTextBefore]⟩
  case h_5 => -- a type, none of whose characters is read yet
    obtain ⟨t, list, ht, hlist, rfl, rfl⟩ := htype.wrapped₂ harguments h
    exact ⟨⟨ht, hlist⟩, by simp only [TypeArgument.listTextBefore]⟩
  case h_6 => cases h

end Types

/-- The three readers of a type call each other with one less fuel. -/
theorem readsOnly_fuel (fuel : Nat) :
    ReadsOnly (type fuel) TypeSignature.Proper TypeSignature.textBefore ∧
      (∀ outer, ReadsOnly (suffixes fuel outer) TypeSuffix.ListProper fun list rest =>
        TypeSuffix.listTextBefore list (';' :: rest)) ∧
      ReadsOnly (arguments fuel) TypeArgument.ListProper fun list rest =>
        TypeArgument.listTextBefore list ('>' :: rest) := by
  induction fuel with
  | zero =>
    refine ⟨?_, fun outer => ?_, ?_⟩ <;> intro text met a rest met' h <;> cases h
  | succ fuel ih =>
    obtain ⟨htype, hsuffixes, harguments⟩ := ih
    exact ⟨readsOnly_type_succ hsuffixes htype, readsOnly_suffixes_succ hsuffixes harguments,
      readsOnly_arguments_succ htype harguments⟩

theorem readsOnly_type (fuel : Nat) :
    ReadsOnly (type fuel) TypeSignature.Proper TypeSignature.textBefore :=
  (readsOnly_fuel fuel).1

/-! ## Bodies and formal type parameters -/

theorem readsOnly_parameters (fuel : Nat) :
    ReadsOnly (parameters fuel) (fun list => ∀ t ∈ list, t.Proper) fun list rest =>
      TypeSignature.listTextBefore list (')' :: rest) := by
  induction fuel with
  | zero =>
    intro text met list rest met' h
    cases h
  | succ fuel ih =>
    intro text met list rest met' h
    rw [parameters, peek_bind] at h
    generalize hnext : text.head? = next at h
    split at h
    case h_1 =>
      obtain ⟨text, rfl⟩ := eq_cons_of_head? hnext
      obtain ⟨rfl, hcursor⟩ := pure_ok h
      obtain ⟨rfl, rfl⟩ := SignatureCursor.mk.inj hcursor
      exact ⟨by simp, rfl⟩
    case h_2 =>
      obtain ⟨t, list, ht, hlist, rfl, rfl⟩ := (readsOnly_type fuel).wrapped₂ ih h
      exact ⟨List.forall_mem_cons.mpr ⟨ht, hlist⟩, rfl⟩
    case h_3 => cases h

theorem readsOnly_thrown (fuel : Nat) :
    ReadsOnly (thrown fuel) (fun list => ∀ t ∈ list, t.Proper) fun list rest =>
      list.foldr (fun t rest => '^' :: t.textBefore rest) rest := by
  induction fuel with
  | zero =>
    intro text met list rest met' h
    cases h
  | succ fuel ih =>
    intro text met list rest met' h
    rw [thrown, peek_bind] at h
    split at h
    case isTrue hnext =>
      obtain ⟨text, rfl⟩ := eq_cons_of_head? hnext
      obtain ⟨t, list, ht, hlist, rfl, rfl⟩ := (readsOnly_type fuel).wrapped₂ ih h
      exact ⟨List.forall_mem_cons.mpr ⟨ht, hlist⟩, rfl⟩
    case isFalse =>
      obtain ⟨rfl, hcursor⟩ := pure_ok h
      obtain ⟨rfl, rfl⟩ := SignatureCursor.mk.inj hcursor
      exact ⟨by simp, rfl⟩

/-- Whatever a reader returns has a property, its text is what was read, and nothing is left. -/
def ReadsAll {α : Type} (r : SignatureReader α) (Proper : α → Prop) (text : α → List Char) : Prop :=
  ∀ start met a rest met', r ⟨start, met⟩ = .ok a ⟨rest, met'⟩ → Proper a ∧ start = text a ∧ rest = []

theorem readsAll_typesToEnd (fuel : Nat) :
    ReadsAll (typesToEnd fuel) (fun list => ∀ t ∈ list, t.Proper) fun list =>
      TypeSignature.listTextBefore list [] := by
  induction fuel with
  | zero =>
    intro text met list rest met' h
    cases h
  | succ fuel ih =>
    intro text met list rest met' h
    rw [typesToEnd, peek_bind] at h
    generalize hnext : text.head? = next at h
    split at h
    case h_1 =>
      obtain rfl := List.head?_eq_none_iff.mp hnext
      obtain ⟨rfl, hcursor⟩ := pure_ok h
      obtain ⟨rfl, rfl⟩ := SignatureCursor.mk.inj hcursor
      exact ⟨by simp, rfl, rfl⟩
    case h_2 =>
      obtain ⟨t, ⟨mid, metMid⟩, ht, hthen⟩ := bind_ok h
      obtain ⟨hproper, rfl⟩ := readsOnly_type fuel _ _ _ _ _ ht
      obtain ⟨list, ⟨last, metLast⟩, hlist, hend⟩ := bind_ok hthen
      obtain ⟨rfl, hcursor⟩ := pure_ok hend
      obtain ⟨rfl, rfl⟩ := SignatureCursor.mk.inj hcursor
      obtain ⟨hrest, rfl, rfl⟩ := ih _ _ _ _ _ hlist
      exact ⟨List.forall_mem_cons.mpr ⟨hproper, hrest⟩, rfl, rfl⟩

theorem readsAll_body (fuel : Nat) :
    ReadsAll (body fuel) SignatureBody.Proper fun b => b.textBefore [] := by
  intro text met b rest met' h
  rw [body, peek_bind] at h
  generalize hnext : text.head? = next at h
  split at h
  case h_1 => cases h
  case h_2 =>
    obtain ⟨text, rfl⟩ := eq_cons_of_head? hnext
    rw [advance_bind] at h
    obtain ⟨list, ⟨afterList, metList⟩, hlist, hthen⟩ := bind_ok h
    obtain ⟨result, ⟨afterResult, metResult⟩, hresult, hthen'⟩ := bind_ok hthen
    obtain ⟨exceptions, ⟨afterThrown, metThrown⟩, hthrown, hend⟩ := bind_ok hthen'
    obtain ⟨hproper, rfl⟩ := readsOnly_parameters fuel _ _ _ _ _ hlist
    obtain ⟨hproper', rfl⟩ := readsOnly_type fuel _ _ _ _ _ hresult
    obtain ⟨hproper'', rfl⟩ := readsOnly_thrown fuel _ _ _ _ _ hthrown
    rw [peek_bind] at hend
    generalize hlast : afterThrown.head? = last at hend
    split at hend
    case h_1 =>
      obtain rfl := List.head?_eq_none_iff.mp hlast
      obtain ⟨rfl, hcursor⟩ := pure_ok hend
      obtain ⟨rfl, rfl⟩ := SignatureCursor.mk.inj hcursor
      exact ⟨⟨hproper, hproper', hproper''⟩, rfl, rfl⟩
    case h_2 => cases hend
  case h_3 c hparen =>
    obtain ⟨list, ⟨last, metLast⟩, hlist, hend⟩ := bind_ok h
    obtain ⟨rfl, hcursor⟩ := pure_ok hend
    obtain ⟨rfl, rfl⟩ := SignatureCursor.mk.inj hcursor
    obtain ⟨hproper, rfl, rfl⟩ := readsAll_typesToEnd fuel _ _ _ _ _ hlist
    refine ⟨⟨?_, hproper⟩, rfl, rfl⟩
    rintro rfl
    cases hnext

theorem isBound_of_startsBound {t : TypeSignature} (h : t.Proper) {rest : List Char}
    (hstart : startsBound (t.textBefore rest).head? = true) : t.isBound = true := by
  cases t with
  | base letter =>
    rw [TypeSignature.textBefore, List.head?_cons] at hstart
    obtain rfl | rfl | rfl | rfl | rfl | rfl | rfl | rfl | rfl := isBaseLetter_eq_true h <;>
      cases hstart
  | array element => rfl
  | typeVariable name => rfl
  | classType name suffixes => rfl

theorem bounds_ok {fuel : Nat} {text rest : List Char} {met met' : List String}
    {list : List (Option TypeSignature)} (h : bounds fuel ⟨text, met⟩ = .ok list ⟨rest, met'⟩) :
    (∀ t, some t ∈ list → t.Proper ∧ t.isBound = true) ∧ text = boundsTextBefore list rest ∧
      EndsBounds list rest := by
  induction fuel generalizing text met list with
  | zero => cases h
  | succ fuel ih =>
    rw [bounds, peek_bind] at h
    split at h
    case isFalse hnext =>
      obtain ⟨rfl, hcursor⟩ := pure_ok h
      obtain ⟨rfl, rfl⟩ := SignatureCursor.mk.inj hcursor
      exact ⟨by simp, rfl, hnext, by simp⟩
    case isTrue hnext =>
      obtain ⟨text, rfl⟩ := eq_cons_of_head? hnext
      rw [advance_bind, peek_bind] at h
      split at h
      case isTrue hstart =>
        obtain ⟨t, ⟨mid, metMid⟩, ht, hthen⟩ := bind_ok h
        obtain ⟨hproper, rfl⟩ := readsOnly_type fuel _ _ _ _ _ ht
        obtain ⟨list, ⟨last, metLast⟩, hlist, hend⟩ := bind_ok hthen
        obtain ⟨rfl, hcursor⟩ := pure_ok hend
        obtain ⟨rfl, rfl⟩ := SignatureCursor.mk.inj hcursor
        obtain ⟨hbounds, rfl, hends⟩ := ih hlist
        refine ⟨fun t' ht' => ?_, rfl, hends.colon, fun hlast => ?_⟩
        · rcases List.mem_cons.mp ht' with heq | ht'
          · obtain rfl := Option.some.inj heq
            exact ⟨hproper, isBound_of_startsBound hproper hstart⟩
          · exact hbounds t' ht'
        · cases list with
          | nil => cases hlast
          | cons next list => exact hends.start (by rwa [List.getLast?_cons_cons] at hlast)
      case isFalse hstart =>
        obtain ⟨list, ⟨last, metLast⟩, hlist, hend⟩ := bind_ok h
        obtain ⟨rfl, hcursor⟩ := pure_ok hend
        obtain ⟨rfl, rfl⟩ := SignatureCursor.mk.inj hcursor
        obtain ⟨hbounds, rfl, hends⟩ := ih hlist
        refine ⟨fun t' ht' => ?_, rfl, hends.colon, fun hlast => ?_⟩
        · rcases List.mem_cons.mp ht' with heq | ht'
          · cases heq
          · exact hbounds t' ht'
        · cases list with
          | nil => simpa [boundsTextBefore] using hstart
          | cons next list => exact hends.start (by rwa [List.getLast?_cons_cons] at hlast)

theorem readsOnly_formals (fuel : Nat) :
    ReadsOnly (formals fuel) FormalParameter.ListProper formalsTextBefore := by
  induction fuel with
  | zero =>
    intro text met list rest met' h
    cases h
  | succ fuel ih =>
    intro text met list rest met' h
    rw [formals, peek_bind] at h
    generalize hnext : text.head? = next at h
    split at h
    case h_1 =>
      obtain ⟨text, rfl⟩ := eq_cons_of_head? hnext
      obtain ⟨rfl, hcursor⟩ := pure_ok h
      obtain ⟨rfl, rfl⟩ := SignatureCursor.mk.inj hcursor
      exact ⟨trivial, rfl⟩
    case h_2 => cases h
    case h_3 hbracket hcolon =>
      obtain ⟨name, c, behind, rfl, hname, hc, hthen⟩ := upTo_bind_ok h
      obtain rfl : c = ':' := by simpa using hc
      obtain ⟨boundList, ⟨mid, metMid⟩, hbounds, hthen'⟩ := bind_ok hthen
      obtain ⟨hproper, htext, hends⟩ := bounds_ok hbounds
      obtain ⟨list, hlist, rfl, rfl⟩ := ih.wrapped hthen'
      have hnameNe : name.toList ≠ [] := by
        intro heq
        rw [heq] at hnext
        exact hcolon hnext.symm
      have hhead : name.toList.head? = next := by
        rw [← hnext, List.head?_append_of_ne_nil _ hnameNe]
      refine ⟨⟨⟨hnameNe, ?_, fun hmem => ?_, ?_, hproper⟩, ?_, hlist⟩, ?_⟩
      · rw [hhead]
        exact hbracket
      · simpa using hname _ hmem
      · rintro rfl
        exact hends.colon (by rw [← show _ = formalsTextBefore list rest from htext]; rfl)
      · intro hlast q hq
        have hstart := hends.start hlast
        cases list with
        | nil => cases hq
        | cons next list =>
          obtain rfl : next = q := Option.some.inj hq
          rw [FormalParameter.ListProper] at hlist
          rwa [formalsTextBefore_cons, List.head?_append_of_ne_nil _ hlist.1.ne_nil] at hstart
      · rw [formalsTextBefore_cons, htext]

theorem readsAll_signature (fuel : Nat) :
    ReadsAll (signature fuel) Signature.Proper Signature.toText := by
  intro text met s rest met' h
  rw [signature, peek_bind] at h
  split at h
  case isTrue hnext =>
    obtain ⟨text, rfl⟩ := eq_cons_of_head? hnext
    rw [advance_bind] at h
    obtain ⟨list, ⟨mid, metMid⟩, hlist, hthen⟩ := bind_ok h
    obtain ⟨hproper, rfl⟩ := readsOnly_formals fuel _ _ _ _ _ hlist
    obtain ⟨b, ⟨last, metLast⟩, hbody, hend⟩ := bind_ok hthen
    obtain ⟨rfl, hcursor⟩ := pure_ok hend
    obtain ⟨rfl, rfl⟩ := SignatureCursor.mk.inj hcursor
    obtain ⟨hproper', rfl, rfl⟩ := readsAll_body fuel _ _ _ _ _ hbody
    refine ⟨⟨fun list' heq => ?_, hproper'⟩, rfl, rfl⟩
    obtain rfl := Option.some.inj heq
    exact hproper
  case isFalse =>
    obtain ⟨b, ⟨last, metLast⟩, hbody, hend⟩ := bind_ok h
    obtain ⟨rfl, hcursor⟩ := pure_ok hend
    obtain ⟨rfl, rfl⟩ := SignatureCursor.mk.inj hcursor
    obtain ⟨hproper, rfl, rfl⟩ := readsAll_body fuel _ _ _ _ _ hbody
    refine ⟨⟨fun list heq => ?_, hproper⟩, rfl, rfl⟩
    cases heq

/-- **A text that is read as a signature is the text of that signature.** -/
theorem Signature.parse_eq_some {text : String} {s : Signature} :
    Signature.parse text = some s ↔ s.Proper ∧ text = String.ofList s.toText := by
  constructor
  · intro h
    rw [parse] at h
    split at h
    case h_2 => cases h
    case h_1 s' c hread =>
      obtain rfl := Option.some.inj h
      obtain ⟨hproper, htext, -⟩ := readsAll_signature _ _ _ _ _ _ hread
      exact ⟨hproper, by rw [← htext, String.ofList_toList]⟩
  · rintro ⟨hproper, rfl⟩
    obtain ⟨met, hread⟩ := read_toText hproper
    rw [parse, String.toList_ofList, hread]

end JvmRelocation
