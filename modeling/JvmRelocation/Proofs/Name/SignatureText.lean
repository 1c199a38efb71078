import Mathlib.Data.List.TakeDrop
import Mathlib.Data.List.TakeWhile
import JvmRelocation.Name.Signature.Parser
import JvmRelocation.Proofs.Failure

/-!
# The text of a generic signature is read as that signature

A tree is proper if its names hold no character that would end them early and no empty bound is
followed by what could be read as one. The text of a proper tree is read as that tree, whatever
stands behind it. The fuel a text needs is told by its length: a reader that calls another one
without going on has gone on before.
-/

namespace JvmRelocation

open SignatureReader

/-! ## Proper trees -/

/-- A name that stands in a signature without ending early. -/
def ProperLabel (name : String) : Prop :=
  ∀ c ∈ name.toList, endsName c = false

mutual

/-- A type that its text is read as. -/
def TypeSignature.Proper : TypeSignature → Prop
  | .base letter => isBaseLetter letter = true
  | .array element => element.Proper
  | .typeVariable name => ';' ∉ name.toList
  | .classType name suffixes => ProperLabel name ∧ TypeSuffix.ListProper suffixes

/-- The same for what follows the name of a class. -/
def TypeSuffix.ListProper : List TypeSuffix → Prop
  | [] => True
  | .arguments list :: rest => TypeArgument.ListProper list ∧ TypeSuffix.ListProper rest
  | .inner name :: rest => ProperLabel name ∧ TypeSuffix.ListProper rest

/-- The same for type arguments. -/
def TypeArgument.ListProper : List TypeArgument → Prop
  | [] => True
  | .wildcard :: rest => TypeArgument.ListProper rest
  | .subtypeOf bound :: rest => bound.Proper ∧ TypeArgument.ListProper rest
  | .supertypeOf bound :: rest => bound.Proper ∧ TypeArgument.ListProper rest
  | .exactly type :: rest => type.Proper ∧ TypeArgument.ListProper rest

end

/-- Whether a type can be the bound of a type parameter: a primitive type cannot. -/
def TypeSignature.isBound : TypeSignature → Bool
  | .base _ => false
  | _ => true

/-- A formal type parameter that its text is read as. -/
structure FormalParameter.Proper (p : FormalParameter) : Prop where
  ne_nil : p.name.toList ≠ []
  head : p.name.toList.head? ≠ some '>'
  colon : ':' ∉ p.name.toList
  bounds_ne_nil : p.bounds ≠ []
  bounds : ∀ t, some t ∈ p.bounds → t.Proper ∧ t.isBound = true

/-- Formal type parameters that their text is read as: behind an empty bound the next parameter
must not start like a bound. -/
def FormalParameter.ListProper : List FormalParameter → Prop
  | [] => True
  | p :: rest => p.Proper ∧
      (p.bounds.getLast? = some none → ∀ q ∈ rest.head?, startsBound q.name.toList.head? = false) ∧
      FormalParameter.ListProper rest

/-- A body that its text is read as. -/
def SignatureBody.Proper : SignatureBody → Prop
  | .method parameters result thrown =>
    (∀ t ∈ parameters, t.Proper) ∧ result.Proper ∧ ∀ t ∈ thrown, t.Proper
  | .types list => list ≠ [] ∧ ∀ t ∈ list, t.Proper

/-- A signature that its text is read as. -/
structure Signature.Proper (s : Signature) : Prop where
  formals : ∀ list, s.formals = some list → FormalParameter.ListProper list
  body : s.body.Proper

/-! ## Readers that go through a text -/

/-- A reader goes through a text up to what stands behind it, whatever names were met before. -/
def Reads {α : Type} (r : SignatureReader α) (text : List Char) (a : α) (rest : List Char) : Prop :=
  ∀ met, ∃ met', r ⟨text, met⟩ = .ok a ⟨rest, met'⟩

namespace Reads

variable {α β : Type} {text mid rest : List Char} {b : β}

theorem pure : Reads (Pure.pure b) rest b rest :=
  fun met => ⟨met, rfl⟩

theorem bind {r : SignatureReader α} {f : α → SignatureReader β} {a : α} (hr : Reads r text a mid)
    (hf : Reads (f a) mid b rest) : Reads (r >>= f) text b rest := by
  intro met
  obtain ⟨met₁, h₁⟩ := hr met
  obtain ⟨met₂, h₂⟩ := hf met₁
  exact ⟨met₂, by rw [bind_of_ok h₁, h₂]⟩

theorem peek {f : Option Char → SignatureReader β} (h : Reads (f text.head?) text b rest) :
    Reads (SignatureReader.peek >>= f) text b rest :=
  bind (fun met => ⟨met, rfl⟩) h

theorem advance {f : Unit → SignatureReader β} {c : Char} (h : Reads (f ()) text b rest) :
    Reads (SignatureReader.advance >>= f) (c :: text) b rest :=
  bind (fun met => ⟨met, rfl⟩) h

theorem meet {f : Unit → SignatureReader β} {name : String} (h : Reads (f ()) text b rest) :
    Reads (SignatureReader.meet name >>= f) text b rest :=
  bind (fun met => ⟨name :: met, rfl⟩) h

/-- A name is read up to the character that ends it. -/
theorem upTo {stop : Char → Bool} {f : String → SignatureReader β} {name : String} {c : Char}
    (hname : ∀ x ∈ name.toList, stop x = false) (hc : stop c = true)
    (h : Reads (f name) (c :: text) b rest) :
    Reads (SignatureReader.upTo stop >>= f) (name.toList ++ c :: text) b rest := by
  refine bind (fun met => ⟨met, ?_⟩) h
  have htake : (name.toList ++ c :: text).takeWhile (fun x => !stop x) = name.toList := by
    rw [List.takeWhile_append_of_pos (by simpa using hname), List.takeWhile_cons_of_neg (by simp [hc]),
      List.append_nil]
  have hdrop : (name.toList ++ c :: text).dropWhile (fun x => !stop x) = c :: text := by
    rw [List.dropWhile_append_of_pos (by simpa using hname), List.dropWhile_cons_of_neg (by simp [hc])]
  simp only [SignatureReader.upTo, List.span_eq_takeWhile_dropWhile, htake, hdrop,
    String.ofList_toList]

end Reads

/-! ## The text of a proper tree is read as it -/

theorem isBaseLetter_eq_true {c : Char} (h : isBaseLetter c = true) :
    c = 'B' ∨ c = 'C' ∨ c = 'D' ∨ c = 'F' ∨ c = 'I' ∨ c = 'J' ∨ c = 'S' ∨ c = 'Z' ∨ c = 'V' := by
  simpa [isBaseLetter] using h

/-- How a type starts. -/
theorem TypeSignature.textBefore_cons {t : TypeSignature} (h : t.Proper) (rest : List Char) :
    ∃ c text, t.textBefore rest = c :: text ∧
      (isBaseLetter c = true ∨ c = '[' ∨ c = 'T' ∨ c = 'L') := by
  cases t with
  | base letter => exact ⟨letter, rest, by simp [textBefore], .inl h⟩
  | array element => exact ⟨'[', _, by rw [textBefore], .inr (.inl rfl)⟩
  | typeVariable name => exact ⟨'T', _, by rw [textBefore], .inr (.inr (.inl rfl))⟩
  | classType name suffixes => exact ⟨'L', _, by rw [textBefore], .inr (.inr (.inr rfl))⟩

/-- A text that is written in front of another one stands there on its own. -/
theorem TypeSignature.textBefore_eq_append (t : TypeSignature) (rest : List Char) :
    t.textBefore rest = t.textBefore [] ++ rest :=
  t.textBefore_append [] rest

theorem TypeArgument.listTextBefore_eq_append (list : List TypeArgument) (rest : List Char) :
    TypeArgument.listTextBefore list rest = TypeArgument.listTextBefore list [] ++ rest :=
  TypeArgument.listTextBefore_append list [] rest

theorem TypeSuffix.listTextBefore_eq_append (list : List TypeSuffix) (rest : List Char) :
    TypeSuffix.listTextBefore list rest = TypeSuffix.listTextBefore list [] ++ rest :=
  TypeSuffix.listTextBefore_append list [] rest

theorem TypeArgument.length_listTextBefore (list : List TypeArgument) (rest : List Char) :
    (TypeArgument.listTextBefore list rest).length =
      (TypeArgument.listTextBefore list []).length + rest.length := by
  rw [TypeArgument.listTextBefore_eq_append, List.length_append]

/-- How what follows the name of a class starts. -/
theorem TypeSuffix.listTextBefore_cons (suffixes : List TypeSuffix) (rest : List Char) :
    ∃ c text, TypeSuffix.listTextBefore suffixes (';' :: rest) = c :: text ∧ endsName c = true := by
  cases suffixes with
  | nil => exact ⟨';', rest, by rw [listTextBefore], rfl⟩
  | cons suffix suffixes =>
    cases suffix with
    | arguments list => exact ⟨'<', _, by rw [listTextBefore], rfl⟩
    | inner name => exact ⟨'.', _, by rw [listTextBefore], rfl⟩

theorem TypeSignature.listTextBefore_cons (t : TypeSignature) (list : List TypeSignature)
    (rest : List Char) : TypeSignature.listTextBefore (t :: list) rest =
      t.textBefore (TypeSignature.listTextBefore list rest) := rfl

theorem TypeSignature.length_textBefore (t : TypeSignature) (rest : List Char) :
    (t.textBefore rest).length = (t.textBefore []).length + rest.length := by
  rw [t.textBefore_eq_append, List.length_append]

theorem TypeSignature.length_pos {t : TypeSignature} (h : t.Proper) :
    0 < (t.textBefore []).length := by
  obtain ⟨c, text, hstart, -⟩ := t.textBefore_cons h []
  rw [hstart]
  exact Nat.succ_pos _

mutual

theorem TypeSignature.reads {t : TypeSignature} (h : t.Proper) (rest : List Char) (fuel : Nat)
    (hfuel : 2 * (t.textBefore rest).length < fuel) :
    Reads (type fuel) (t.textBefore rest) t rest := by
  match fuel with
  | 0 => simp at hfuel
  | fuel + 1 =>
    rw [type]
    refine .peek ?_
    match t with
    | .base letter =>
      rw [TypeSignature.textBefore]
      obtain rfl | rfl | rfl | rfl | rfl | rfl | rfl | rfl | rfl := isBaseLetter_eq_true h <;>
        exact .advance .pure
    | .array element =>
      rw [TypeSignature.textBefore] at hfuel ⊢
      rw [List.length_cons] at hfuel
      exact .advance (.bind (element.reads h rest _ (by omega)) .pure)
    | .typeVariable name =>
      rw [TypeSignature.textBefore]
      refine .advance (.upTo (fun c hc => ?_) (by rfl) (.advance .pure))
      rw [TypeSignature.Proper] at h
      simp only [decide_eq_false_iff_not]
      rintro rfl
      exact h hc
    | .classType name suffixes =>
      rw [TypeSignature.Proper] at h
      rw [TypeSignature.textBefore] at hfuel ⊢
      simp only [List.length_cons, List.length_append] at hfuel
      have hsuffixes := TypeSuffix.listReads h.2 name rest fuel (by omega)
      obtain ⟨c, text, hstart, hc⟩ := TypeSuffix.listTextBefore_cons suffixes rest
      rw [hstart] at hsuffixes ⊢
      exact .advance (.upTo h.1 hc (.meet (.bind hsuffixes .pure)))

theorem TypeSuffix.listReads {list : List TypeSuffix} (h : TypeSuffix.ListProper list)
    (outer : String) (rest : List Char) (fuel : Nat)
    (hfuel : 2 * (TypeSuffix.listTextBefore list (';' :: rest)).length < fuel) :
    Reads (suffixes fuel outer) (TypeSuffix.listTextBefore list (';' :: rest)) list rest := by
  match fuel with
  | 0 => simp at hfuel
  | fuel + 1 =>
    rw [suffixes]
    refine .peek ?_
    match list with
    | [] =>
      rw [TypeSuffix.listTextBefore]
      exact .advance .pure
    | .arguments inside :: list =>
      rw [TypeSuffix.ListProper] at h
      rw [TypeSuffix.listTextBefore] at hfuel ⊢
      rw [List.length_cons] at hfuel
      have hinside := TypeArgument.listReads h.1 (TypeSuffix.listTextBefore list (';' :: rest))
        fuel (by omega)
      have hlength := TypeArgument.length_listTextBefore inside
        ('>' :: TypeSuffix.listTextBefore list (';' :: rest))
      rw [List.length_cons] at hlength
      exact .advance (.bind hinside (.bind (TypeSuffix.listReads h.2 outer rest _ (by omega)) .pure))
    | .inner name :: list =>
      rw [TypeSuffix.ListProper] at h
      rw [TypeSuffix.listTextBefore] at hfuel ⊢
      simp only [List.length_cons, List.length_append] at hfuel
      have hlist := TypeSuffix.listReads h.2 (innerName outer name) rest fuel (by omega)
      obtain ⟨c, text, hstart, hc⟩ := TypeSuffix.listTextBefore_cons list rest
      rw [hstart] at hlist ⊢
      exact .advance (.upTo h.1 hc (.meet (.bind hlist .pure)))

theorem TypeArgument.listReads {list : List TypeArgument} (h : TypeArgument.ListProper list)
    (rest : List Char) (fuel : Nat)
    (hfuel : 2 * (TypeArgument.listTextBefore list ('>' :: rest)).length + 1 < fuel) :
    Reads (arguments fuel) (TypeArgument.listTextBefore list ('>' :: rest)) list rest := by
  match fuel with
  | 0 => simp at hfuel
  | fuel + 1 =>
    rw [arguments]
    refine .peek ?_
    match list with
    | [] =>
      rw [TypeArgument.listTextBefore]
      exact .advance .pure
    | .wildcard :: list =>
      rw [TypeArgument.ListProper] at h
      rw [TypeArgument.listTextBefore] at hfuel ⊢
      rw [List.length_cons] at hfuel
      exact .advance (.bind (TypeArgument.listReads h rest _ (by omega)) .pure)
    | .subtypeOf bound :: list | .supertypeOf bound :: list =>
      rw [TypeArgument.ListProper] at h
      rw [TypeArgument.listTextBefore] at hfuel ⊢
      have hlength := bound.length_textBefore (TypeArgument.listTextBefore list ('>' :: rest))
      rw [List.length_cons] at hfuel
      exact .advance (.bind (bound.reads h.1 _ _ (by omega))
        (.bind (TypeArgument.listReads h.2 rest _ (by omega)) .pure))
    | .exactly t :: list =>
      rw [TypeArgument.ListProper] at h
      rw [TypeArgument.listTextBefore] at hfuel ⊢
      have hlength := t.length_textBefore (TypeArgument.listTextBefore list ('>' :: rest))
      have htype := t.reads h.1 (TypeArgument.listTextBefore list ('>' :: rest)) fuel
        (by omega)
      -- this argument takes no character of its own: the type read here makes the rest shorter
      have hpos := t.length_pos h.1
      have hlist := TypeArgument.listReads h.2 rest fuel (by omega)
      obtain ⟨c, text, hstart, hc⟩ :=
        t.textBefore_cons h.1 (TypeArgument.listTextBefore list ('>' :: rest))
      rw [hstart] at htype ⊢
      -- the reader looks at the first character, and every type starts with one of the last case
      have hread : Reads (do
          let exact ← type fuel
          return .exactly exact :: (← arguments fuel)) (c :: text) (.exactly t :: list) rest :=
        .bind htype (.bind hlist .pure)
      obtain hbase | rfl | rfl | rfl := hc
      · obtain rfl | rfl | rfl | rfl | rfl | rfl | rfl | rfl | rfl := isBaseLetter_eq_true hbase <;>
          exact hread
      all_goals exact hread

end

/-- A type does not start with a character that stands for something else where a type may stand. -/
theorem TypeSignature.head?_textBefore {t : TypeSignature} (h : t.Proper) (rest : List Char) :
    ∃ c, (t.textBefore rest).head? = some c ∧ ['(', ')', '<'].contains c = false := by
  obtain ⟨c, text, hstart, hc⟩ := t.textBefore_cons h rest
  refine ⟨c, by rw [hstart, List.head?_cons], ?_⟩
  obtain hbase | rfl | rfl | rfl := hc
  · obtain rfl | rfl | rfl | rfl | rfl | rfl | rfl | rfl | rfl := isBaseLetter_eq_true hbase <;> rfl
  all_goals rfl

theorem reads_parameters {list : List TypeSignature} (h : ∀ t ∈ list, t.Proper) (rest : List Char)
    (fuel : Nat) (hfuel : 2 * (TypeSignature.listTextBefore list (')' :: rest)).length + 1 < fuel) :
    Reads (parameters fuel) (TypeSignature.listTextBefore list (')' :: rest)) list rest := by
  induction list generalizing fuel with
  | nil =>
    match fuel with
    | 0 => simp at hfuel
    | fuel + 1 =>
      rw [parameters]
      exact .peek (.advance .pure)
  | cons t list ih =>
    match fuel with
    | 0 => simp at hfuel
    | fuel + 1 =>
      obtain ⟨ht, hlist⟩ := List.forall_mem_cons.mp h
      rw [parameters, TypeSignature.listTextBefore_cons] at *
      have hlength := t.length_textBefore (TypeSignature.listTextBefore list (')' :: rest))
      have hpos := t.length_pos ht
      have hfirst := t.reads ht (TypeSignature.listTextBefore list (')' :: rest)) fuel
        (by omega)
      have hthen := ih hlist fuel (by omega)
      obtain ⟨c, hhead, hc⟩ :=
        t.head?_textBefore ht (TypeSignature.listTextBefore list (')' :: rest))
      refine .peek ?_
      rw [hhead]
      split
      case h_1 heq =>
        obtain rfl := Option.some.inj heq
        cases hc
      case h_2 => exact .bind hfirst (.bind hthen .pure)
      case h_3 heq => cases heq

theorem reads_thrown {list : List TypeSignature} (h : ∀ t ∈ list, t.Proper) (fuel : Nat)
    (hfuel : 2 * (list.foldr (fun t rest => '^' :: t.textBefore rest) []).length + 1 < fuel) :
    Reads (thrown fuel) (list.foldr (fun t rest => '^' :: t.textBefore rest) []) list [] := by
  induction list generalizing fuel with
  | nil =>
    match fuel with
    | 0 => simp at hfuel
    | fuel + 1 =>
      rw [thrown]
      exact .peek .pure
  | cons t list ih =>
    match fuel with
    | 0 => simp at hfuel
    | fuel + 1 =>
      obtain ⟨ht, hlist⟩ := List.forall_mem_cons.mp h
      rw [List.foldr_cons] at *
      have hlength := t.length_textBefore (list.foldr (fun t rest => '^' :: t.textBefore rest) [])
      rw [List.length_cons] at hfuel
      rw [thrown]
      exact .peek (.advance (.bind (t.reads ht _ _ (by omega)) (.bind (ih hlist _ (by omega)) .pure)))

theorem reads_typesToEnd {list : List TypeSignature} (h : ∀ t ∈ list, t.Proper) (fuel : Nat)
    (hfuel : 2 * (TypeSignature.listTextBefore list []).length + 1 < fuel) :
    Reads (typesToEnd fuel) (TypeSignature.listTextBefore list []) list [] := by
  induction list generalizing fuel with
  | nil =>
    match fuel with
    | 0 => simp at hfuel
    | fuel + 1 =>
      rw [typesToEnd]
      exact .peek .pure
  | cons t list ih =>
    match fuel with
    | 0 => simp at hfuel
    | fuel + 1 =>
      obtain ⟨ht, hlist⟩ := List.forall_mem_cons.mp h
      rw [typesToEnd, TypeSignature.listTextBefore_cons] at *
      have hlength := t.length_textBefore (TypeSignature.listTextBefore list [])
      have hpos := t.length_pos ht
      have hfirst := t.reads ht (TypeSignature.listTextBefore list []) fuel (by omega)
      have hthen := ih hlist fuel (by omega)
      obtain ⟨c, hhead, -⟩ := t.head?_textBefore ht (TypeSignature.listTextBefore list [])
      refine .peek ?_
      rw [hhead]
      exact .bind hfirst (.bind hthen .pure)

theorem TypeSignature.length_listTextBefore (list : List TypeSignature) (rest : List Char) :
    (TypeSignature.listTextBefore list rest).length =
      (TypeSignature.listTextBefore list []).length + rest.length := by
  induction list with
  | nil => simp [listTextBefore]
  | cons t list ih =>
    rw [listTextBefore_cons, listTextBefore_cons, t.length_textBefore, ih,
      t.length_textBefore (listTextBefore list []), Nat.add_assoc]

theorem SignatureBody.reads {b : SignatureBody} (h : b.Proper) (fuel : Nat)
    (hfuel : 2 * (b.textBefore []).length + 1 < fuel) :
    Reads (body fuel) (b.textBefore []) b [] := by
  rw [body]
  refine .peek ?_
  cases b with
  | method list result exceptions =>
    obtain ⟨hlist, hresult, hexceptions⟩ := h
    rw [SignatureBody.textBefore] at hfuel ⊢
    have hlength := TypeSignature.length_listTextBefore list
      (')' :: result.textBefore (exceptions.foldr (fun t rest => '^' :: t.textBefore rest) []))
    have hlength' := result.length_textBefore
      (exceptions.foldr (fun t rest => '^' :: t.textBefore rest) [])
    rw [List.length_cons] at hfuel hlength
    refine .advance (.bind (reads_parameters hlist _ _ (by omega))
      (.bind (result.reads hresult _ _ (by omega)) (.bind (reads_thrown hexceptions _ (by omega)) ?_)))
    exact .peek .pure
  | types list =>
    obtain ⟨hne, hlist⟩ := h
    have hread := reads_typesToEnd hlist _ hfuel
    rw [SignatureBody.textBefore]
    cases list with
    | nil => exact absurd rfl hne
    | cons t list =>
      obtain ⟨c, hhead, hc⟩ :=
        t.head?_textBefore (hlist t List.mem_cons_self) (TypeSignature.listTextBefore list [])
      rw [TypeSignature.listTextBefore_cons] at *
      rw [hhead]
      split
      case h_1 heq => cases heq
      case h_2 heq =>
        obtain rfl := Option.some.inj heq
        cases hc
      case h_3 => exact .bind hread .pure

/-! ### Formal type parameters -/

/-- What may stand behind the bounds of a type parameter. -/
structure EndsBounds (bounds : List (Option TypeSignature)) (rest : List Char) : Prop where
  colon : rest.head? ≠ some ':'
  start : bounds.getLast? = some none → startsBound rest.head? = false

theorem startsBound_of_isBound {t : TypeSignature} (h : t.isBound = true) (rest : List Char) :
    startsBound (t.textBefore rest).head? = true := by
  cases t with
  | base letter => cases h
  | array element => rw [TypeSignature.textBefore]; rfl
  | typeVariable name => rw [TypeSignature.textBefore]; rfl
  | classType name suffixes => rw [TypeSignature.textBefore]; rfl

/-- The bounds of a type parameter, with `rest` behind them. -/
def boundsTextBefore (bounds : List (Option TypeSignature)) (rest : List Char) : List Char :=
  bounds.foldr FormalParameter.boundTextBefore rest

theorem boundsTextBefore_none (bounds : List (Option TypeSignature)) (rest : List Char) :
    boundsTextBefore (none :: bounds) rest = ':' :: boundsTextBefore bounds rest := rfl

theorem boundsTextBefore_some (t : TypeSignature) (bounds : List (Option TypeSignature))
    (rest : List Char) : boundsTextBefore (some t :: bounds) rest =
      ':' :: t.textBefore (boundsTextBefore bounds rest) := rfl

theorem length_boundsTextBefore (bounds : List (Option TypeSignature)) (rest : List Char) :
    (boundsTextBefore bounds rest).length = (boundsTextBefore bounds []).length + rest.length := by
  induction bounds with
  | nil => simp [boundsTextBefore]
  | cons bound bounds ih =>
    cases bound with
    | none =>
      rw [boundsTextBefore_none, boundsTextBefore_none, List.length_cons, List.length_cons, ih]
      omega
    | some t =>
      rw [boundsTextBefore_some, boundsTextBefore_some, List.length_cons, List.length_cons,
        t.length_textBefore, t.length_textBefore (boundsTextBefore bounds []), ih]
      omega

theorem reads_bounds {list : List (Option TypeSignature)}
    (h : ∀ t, some t ∈ list → t.Proper ∧ t.isBound = true) {rest : List Char}
    (hrest : EndsBounds list rest) (fuel : Nat)
    (hfuel : 2 * (boundsTextBefore list rest).length + 1 < fuel) :
    Reads (bounds fuel) (boundsTextBefore list rest) list rest := by
  induction list generalizing fuel with
  | nil =>
    match fuel with
    | 0 => simp at hfuel
    | fuel + 1 =>
      rw [bounds]
      refine .peek ?_
      rw [if_neg (show (boundsTextBefore [] rest).head? ≠ some ':' from hrest.colon)]
      exact .pure
  | cons bound list ih =>
    match fuel with
    | 0 => simp at hfuel
    | fuel + 1 =>
      have hlist (t : TypeSignature) (ht : some t ∈ list) := h t (List.mem_cons_of_mem _ ht)
      have hbehind : EndsBounds list rest := by
        refine ⟨hrest.colon, fun hlast => hrest.start ?_⟩
        cases list with
        | nil => cases hlast
        | cons next list => rw [List.getLast?_cons_cons, hlast]
      rw [bounds]
      cases bound with
      | none =>
        rw [boundsTextBefore_none] at hfuel ⊢
        rw [List.length_cons] at hfuel
        -- behind an empty bound stands a colon or what ends the bounds
        have hempty : startsBound (boundsTextBefore list rest).head? = false := by
          cases list with
          | nil => exact hrest.start rfl
          | cons next list => cases next <;> rfl
        refine .peek (.advance (.peek ?_))
        rw [hempty, if_neg Bool.false_ne_true]
        exact .bind (ih hlist hbehind _ (by omega)) .pure
      | some t =>
        obtain ⟨ht, hbound⟩ := h t List.mem_cons_self
        rw [boundsTextBefore_some] at hfuel ⊢
        rw [List.length_cons] at hfuel
        have hlength := t.length_textBefore (boundsTextBefore list rest)
        refine .peek (.advance (.peek ?_))
        rw [if_pos (startsBound_of_isBound hbound _)]
        exact .bind (t.reads ht _ _ (by omega)) (.bind (ih hlist hbehind _ (by omega)) .pure)

/-- The text of formal type parameters, with the closing bracket and `rest` behind them. -/
def formalsTextBefore (list : List FormalParameter) (rest : List Char) : List Char :=
  list.foldr FormalParameter.textBefore ('>' :: rest)

theorem formalsTextBefore_cons (p : FormalParameter) (list : List FormalParameter)
    (rest : List Char) : formalsTextBefore (p :: list) rest =
      p.name.toList ++ boundsTextBefore p.bounds (formalsTextBefore list rest) := rfl

theorem length_formalsTextBefore (list : List FormalParameter) (rest : List Char) :
    rest.length < (formalsTextBefore list rest).length := by
  induction list with
  | nil => simp [formalsTextBefore]
  | cons p list ih =>
    rw [formalsTextBefore_cons, List.length_append, length_boundsTextBefore]
    omega

/-- A type parameter starts with its name. -/
theorem FormalParameter.head?_textBefore {p : FormalParameter} (h : p.Proper) (rest : List Char) :
    ∃ c, p.name.toList.head? = some c ∧ (p.name.toList ++ rest).head? = some c ∧ c ≠ '>' ∧ c ≠ ':' := by
  cases hname : p.name.toList with
  | nil => exact absurd hname h.ne_nil
  | cons c name =>
    refine ⟨c, rfl, rfl, ?_, ?_⟩
    · rintro rfl
      exact h.head (by rw [hname]; rfl)
    · rintro rfl
      exact h.colon (by rw [hname]; exact List.mem_cons_self)

/-- Proper bounds end where the next type parameter or the closing bracket stands. -/
theorem endsBounds {bounds : List (Option TypeSignature)} {list : List FormalParameter}
    (h : FormalParameter.ListProper list)
    (hempty : bounds.getLast? = some none →
      ∀ q ∈ list.head?, startsBound q.name.toList.head? = false) (rest : List Char) :
    EndsBounds bounds (formalsTextBefore list rest) := by
  cases list with
  | nil => exact ⟨by simp [formalsTextBefore], fun _ => by rfl⟩
  | cons q list =>
    rw [FormalParameter.ListProper] at h
    rw [formalsTextBefore_cons]
    obtain ⟨c, hname, hhead, -, hcolon⟩ :=
      FormalParameter.head?_textBefore h.1 (boundsTextBefore q.bounds (formalsTextBefore list rest))
    refine ⟨by rw [hhead]; simpa using hcolon, fun hlast => ?_⟩
    rw [hhead, ← hname]
    exact hempty hlast q rfl

theorem boundsTextBefore_start {bounds : List (Option TypeSignature)} (h : bounds ≠ [])
    (rest : List Char) : ∃ text, boundsTextBefore bounds rest = ':' :: text := by
  cases bounds with
  | nil => exact absurd rfl h
  | cons bound bounds => cases bound <;> exact ⟨_, rfl⟩

theorem reads_formals {list : List FormalParameter} (h : FormalParameter.ListProper list)
    (rest : List Char) (fuel : Nat) (hfuel : 2 * (formalsTextBefore list rest).length + 1 < fuel) :
    Reads (formals fuel) (formalsTextBefore list rest) list rest := by
  induction list generalizing fuel with
  | nil =>
    match fuel with
    | 0 => simp at hfuel
    | fuel + 1 =>
      rw [formals]
      exact .peek (.advance .pure)
  | cons p list ih =>
    match fuel with
    | 0 => simp at hfuel
    | fuel + 1 =>
      rw [FormalParameter.ListProper] at h
      obtain ⟨hp, hempty, hlist⟩ := h
      rw [formalsTextBefore_cons] at hfuel ⊢
      have hlength := length_boundsTextBefore p.bounds (formalsTextBefore list rest)
      rw [List.length_append] at hfuel
      have hbounds := reads_bounds hp.bounds (endsBounds hlist hempty rest) fuel (by
        have := List.length_pos_of_ne_nil hp.ne_nil
        omega)
      have hthen := ih hlist fuel (by
        have := List.length_pos_of_ne_nil hp.ne_nil
        omega)
      obtain ⟨c, -, hhead, hbracket, hcolon⟩ := FormalParameter.head?_textBefore hp
        (boundsTextBefore p.bounds (formalsTextBefore list rest))
      obtain ⟨text, htext⟩ :=
        boundsTextBefore_start hp.bounds_ne_nil (formalsTextBefore list rest)
      rw [formals]
      refine .peek ?_
      rw [hhead]
      split
      case h_1 heq => exact absurd (Option.some.inj heq) hbracket
      case h_2 heq => exact absurd (Option.some.inj heq) hcolon
      case h_3 =>
        rw [htext] at hbounds ⊢
        refine .upTo (fun x hx => ?_) (by rfl) (.bind hbounds (.bind hthen .pure))
        rw [decide_eq_false_iff_not]
        rintro rfl
        exact hp.colon hx

theorem SignatureBody.head?_textBefore {b : SignatureBody} (h : b.Proper) :
    (b.textBefore []).head? ≠ some '<' := by
  cases b with
  | method list result exceptions =>
    rw [textBefore, List.head?_cons]
    decide
  | types list =>
    obtain ⟨hne, hlist⟩ := h
    cases list with
    | nil => exact absurd rfl hne
    | cons t list =>
      obtain ⟨c, hhead, hc⟩ :=
        t.head?_textBefore (hlist t List.mem_cons_self) (TypeSignature.listTextBefore list [])
      rw [textBefore, TypeSignature.listTextBefore_cons, hhead]
      rintro heq
      obtain rfl := Option.some.inj heq
      cases hc

theorem Signature.reads {s : Signature} (h : s.Proper) (fuel : Nat)
    (hfuel : 2 * s.toText.length + 1 < fuel) : Reads (signature fuel) s.toText s [] := by
  obtain ⟨formalList, b⟩ := s
  obtain ⟨hformals, hbody⟩ := h
  rw [signature]
  cases formalList with
  | none =>
    refine .peek ?_
    rw [if_neg (show (toText ⟨none, b⟩).head? ≠ some '<' from SignatureBody.head?_textBefore hbody)]
    exact .bind (SignatureBody.reads hbody _ hfuel) .pure
  | some list =>
    replace hfuel : 2 * ('<' :: formalsTextBefore list (b.textBefore [])).length + 1 < fuel := hfuel
    show Reads _ ('<' :: formalsTextBefore list (b.textBefore [])) _ _
    rw [List.length_cons] at hfuel
    have hlength := length_formalsTextBefore list (b.textBefore [])
    refine .peek (.advance (.bind (reads_formals (hformals list rfl) _ _ (by omega)) ?_))
    have hlater : 2 * (b.textBefore []).length + 1 < fuel := by omega
    exact .bind (SignatureBody.reads hbody _ hlater) .pure

/-- **The text of a proper signature is read as it.** -/
theorem Signature.read_toText {s : Signature} (h : s.Proper) :
    ∃ met, Signature.read s.toText = .ok s ⟨[], met⟩ :=
  s.reads h _ (by omega) []

end JvmRelocation
