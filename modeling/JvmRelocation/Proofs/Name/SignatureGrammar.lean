import JvmRelocation.Proofs.Name.SignatureRenaming

/-!
# The grammar of generic signatures

The texts that derive from the grammar, told without a reader and without trees:

    signature := formals? ( '(' type* ')' type ('^' type)* | type+ )
    formals   := '<' ( identifier (':' bound)+ )* '>'
    type      := one of B C D F I J S Z V | '[' type | 'T' variable ';'
               | 'L' name ( arguments | '.' name )* ';'
    arguments := '<' ( '*' | ('+' | '-') type | type )* '>'

A bound is a type if the next character is `L`, `T` or `[`, and empty otherwise, so what bounds derive
depends on what stands behind them. A derivation is a proper tree, and a proper tree is a derivation of
its text: the texts of the grammar are those that are read as signatures, whatever the mapper.
-/

namespace JvmRelocation

/-! ## Derivations -/

/-- The name of a class in a class type. -/
def IsName (text : List Char) : Prop :=
  '<' ∉ text ∧ '.' ∉ text ∧ ';' ∉ text

mutual

inductive IsType : List Char → Prop
  | base (letter : Char) (h : letter ∈ ['B', 'C', 'D', 'F', 'I', 'J', 'S', 'Z', 'V']) : IsType [letter]
  | array (element : List Char) (h : IsType element) : IsType ('[' :: element)
  | typeVariable (name : List Char) (h : ';' ∉ name) : IsType ('T' :: name ++ [';'])
  | classType (name suffixes : List Char) (hname : IsName name) (h : IsSuffixes suffixes) :
    IsType ('L' :: name ++ suffixes ++ [';'])

/-- Type arguments and names of inner classes, in any order. -/
inductive IsSuffixes : List Char → Prop
  | nil : IsSuffixes []
  | arguments (list rest : List Char) (hlist : IsArguments list) (h : IsSuffixes rest) :
    IsSuffixes ('<' :: list ++ '>' :: rest)
  | inner (name rest : List Char) (hname : IsName name) (h : IsSuffixes rest) :
    IsSuffixes ('.' :: name ++ rest)

/-- Type arguments between their brackets. -/
inductive IsArguments : List Char → Prop
  | nil : IsArguments []
  | wildcard (rest : List Char) (h : IsArguments rest) : IsArguments ('*' :: rest)
  | bounded (sign : Char) (bound rest : List Char) (hsign : sign = '+' ∨ sign = '-')
    (hbound : IsType bound) (h : IsArguments rest) : IsArguments (sign :: bound ++ rest)
  | exactly (type rest : List Char) (htype : IsType type) (h : IsArguments rest) :
    IsArguments (type ++ rest)

end

/-- Texts of one kind, one after another. -/
def Several (Part : List Char → Prop) (text : List Char) : Prop :=
  ∃ parts : List (List Char), (∀ part ∈ parts, Part part) ∧ parts.flatten = text

/-- An exception that a method throws. -/
def IsThrown (text : List Char) : Prop :=
  ∃ type, IsType type ∧ '^' :: type = text

inductive IsBody : List Char → Prop
  | method (parameters result thrown : List Char) (hparameters : Several IsType parameters)
    (hresult : IsType result) (hthrown : Several IsThrown thrown) :
    IsBody ('(' :: parameters ++ ')' :: result ++ thrown)
  | types (first rest : List Char) (hfirst : IsType first) (hrest : Several IsType rest) :
    IsBody (first ++ rest)

/-- A bound with a text behind it. -/
def IsBound (text behind : List Char) : Prop :=
  if SignatureReader.startsBound (text ++ behind).head? then IsType text else text = []

/-- One or more bounds, each with its colon, with a text behind them. -/
inductive IsBounds : List Char → List Char → Prop
  | last (bound behind : List Char) (h : IsBound bound behind) : IsBounds (':' :: bound) behind
  | cons (bound rest behind : List Char) (h : IsBound bound (rest ++ behind))
    (hrest : IsBounds rest behind) : IsBounds (':' :: bound ++ rest) behind

/-- The name of a type parameter. -/
def IsIdentifier (text : List Char) : Prop :=
  text ≠ [] ∧ ':' ∉ text ∧ text.head? ≠ some '>'

/-- Type parameters between their brackets, with a text behind them. -/
inductive IsFormals : List Char → List Char → Prop
  | nil (behind : List Char) : IsFormals [] behind
  | cons (identifier bounds rest behind : List Char) (hidentifier : IsIdentifier identifier)
    (hbounds : IsBounds bounds (rest ++ behind)) (h : IsFormals rest behind) :
    IsFormals (identifier ++ bounds ++ rest) behind

inductive IsSignature : List Char → Prop
  | plain (body : List Char) (h : IsBody body) : IsSignature body
  | generic (formals body : List Char) (hformals : IsFormals formals ('>' :: body))
    (h : IsBody body) : IsSignature ('<' :: formals ++ '>' :: body)

/-! ## Types -/

theorem isName_iff {name : String} : IsName name.toList ↔ ProperLabel name := by
  constructor
  · rintro ⟨hbracket, hdot, hsemicolon⟩ c hc
    have hne : c ≠ '<' ∧ c ≠ '.' ∧ c ≠ ';' :=
      ⟨fun h => hbracket (h ▸ hc), fun h => hdot (h ▸ hc), fun h => hsemicolon (h ▸ hc)⟩
    simp [SignatureReader.endsName, hne]
  · intro h
    have hnone {c : Char} (hc : SignatureReader.endsName c = true) : c ∉ name.toList := by
      intro hmem
      rw [h c hmem] at hc
      cases hc
    exact ⟨hnone rfl, hnone rfl, hnone rfl⟩

mutual

/-- A proper tree is a derivation of its text. -/
theorem TypeSignature.Proper.isType {t : TypeSignature} (h : t.Proper) : IsType (t.textBefore []) := by
  match t with
  | .base letter =>
    rw [TypeSignature.textBefore]
    exact .base letter (by simpa [SignatureReader.isBaseLetter] using isBaseLetter_eq_true h)
  | .array element =>
    rw [TypeSignature.textBefore]
    exact .array _ (TypeSignature.Proper.isType (t := element) h)
  | .typeVariable name =>
    rw [TypeSignature.textBefore]
    exact .typeVariable _ h
  | .classType name suffixes =>
    rw [TypeSignature.textBefore, TypeSuffix.listTextBefore_eq_append, ← List.append_assoc]
    exact .classType _ _ (isName_iff.mpr h.1) h.2.isSuffixes

theorem TypeSuffix.ListProper.isSuffixes {list : List TypeSuffix} (h : TypeSuffix.ListProper list) :
    IsSuffixes (TypeSuffix.listTextBefore list []) := by
  match list with
  | [] => exact .nil
  | .arguments inside :: list =>
    rw [TypeSuffix.listTextBefore, TypeArgument.listTextBefore_eq_append]
    exact .arguments _ _ (TypeArgument.ListProper.isArguments h.1) (TypeSuffix.ListProper.isSuffixes h.2)
  | .inner name :: list =>
    rw [TypeSuffix.listTextBefore]
    exact .inner _ _ (isName_iff.mpr h.1) (TypeSuffix.ListProper.isSuffixes h.2)

theorem TypeArgument.ListProper.isArguments {list : List TypeArgument}
    (h : TypeArgument.ListProper list) : IsArguments (TypeArgument.listTextBefore list []) := by
  match list with
  | [] => exact .nil
  | .wildcard :: list =>
    rw [TypeArgument.listTextBefore]
    exact .wildcard _ (TypeArgument.ListProper.isArguments h)
  | .subtypeOf bound :: list =>
    rw [TypeArgument.listTextBefore, TypeSignature.textBefore_eq_append]
    exact .bounded _ _ _ (.inl rfl) h.1.isType (TypeArgument.ListProper.isArguments h.2)
  | .supertypeOf bound :: list =>
    rw [TypeArgument.listTextBefore, TypeSignature.textBefore_eq_append]
    exact .bounded _ _ _ (.inr rfl) h.1.isType (TypeArgument.ListProper.isArguments h.2)
  | .exactly type :: list =>
    rw [TypeArgument.listTextBefore, TypeSignature.textBefore_eq_append]
    exact .exactly _ _ h.1.isType (TypeArgument.ListProper.isArguments h.2)

end

mutual

/-- A derivation is a proper tree with that text. -/
theorem IsType.exists_tree {text : List Char} (h : IsType text) :
    ∃ t : TypeSignature, t.Proper ∧ t.textBefore [] = text := by
  match h with
  | .base letter h =>
    refine ⟨.base letter, ?_, rfl⟩
    simpa [TypeSignature.Proper, SignatureReader.isBaseLetter] using h
  | .array element h =>
    obtain ⟨t, ht, rfl⟩ := h.exists_tree
    exact ⟨.array t, ht, by rw [TypeSignature.textBefore]⟩
  | .typeVariable name h =>
    refine ⟨.typeVariable (String.ofList name), ?_, ?_⟩
    · rwa [TypeSignature.Proper, String.toList_ofList]
    · rw [TypeSignature.textBefore, String.toList_ofList]
      rfl
  | .classType name suffixes hname h =>
    obtain ⟨list, hlist, rfl⟩ := h.exists_tree
    refine ⟨.classType (String.ofList name) list, ⟨?_, hlist⟩, ?_⟩
    · rwa [← isName_iff, String.toList_ofList]
    · rw [TypeSignature.textBefore, String.toList_ofList, TypeSuffix.listTextBefore_eq_append,
        ← List.append_assoc]
      rfl

theorem IsSuffixes.exists_tree {text : List Char} (h : IsSuffixes text) :
    ∃ list : List TypeSuffix, TypeSuffix.ListProper list ∧
      TypeSuffix.listTextBefore list [] = text := by
  match h with
  | .nil => exact ⟨[], trivial, rfl⟩
  | .arguments _ _ hinside h =>
    obtain ⟨inside, hproper, rfl⟩ := hinside.exists_tree
    obtain ⟨list, hlist, rfl⟩ := h.exists_tree
    refine ⟨.arguments inside :: list, ⟨hproper, hlist⟩, ?_⟩
    rw [TypeSuffix.listTextBefore, TypeArgument.listTextBefore_eq_append]
    rfl
  | .inner name _ hname h =>
    obtain ⟨list, hlist, rfl⟩ := h.exists_tree
    refine ⟨.inner (String.ofList name) :: list, ⟨?_, hlist⟩, ?_⟩
    · rwa [← isName_iff, String.toList_ofList]
    · rw [TypeSuffix.listTextBefore, String.toList_ofList]
      rfl

theorem IsArguments.exists_tree {text : List Char} (h : IsArguments text) :
    ∃ list : List TypeArgument, TypeArgument.ListProper list ∧
      TypeArgument.listTextBefore list [] = text := by
  match h with
  | .nil => exact ⟨[], trivial, rfl⟩
  | .wildcard _ h =>
    obtain ⟨list, hlist, rfl⟩ := h.exists_tree
    exact ⟨.wildcard :: list, hlist, by rw [TypeArgument.listTextBefore]⟩
  | .bounded sign _ _ hsign hbound h =>
    obtain ⟨bound, hproper, rfl⟩ := hbound.exists_tree
    obtain ⟨list, hlist, rfl⟩ := h.exists_tree
    rcases hsign with rfl | rfl
    · refine ⟨.subtypeOf bound :: list, ⟨hproper, hlist⟩, ?_⟩
      rw [TypeArgument.listTextBefore, TypeSignature.textBefore_eq_append]
      rfl
    · refine ⟨.supertypeOf bound :: list, ⟨hproper, hlist⟩, ?_⟩
      rw [TypeArgument.listTextBefore, TypeSignature.textBefore_eq_append]
      rfl
  | .exactly _ _ htype h =>
    obtain ⟨type, hproper, rfl⟩ := htype.exists_tree
    obtain ⟨list, hlist, rfl⟩ := h.exists_tree
    refine ⟨.exactly type :: list, ⟨hproper, hlist⟩, ?_⟩
    rw [TypeArgument.listTextBefore, TypeSignature.textBefore_eq_append]

end

/-- The texts of types are those of proper trees. -/
theorem isType_iff {text : List Char} :
    IsType text ↔ ∃ t : TypeSignature, t.Proper ∧ t.textBefore [] = text := by
  constructor
  · exact IsType.exists_tree
  · rintro ⟨t, ht, rfl⟩
    exact ht.isType

/-! ## Bodies -/

section

variable {α : Type} {Proper : α → Prop} {textBefore : α → List Char → List Char}

/-- What is written one after another in front of a text stands there on its own. -/
theorem foldr_textBefore (happend : ∀ a rest, textBefore a rest = textBefore a [] ++ rest)
    (list : List α) (rest : List Char) :
    list.foldr textBefore rest = (list.map (textBefore · [])).flatten ++ rest := by
  induction list with
  | nil => rfl
  | cons a list ih =>
    rw [List.foldr_cons, happend, ih, List.map_cons, List.flatten_cons, List.append_assoc]

theorem several_iff {Part : List Char → Prop} {text : List Char}
    (happend : ∀ a rest, textBefore a rest = textBefore a [] ++ rest)
    (hpart : ∀ part, Part part ↔ ∃ a, Proper a ∧ textBefore a [] = part) :
    Several Part text ↔ ∃ list : List α, (∀ a ∈ list, Proper a) ∧ list.foldr textBefore [] = text := by
  simp only [foldr_textBefore happend, List.append_nil]
  constructor
  · rintro ⟨parts, hparts, rfl⟩
    induction parts with
    | nil => exact ⟨[], nofun, rfl⟩
    | cons part parts ih =>
      obtain ⟨hfirst, hrest⟩ := List.forall_mem_cons.mp hparts
      obtain ⟨a, ha, rfl⟩ := (hpart part).mp hfirst
      obtain ⟨list, hlist, htext⟩ := ih hrest
      refine ⟨a :: list, List.forall_mem_cons.mpr ⟨ha, hlist⟩, ?_⟩
      rw [List.map_cons, List.flatten_cons, htext, List.flatten_cons]
  · rintro ⟨list, hlist, rfl⟩
    refine ⟨_, List.forall_mem_map.mpr fun a ha => ?_, rfl⟩
    exact (hpart _).mpr ⟨a, hlist a ha, rfl⟩

end

theorem several_isType {text : List Char} : Several IsType text ↔
    ∃ list : List TypeSignature, (∀ t ∈ list, t.Proper) ∧ TypeSignature.listTextBefore list [] = text :=
  several_iff (fun t rest => t.textBefore_eq_append rest) fun _ => isType_iff

theorem several_isThrown {text : List Char} : Several IsThrown text ↔
    ∃ list : List TypeSignature, (∀ t ∈ list, t.Proper) ∧
      list.foldr (fun t rest => '^' :: t.textBefore rest) [] = text := by
  refine several_iff (fun t rest => ?_) fun part => ?_
  · rw [t.textBefore_eq_append rest]
    rfl
  · constructor
    · rintro ⟨type, htype, rfl⟩
      obtain ⟨t, ht, rfl⟩ := isType_iff.mp htype
      exact ⟨t, ht, rfl⟩
    · rintro ⟨t, ht, rfl⟩
      exact ⟨_, ht.isType, rfl⟩

theorem TypeSignature.listTextBefore_eq_append (list : List TypeSignature) (rest : List Char) :
    TypeSignature.listTextBefore list rest = TypeSignature.listTextBefore list [] ++ rest := by
  have happend (t : TypeSignature) (rest : List Char) := t.textBefore_eq_append rest
  rw [listTextBefore, listTextBefore, foldr_textBefore happend, foldr_textBefore happend list [],
    List.append_nil]

theorem isBody_iff {text : List Char} :
    IsBody text ↔ ∃ b : SignatureBody, b.Proper ∧ b.textBefore [] = text := by
  constructor
  · intro h
    cases h with
    | method parameters result thrown hparameters hresult hthrown =>
      obtain ⟨list, hlist, rfl⟩ := several_isType.mp hparameters
      obtain ⟨t, ht, rfl⟩ := isType_iff.mp hresult
      obtain ⟨exceptions, hexceptions, rfl⟩ := several_isThrown.mp hthrown
      refine ⟨.method list t exceptions, ⟨hlist, ht, hexceptions⟩, ?_⟩
      rw [SignatureBody.textBefore, TypeSignature.listTextBefore_eq_append,
        TypeSignature.textBefore_eq_append]
      simp
    | types first rest hfirst hrest =>
      obtain ⟨t, ht, rfl⟩ := isType_iff.mp hfirst
      obtain ⟨list, hlist, rfl⟩ := several_isType.mp hrest
      refine ⟨.types (t :: list), ⟨List.cons_ne_nil t list, List.forall_mem_cons.mpr ⟨ht, hlist⟩⟩, ?_⟩
      rw [SignatureBody.textBefore, TypeSignature.listTextBefore_cons,
        TypeSignature.textBefore_eq_append]
  · rintro ⟨b, hb, rfl⟩
    cases b with
    | method list t exceptions =>
      obtain ⟨hlist, ht, hexceptions⟩ := hb
      have h := IsBody.method _ _ _ (several_isType.mpr ⟨list, hlist, rfl⟩) ht.isType
        (several_isThrown.mpr ⟨exceptions, hexceptions, rfl⟩)
      rw [SignatureBody.textBefore, TypeSignature.listTextBefore_eq_append,
        TypeSignature.textBefore_eq_append]
      simpa using h
    | types list =>
      obtain ⟨hne, hlist⟩ := hb
      cases list with
      | nil => exact absurd rfl hne
      | cons t list =>
        obtain ⟨ht, hlist⟩ := List.forall_mem_cons.mp hlist
        rw [SignatureBody.textBefore, TypeSignature.listTextBefore_cons,
          TypeSignature.textBefore_eq_append]
        exact .types _ _ ht.isType (several_isType.mpr ⟨list, hlist, rfl⟩)

/-! ## Type parameters -/

/-- Bounds that derive a text where another one stands behind. -/
structure BoundsBefore (bounds : List (Option TypeSignature)) (text behind : List Char) : Prop where
  ne_nil : bounds ≠ []
  proper : ∀ t, some t ∈ bounds → t.Proper ∧ t.isBound = true
  start : bounds.getLast? = some none → SignatureReader.startsBound behind.head? = false
  text_eq : boundsTextBefore bounds [] = text

theorem FormalParameter.boundTextBefore_eq_append (bound : Option TypeSignature) (rest : List Char) :
    boundTextBefore bound rest = boundTextBefore bound [] ++ rest := by
  cases bound with
  | none => rfl
  | some t =>
    rw [boundTextBefore, t.textBefore_eq_append]
    rfl

theorem boundsTextBefore_eq_append (bounds : List (Option TypeSignature)) (rest : List Char) :
    boundsTextBefore bounds rest = boundsTextBefore bounds [] ++ rest := by
  have happend := FormalParameter.boundTextBefore_eq_append
  rw [boundsTextBefore, boundsTextBefore, foldr_textBefore happend, foldr_textBefore happend bounds [],
    List.append_nil]

/-- A bound is empty, or a type that can be one. -/
theorem isBound_iff {text behind : List Char} : IsBound text behind ↔
    (text = [] ∧ SignatureReader.startsBound behind.head? = false) ∨
      ∃ t : TypeSignature, t.Proper ∧ t.isBound = true ∧ t.textBefore [] = text := by
  rw [IsBound]
  constructor
  · intro h
    split at h
    case isTrue hstart =>
      obtain ⟨t, ht, rfl⟩ := isType_iff.mp h
      rw [← t.textBefore_eq_append] at hstart
      exact .inr ⟨t, ht, isBound_of_startsBound ht hstart, rfl⟩
    case isFalse hstart =>
      subst h
      exact .inl ⟨rfl, by simpa using hstart⟩
  · rintro (⟨rfl, hstart⟩ | ⟨t, ht, hbound, rfl⟩)
    · rw [List.nil_append, if_neg (by simp [hstart])]
    · rw [← t.textBefore_eq_append, if_pos (startsBound_of_isBound hbound behind)]
      exact ht.isType

theorem isBounds_iff {text behind : List Char} :
    IsBounds text behind ↔ ∃ bounds, BoundsBefore bounds text behind := by
  constructor
  · intro h
    induction h with
    | last bound behind h =>
      rcases isBound_iff.mp h with ⟨rfl, hstart⟩ | ⟨t, ht, hbound, rfl⟩
      · exact ⟨[none], nofun, by simp, fun _ => hstart, rfl⟩
      · exact ⟨[some t], nofun, by simp [ht, hbound], nofun, rfl⟩
    | cons bound rest behind h hrest ih =>
      obtain ⟨bounds, hne, hproper, hlast, rfl⟩ := ih
      have hlast' (first : Option TypeSignature) : (first :: bounds).getLast? = some none →
          SignatureReader.startsBound behind.head? = false := by
        rw [List.getLast?_cons_of_ne_nil hne]
        exact hlast
      rcases isBound_iff.mp h with ⟨rfl, -⟩ | ⟨t, ht, hbound, rfl⟩
      · exact ⟨none :: bounds, nofun, by simpa using hproper, hlast' none, rfl⟩
      · refine ⟨some t :: bounds, nofun, ?_, hlast' (some t), ?_⟩
        · intro t' ht'
          rcases List.mem_cons.mp ht' with heq | ht'
          · obtain rfl := Option.some.inj heq
            exact ⟨ht, hbound⟩
          · exact hproper t' ht'
        · rw [boundsTextBefore_some, t.textBefore_eq_append]
          rfl
  · rintro ⟨bounds, hne, hproper, hlast, rfl⟩
    induction bounds with
    | nil => exact absurd rfl hne
    | cons bound bounds ih =>
      -- a bound that is not the last one has a colon behind it
      have hbound (rest : List Char) (hrest : bound = none →
          SignatureReader.startsBound rest.head? = false) :
          IsBound ((bound.map (TypeSignature.textBefore · [])).getD []) rest := by
        cases bound with
        | none => exact isBound_iff.mpr (.inl ⟨rfl, hrest rfl⟩)
        | some t =>
          obtain ⟨ht, hisBound⟩ := hproper t List.mem_cons_self
          exact isBound_iff.mpr (.inr ⟨t, ht, hisBound, rfl⟩)
      have htext : boundsTextBefore (bound :: bounds) [] =
          ':' :: (bound.map (TypeSignature.textBefore · [])).getD [] ++
            boundsTextBefore bounds [] := by
        cases bound with
        | none => rfl
        | some t =>
          rw [boundsTextBefore_some, t.textBefore_eq_append]
          rfl
      rw [htext]
      cases bounds with
      | nil =>
        rw [show boundsTextBefore [] [] = [] from rfl, List.append_nil]
        exact .last _ _ (hbound behind fun hnone => hlast (by rw [hnone]; rfl))
      | cons next bounds =>
        have hnext : (next :: bounds) ≠ [] := nofun
        obtain ⟨more, hmore⟩ := boundsTextBefore_start hnext []
        refine .cons _ _ _ (hbound _ fun _ => ?_) (ih hnext ?_ ?_)
        · rw [hmore]
          rfl
        · exact fun t ht => hproper t (List.mem_cons_of_mem _ ht)
        · intro hnone
          exact hlast (by rwa [List.getLast?_cons_of_ne_nil hnext])

theorem FormalParameter.textBefore_eq_append (p : FormalParameter) (rest : List Char) :
    p.textBefore rest = p.textBefore [] ++ rest := by
  show p.name.toList ++ boundsTextBefore p.bounds rest =
    p.name.toList ++ boundsTextBefore p.bounds [] ++ rest
  rw [boundsTextBefore_eq_append, List.append_assoc]

/-- The next type parameter starts a bound exactly if its name does; the closing bracket does not. -/
theorem startsBound_formals {list : List FormalParameter} (h : FormalParameter.ListProper list)
    (body : List Char) :
    SignatureReader.startsBound (list.foldr FormalParameter.textBefore [] ++ '>' :: body).head? =
        false ↔
      ∀ q ∈ list.head?, SignatureReader.startsBound q.name.toList.head? = false := by
  cases list with
  | nil =>
    simp only [List.head?_nil, Option.mem_def, reduceCtorEq, false_implies, implies_true, iff_true]
    rfl
  | cons q list =>
    have hne : q.name.toList ≠ [] := h.1.ne_nil
    rw [List.foldr_cons, FormalParameter.textBefore, List.append_assoc,
      List.head?_append_of_ne_nil _ hne]
    simp

theorem isFormals_iff {text body : List Char} : IsFormals text ('>' :: body) ↔
    ∃ list, FormalParameter.ListProper list ∧ list.foldr FormalParameter.textBefore [] = text := by
  constructor
  · intro h
    generalize hbehind : '>' :: body = behind at h
    induction h with
    | nil => exact ⟨[], trivial, rfl⟩
    | cons identifier bounds rest behind hidentifier hbounds h ih =>
      subst hbehind
      obtain ⟨list, hlist, rfl⟩ := ih rfl
      obtain ⟨bounds, hne, hproper, hlast, rfl⟩ := isBounds_iff.mp hbounds
      obtain ⟨hident, hcolon, hbracket⟩ := hidentifier
      have hp : FormalParameter.Proper ⟨String.ofList identifier, bounds⟩ := by
        refine ⟨?_, ?_, ?_, hne, hproper⟩ <;> rwa [String.toList_ofList]
      refine ⟨⟨String.ofList identifier, bounds⟩ :: list, ⟨hp, ?_, hlist⟩, ?_⟩
      · intro hnone
        exact (startsBound_formals hlist body).mp (hlast hnone)
      · rw [List.foldr_cons, FormalParameter.textBefore_eq_append, FormalParameter.textBefore,
          String.toList_ofList]
        rfl
  · rintro ⟨list, hlist, rfl⟩
    induction list with
    | nil => exact .nil _
    | cons p list ih =>
      obtain ⟨hp, hlast, hlist⟩ := hlist
      rw [List.foldr_cons, FormalParameter.textBefore_eq_append]
      refine .cons _ _ _ _ ⟨hp.ne_nil, hp.colon, hp.head⟩ ?_ (ih hlist)
      refine isBounds_iff.mpr ⟨p.bounds, hp.bounds_ne_nil, hp.bounds, fun hnone => ?_, rfl⟩
      exact (startsBound_formals hlist body).mpr (hlast hnone)

/-! ## Signatures -/

/-- The texts of signatures are those of proper trees. -/
theorem isSignature_iff {text : List Char} :
    IsSignature text ↔ ∃ s : Signature, s.Proper ∧ s.toText = text := by
  constructor
  · intro h
    cases h with
    | plain _ h =>
      obtain ⟨b, hb, rfl⟩ := isBody_iff.mp h
      exact ⟨⟨none, b⟩, ⟨nofun, hb⟩, rfl⟩
    | generic formals body hformals h =>
      obtain ⟨list, hlist, rfl⟩ := isFormals_iff.mp hformals
      obtain ⟨b, hb, rfl⟩ := isBody_iff.mp h
      refine ⟨⟨some list, b⟩, ⟨fun list' heq => ?_, hb⟩, ?_⟩
      · obtain rfl := Option.some.inj heq
        exact hlist
      · show '<' :: list.foldr FormalParameter.textBefore ('>' :: b.textBefore []) = _
        rw [foldr_textBefore FormalParameter.textBefore_eq_append,
          foldr_textBefore FormalParameter.textBefore_eq_append list [], List.append_nil]
        rfl
  · rintro ⟨⟨formals, b⟩, ⟨hformals, hb⟩, rfl⟩
    have hbody : IsBody (b.textBefore []) := isBody_iff.mpr ⟨b, hb, rfl⟩
    cases formals with
    | none => exact .plain _ hbody
    | some list =>
      show IsSignature ('<' :: list.foldr FormalParameter.textBefore ('>' :: b.textBefore []))
      rw [foldr_textBefore FormalParameter.textBefore_eq_append]
      refine .generic _ _ (isFormals_iff.mpr ⟨list, hformals list rfl, ?_⟩) hbody
      rw [foldr_textBefore FormalParameter.textBefore_eq_append, List.append_nil]

/-- **What is accepted is what the grammar derives**, whatever the mapper. -/
theorem exists_remap_iff_isSignature {m : NameMapper} {text : String} :
    (∃ result, Signature.remap m text = .ok result) ↔ IsSignature text.toList := by
  rw [Signature.exists_remap_iff, isSignature_iff]
  simp only [Signature.parse_eq_some]
  constructor
  · rintro ⟨s, hs, rfl⟩
    exact ⟨s, hs, String.toList_ofList.symm⟩
  · rintro ⟨s, hs, htext⟩
    exact ⟨s, hs, by rw [htext, String.ofList_toList]⟩

end JvmRelocation
