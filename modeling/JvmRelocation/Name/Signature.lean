import JvmRelocation.Name.Mapper

/-!
# Generic signatures

The tree of a class, method or field signature, its text, and its class names.

A class type names its outer class and then goes on, in any order, with argument lists and the
simple names of inner classes. The full name of an inner class is the full name of the class around
it, a dollar sign and its simple name, and that full name is what a mapper is asked about.
-/

namespace JvmRelocation

mutual

/-- A type inside a signature. -/
inductive TypeSignature where
  /-- A primitive type or `V`, by its letter. -/
  | base (letter : Char)
  /-- An array. -/
  | array (element : TypeSignature)
  /-- A type variable. -/
  | typeVariable (name : String)
  /-- A class type: the name of its outer class, and what follows. -/
  | classType (name : String) (suffixes : List TypeSuffix)

/-- What can follow the name of a class. -/
inductive TypeSuffix where
  /-- A list of type arguments. -/
  | arguments (list : List TypeArgument)
  /-- An inner class, by its simple name. -/
  | inner (name : String)

/-- A type argument. -/
inductive TypeArgument where
  /-- The unbounded wildcard. -/
  | wildcard
  /-- A wildcard with an upper bound. -/
  | subtypeOf (bound : TypeSignature)
  /-- A wildcard with a lower bound. -/
  | supertypeOf (bound : TypeSignature)
  /-- A type. -/
  | exactly (type : TypeSignature)

end

/-- A formal type parameter with its bounds; a bound that is left out stands for an empty one. -/
structure FormalParameter where
  name : String
  bounds : List (Option TypeSignature)

/-- What follows the formal type parameters. -/
inductive SignatureBody where
  /-- A method: parameters, result and the types it throws. -/
  | method (parameters : List TypeSignature) (result : TypeSignature) (thrown : List TypeSignature)
  /-- Types one after another: a field's type, or a superclass and its interfaces. -/
  | types (list : List TypeSignature)

/-- A generic signature. The formal type parameters may be missing, which differs from an empty
list of them. -/
structure Signature where
  formals : Option (List FormalParameter)
  body : SignatureBody

/-! ## The text of a signature

Each function writes a text in front of another one, so that a text is built from its end.
-/

mutual

/-- The text of a type, with `rest` behind it. -/
def TypeSignature.textBefore : TypeSignature → List Char → List Char
  | .base letter, rest => letter :: rest
  | .array element, rest => '[' :: element.textBefore rest
  | .typeVariable name, rest => 'T' :: (name.toList ++ ';' :: rest)
  | .classType name suffixes, rest =>
    'L' :: (name.toList ++ TypeSuffix.listTextBefore suffixes (';' :: rest))

/-- The text of what follows the name of a class, with `rest` behind it. -/
def TypeSuffix.listTextBefore : List TypeSuffix → List Char → List Char
  | [], rest => rest
  | .arguments list :: suffixes, rest =>
    '<' :: TypeArgument.listTextBefore list ('>' :: TypeSuffix.listTextBefore suffixes rest)
  | .inner name :: suffixes, rest =>
    '.' :: (name.toList ++ TypeSuffix.listTextBefore suffixes rest)

/-- The text of type arguments, with `rest` behind it. -/
def TypeArgument.listTextBefore : List TypeArgument → List Char → List Char
  | [], rest => rest
  | .wildcard :: list, rest => '*' :: TypeArgument.listTextBefore list rest
  | .subtypeOf bound :: list, rest => '+' :: bound.textBefore (TypeArgument.listTextBefore list rest)
  | .supertypeOf bound :: list, rest =>
    '-' :: bound.textBefore (TypeArgument.listTextBefore list rest)
  | .exactly type :: list, rest => type.textBefore (TypeArgument.listTextBefore list rest)

end

/-- The text of types one after another, with `rest` behind it. -/
def TypeSignature.listTextBefore (list : List TypeSignature) (rest : List Char) : List Char :=
  list.foldr TypeSignature.textBefore rest

/-- The text of a bound, behind its colon, with `rest` behind it. -/
def FormalParameter.boundTextBefore (bound : Option TypeSignature) (rest : List Char) : List Char :=
  match bound with
  | some type => ':' :: type.textBefore rest
  | none => ':' :: rest

/-- The text of a formal type parameter, with `rest` behind it. -/
def FormalParameter.textBefore (p : FormalParameter) (rest : List Char) : List Char :=
  p.name.toList ++ p.bounds.foldr FormalParameter.boundTextBefore rest

/-- The text of what follows the formal type parameters, with `rest` behind it. -/
def SignatureBody.textBefore (b : SignatureBody) (rest : List Char) : List Char :=
  match b with
  | .method parameters result thrown =>
    '(' :: TypeSignature.listTextBefore parameters (')' :: result.textBefore
      (thrown.foldr (fun t rest => '^' :: t.textBefore rest) rest))
  | .types list => TypeSignature.listTextBefore list rest

/-- The text of a signature. -/
def Signature.toText (s : Signature) : List Char :=
  match s.formals with
  | some list => '<' :: list.foldr FormalParameter.textBefore ('>' :: s.body.textBefore [])
  | none => s.body.textBefore []

/-! ### A text can be written apart from what stands behind it -/

mutual

theorem TypeSignature.textBefore_append (t : TypeSignature) (a b : List Char) :
    t.textBefore (a ++ b) = t.textBefore a ++ b := by
  match t with
  | .base letter => simp [TypeSignature.textBefore]
  | .array element => simp [TypeSignature.textBefore, element.textBefore_append a b]
  | .typeVariable name => simp [TypeSignature.textBefore]
  | .classType name suffixes =>
    simp [TypeSignature.textBefore, ← TypeSuffix.listTextBefore_append suffixes (';' :: a) b]

theorem TypeSuffix.listTextBefore_append (list : List TypeSuffix) (a b : List Char) :
    TypeSuffix.listTextBefore list (a ++ b) = TypeSuffix.listTextBefore list a ++ b := by
  match list with
  | [] => simp [TypeSuffix.listTextBefore]
  | .arguments inside :: rest =>
    simp only [TypeSuffix.listTextBefore, TypeSuffix.listTextBefore_append rest a b,
      ← List.cons_append, TypeArgument.listTextBefore_append inside]
  | .inner name :: rest =>
    simp [TypeSuffix.listTextBefore, TypeSuffix.listTextBefore_append rest a b]

theorem TypeArgument.listTextBefore_append (list : List TypeArgument) (a b : List Char) :
    TypeArgument.listTextBefore list (a ++ b) = TypeArgument.listTextBefore list a ++ b := by
  match list with
  | [] => simp [TypeArgument.listTextBefore]
  | .wildcard :: rest =>
    simp [TypeArgument.listTextBefore, TypeArgument.listTextBefore_append rest a b]
  | .subtypeOf bound :: rest =>
    simp [TypeArgument.listTextBefore, TypeArgument.listTextBefore_append rest a b,
      bound.textBefore_append]
  | .supertypeOf bound :: rest =>
    simp [TypeArgument.listTextBefore, TypeArgument.listTextBefore_append rest a b,
      bound.textBefore_append]
  | .exactly type :: rest =>
    simp [TypeArgument.listTextBefore, TypeArgument.listTextBefore_append rest a b,
      type.textBefore_append]

end

/-! ## Renaming -/

/-- The full name of the inner class `name` of `outer`. -/
def innerName (outer name : String) : String :=
  outer ++ "$" ++ name

/-- What stands behind the last dollar sign of a name, or all of it. -/
def afterLastDollar (name : List Char) : List Char :=
  (name.reverse.takeWhile (· != '$')).reverse

/-- How an inner class that is now called `target` is written inside a class that is now called
`outer`: without the name of that class where it starts with it, and otherwise by what stands behind
its last dollar sign. -/
def simpleName (outer target : String) : String :=
  let front := outer.toList ++ ['$']
  if front.isPrefixOf target.toList then String.ofList (target.toList.drop front.length)
  else String.ofList (afterLastDollar target.toList)

mutual

/-- The type with every class renamed. -/
def TypeSignature.rename (m : NameMapper) : TypeSignature → TypeSignature
  | .base letter => .base letter
  | .array element => .array (element.rename m)
  | .typeVariable name => .typeVariable name
  | .classType name suffixes =>
    .classType (m.rename name) (TypeSuffix.renameList m name (m.rename name) suffixes)

/-- What follows the class `outer`, now called `target`, with every class renamed. -/
def TypeSuffix.renameList (m : NameMapper) (outer target : String) : List TypeSuffix → List TypeSuffix
  | [] => []
  | .arguments list :: rest =>
    .arguments (TypeArgument.renameList m list) :: TypeSuffix.renameList m outer target rest
  | .inner name :: rest =>
    let full := innerName outer name
    match m full with
    | some replaced =>
      .inner (simpleName target replaced) :: TypeSuffix.renameList m full replaced rest
    | none => .inner name :: TypeSuffix.renameList m full (innerName target name) rest

/-- The type arguments with every class renamed. -/
def TypeArgument.renameList (m : NameMapper) : List TypeArgument → List TypeArgument
  | [] => []
  | .wildcard :: rest => .wildcard :: TypeArgument.renameList m rest
  | .subtypeOf bound :: rest => .subtypeOf (bound.rename m) :: TypeArgument.renameList m rest
  | .supertypeOf bound :: rest => .supertypeOf (bound.rename m) :: TypeArgument.renameList m rest
  | .exactly type :: rest => .exactly (type.rename m) :: TypeArgument.renameList m rest

end

/-- The formal type parameter with every class in its bounds renamed. -/
def FormalParameter.rename (m : NameMapper) (p : FormalParameter) : FormalParameter :=
  { p with bounds := p.bounds.map (Option.map (TypeSignature.rename m)) }

/-- The body with every class renamed. -/
def SignatureBody.rename (m : NameMapper) : SignatureBody → SignatureBody
  | .method parameters result thrown =>
    .method (parameters.map (TypeSignature.rename m)) (result.rename m)
      (thrown.map (TypeSignature.rename m))
  | .types list => .types (list.map (TypeSignature.rename m))

/-- The signature with every class renamed. -/
def Signature.rename (m : NameMapper) (s : Signature) : Signature :=
  ⟨s.formals.map (List.map (FormalParameter.rename m)), s.body.rename m⟩

/-! ## Labels

The labels of a signature are the names it writes for classes: outer names in full and simple names
of inner classes. Renaming changes a signature exactly when it changes a label.
-/

mutual

/-- The labels of a type, from left to right. -/
def TypeSignature.labels : TypeSignature → List String
  | .base _ => []
  | .array element => element.labels
  | .typeVariable _ => []
  | .classType name suffixes => name :: TypeSuffix.listLabels suffixes

/-- The labels of what follows the name of a class. -/
def TypeSuffix.listLabels : List TypeSuffix → List String
  | [] => []
  | .arguments list :: rest => TypeArgument.listLabels list ++ TypeSuffix.listLabels rest
  | .inner name :: rest => name :: TypeSuffix.listLabels rest

/-- The labels of type arguments. -/
def TypeArgument.listLabels : List TypeArgument → List String
  | [] => []
  | .wildcard :: rest => TypeArgument.listLabels rest
  | .subtypeOf bound :: rest => bound.labels ++ TypeArgument.listLabels rest
  | .supertypeOf bound :: rest => bound.labels ++ TypeArgument.listLabels rest
  | .exactly type :: rest => type.labels ++ TypeArgument.listLabels rest

end

/-- The types of a signature, from left to right. -/
def Signature.types (s : Signature) : List TypeSignature :=
  ((s.formals.getD []).flatMap fun p => p.bounds.filterMap id) ++
    match s.body with
    | .method parameters result thrown => parameters ++ result :: thrown
    | .types list => list

/-- The labels of a signature, from left to right. -/
def Signature.labels (s : Signature) : List String :=
  s.types.flatMap TypeSignature.labels

/-! ## Class names -/

mutual

/-- The full names of the classes of a type, from left to right. -/
def TypeSignature.names : TypeSignature → List String
  | .base _ => []
  | .array element => element.names
  | .typeVariable _ => []
  | .classType name suffixes => name :: TypeSuffix.listNames name suffixes

/-- The full names of the classes in what follows the class `outer`. -/
def TypeSuffix.listNames (outer : String) : List TypeSuffix → List String
  | [] => []
  | .arguments list :: rest => TypeArgument.listNames list ++ TypeSuffix.listNames outer rest
  | .inner name :: rest => innerName outer name :: TypeSuffix.listNames (innerName outer name) rest

/-- The full names of the classes in type arguments. -/
def TypeArgument.listNames : List TypeArgument → List String
  | [] => []
  | .wildcard :: rest => TypeArgument.listNames rest
  | .subtypeOf bound :: rest => bound.names ++ TypeArgument.listNames rest
  | .supertypeOf bound :: rest => bound.names ++ TypeArgument.listNames rest
  | .exactly type :: rest => type.names ++ TypeArgument.listNames rest

end

/-- The full names of the classes of a signature, from left to right. -/
def Signature.names (s : Signature) : List String :=
  s.types.flatMap TypeSignature.names

end JvmRelocation
