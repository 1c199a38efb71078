import JvmRelocation.Name.Signature

/-!
# Reading generic signatures

A recursive-descent reader for the grammar

    signature := formals? ( '(' type* ')' type ('^' type)* | type+ )
    formals   := '<' ( identifier (':' bound)+ )* '>'
    type      := one of B C D F I J S Z V | '[' type | 'T' variable ';'
               | 'L' name ( arguments | '.' name )* ';'
    arguments := '<' ( '*' | ('+' | '-') type | type )* '>'

where a bound is a type if the next character is `L`, `T` or `[`, and empty otherwise. The reader
keeps the full class names it has met. When a text is no signature it stops where no production
goes on, and both the place and the names met before it can be told.
-/

namespace JvmRelocation

/-- A place inside a signature's text, with the class names met on the way there. -/
structure SignatureCursor where
  /-- The characters ahead. -/
  rest : List Char
  /-- The full class names met so far, the latest first. -/
  met : List String

/-- A computation that reads a signature's text. A failure says no more than where it happened,
which the cursor tells. -/
abbrev SignatureReader := EStateM Unit SignatureCursor

namespace SignatureReader

/-- No production goes on here. -/
def refuse {α : Type} : SignatureReader α := fun c => .error () c

/-- The next character, which stays ahead. -/
def peek : SignatureReader (Option Char) := fun c => .ok c.rest.head? c

/-- Goes past the next character. -/
def advance : SignatureReader Unit := fun c => .ok () { c with rest := c.rest.tail }

/-- Notes a class name as met. -/
def meet (name : String) : SignatureReader Unit := fun c => .ok () { c with met := name :: c.met }

/-- The text up to the first character that `stop` accepts, which stays ahead. -/
def upTo (stop : Char → Bool) : SignatureReader String := fun c =>
  match c.rest.span fun x => !stop x with
  | (_, []) => .error () c
  | (token, rest) => .ok (String.ofList token) { c with rest := rest }

/-- The letters of the primitive types, with `V`. -/
def isBaseLetter (c : Char) : Bool :=
  ['B', 'C', 'D', 'F', 'I', 'J', 'S', 'Z', 'V'].contains c

/-- The characters that end a class name. -/
def endsName (c : Char) : Bool :=
  c = '<' || c = '.' || c = ';'

mutual

/-- A type. The fuel bounds the recursion: between two characters at most two calls are made, so it
is never used up when it exceeds twice the text's length. -/
def type : Nat → SignatureReader TypeSignature
  | 0 => refuse
  | fuel + 1 => do
    match ← peek with
    | some '[' =>
      advance
      return .array (← type fuel)
    | some 'T' =>
      advance
      let name ← upTo (· = ';')
      advance
      return .typeVariable name
    | some 'L' =>
      advance
      let name ← upTo endsName
      meet name
      return .classType name (← suffixes fuel name)
    | some c =>
      if isBaseLetter c then
        advance
        return .base c
      else refuse
    | none => refuse

/-- What follows the class whose full name is `outer`, with the closing semicolon. -/
def suffixes : Nat → String → SignatureReader (List TypeSuffix)
  | 0, _ => refuse
  | fuel + 1, outer => do
    match ← peek with
    | some '<' =>
      advance
      let list ← arguments fuel
      return .arguments list :: (← suffixes fuel outer)
    | some '.' =>
      advance
      let name ← upTo endsName
      meet (innerName outer name)
      return .inner name :: (← suffixes fuel (innerName outer name))
    | some ';' =>
      advance
      return []
    | _ => refuse

/-- Type arguments, with the closing bracket. -/
def arguments : Nat → SignatureReader (List TypeArgument)
  | 0 => refuse
  | fuel + 1 => do
    match ← peek with
    | some '>' =>
      advance
      return []
    | some '*' =>
      advance
      return .wildcard :: (← arguments fuel)
    | some '+' =>
      advance
      let bound ← type fuel
      return .subtypeOf bound :: (← arguments fuel)
    | some '-' =>
      advance
      let bound ← type fuel
      return .supertypeOf bound :: (← arguments fuel)
    | some _ =>
      let exact ← type fuel
      return .exactly exact :: (← arguments fuel)
    | none => refuse

end

/-- Whether a bound that starts with this character is not empty. -/
def startsBound (c : Option Char) : Bool :=
  c = some 'L' || c = some 'T' || c = some '['

/-- The bounds of a formal type parameter. -/
def bounds : Nat → SignatureReader (List (Option TypeSignature))
  | 0 => refuse
  | fuel + 1 => do
    if (← peek) = some ':' then
      advance
      if startsBound (← peek) then
        let bound ← type fuel
        return some bound :: (← bounds fuel)
      else return none :: (← bounds fuel)
    else return []

/-- Formal type parameters, with the closing bracket. -/
def formals : Nat → SignatureReader (List FormalParameter)
  | 0 => refuse
  | fuel + 1 => do
    match ← peek with
    | some '>' =>
      advance
      return []
    | some ':' => refuse
    | _ =>
      let name ← upTo (· = ':')
      let list ← bounds fuel
      return ⟨name, list⟩ :: (← formals fuel)

/-- The parameters of a method, with the closing parenthesis. -/
def parameters : Nat → SignatureReader (List TypeSignature)
  | 0 => refuse
  | fuel + 1 => do
    match ← peek with
    | some ')' =>
      advance
      return []
    | some _ =>
      let parameter ← type fuel
      return parameter :: (← parameters fuel)
    | none => refuse

/-- The types a method throws. -/
def thrown : Nat → SignatureReader (List TypeSignature)
  | 0 => refuse
  | fuel + 1 => do
    if (← peek) = some '^' then
      advance
      let exception ← type fuel
      return exception :: (← thrown fuel)
    else return []

/-- Types up to the end of the text. -/
def typesToEnd : Nat → SignatureReader (List TypeSignature)
  | 0 => refuse
  | fuel + 1 => do
    match ← peek with
    | none => return []
    | some _ =>
      let first ← type fuel
      return first :: (← typesToEnd fuel)

/-- What follows the formal type parameters, up to the end of the text. -/
def body (fuel : Nat) : SignatureReader SignatureBody := do
  match ← peek with
  | none => refuse
  | some '(' =>
    advance
    let list ← parameters fuel
    let result ← type fuel
    let exceptions ← thrown fuel
    match ← peek with
    | none => return .method list result exceptions
    | some _ => refuse
  | some _ => return .types (← typesToEnd fuel)

/-- A signature, up to the end of the text. -/
def signature (fuel : Nat) : SignatureReader Signature := do
  if (← peek) = some '<' then
    advance
    let list ← formals fuel
    return ⟨some list, ← body fuel⟩
  else return ⟨none, ← body fuel⟩

end SignatureReader

namespace Signature

/-- How reading a text as a signature ends, and at which cursor. -/
def read (text : List Char) : EStateM.Result Unit SignatureCursor Signature :=
  SignatureReader.signature (2 * text.length + 2) ⟨text, []⟩

/-- The signature written as the given text. -/
def parse (text : String) : Option Signature :=
  match read text.toList with
  | .ok s _ => some s
  | .error _ _ => none

/-- How many bytes a text takes in UTF-8. -/
def utf8Length (text : List Char) : Nat :=
  text.foldl (fun n c => n + c.utf8Size) 0

/-- The text of a signature after renaming, where that differs. A text that is no signature gives
the byte position at which reading it stops. -/
def remap (m : NameMapper) (text : String) : Except Nat (Option String) :=
  match read text.toList with
  | .ok s _ =>
    let renamed := s.rename m
    .ok (if renamed.labels = s.labels then none else some (String.ofList renamed.toText))
  | .error _ c => .error (utf8Length text.toList - utf8Length c.rest)

/-- The class names that a text mentions when it is read as a signature, up to where reading
stops. -/
def namesIn (text : String) : List String :=
  match read text.toList with
  | .ok s _ => s.names
  | .error _ c => c.met.reverse

end Signature

end JvmRelocation
