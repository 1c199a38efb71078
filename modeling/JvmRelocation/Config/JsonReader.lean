import JvmRelocation.Bytes.BigEndian
import JvmRelocation.Text.Decimal
import JvmRelocation.Text.Quoted

/-!
# Reading JSON text

A reader over the bytes of a text that tells where and why the text is refused. It has the parts
that reading a flat list or object of texts needs: blanks, strings, and values of another kind,
which are read only to say what they are.

A position is a number of bytes. Some faults are told at the place reached, others one byte on, so
that the column names the byte looked at.
-/

namespace JvmRelocation

/-- Why a JSON text is refused. -/
inductive JsonProblem where
  | endInValue
  | endInString
  | endInList
  | endInObject
  | expectedValue
  | expectedWord
  | expectedColon
  | expectedListSeparator
  | expectedObjectSeparator
  | keyNotText
  | trailingComma
  | trailingCharacters
  | controlCharacter
  | invalidEscape
  | loneSurrogate
  | surrogateEnds
  | invalidNumber
  | numberOutOfRange
  /-- A value of another kind than the expected one. -/
  | unexpected (found expected : String)
  | unknownField (name : String) (known : List String)
  | duplicateField (name : String)
deriving DecidableEq, Repr

namespace JsonProblem

/-- A text between back quotes. -/
def ticked (s : String) : String :=
  String.ofList (Char.ofNat 96 :: (s.toList ++ [Char.ofNat 96]))

/-- Texts between back quotes, with commas in between. -/
def tickedList : List String → String
  | [] => ""
  | [s] => ticked s
  | s :: rest => ticked s ++ ", " ++ tickedList rest

/-- The text shown for a problem. -/
def message : JsonProblem → String
  | endInValue => "EOF while parsing a value"
  | endInString => "EOF while parsing a string"
  | endInList => "EOF while parsing a list"
  | endInObject => "EOF while parsing an object"
  | expectedValue => "expected value"
  | expectedWord => "expected ident"
  | expectedColon => "expected " ++ ticked ":"
  | expectedListSeparator => "expected " ++ ticked "," ++ " or " ++ ticked "]"
  | expectedObjectSeparator => "expected " ++ ticked "," ++ " or " ++ ticked "\x7d"
  | keyNotText => "key must be a string"
  | trailingComma => "trailing comma"
  | trailingCharacters => "trailing characters"
  | controlCharacter => "control character (\\u0000-\\u001F) found while parsing a string"
  | invalidEscape => "invalid escape"
  | loneSurrogate => "lone leading surrogate in hex escape"
  | surrogateEnds => "unexpected end of hex escape"
  | invalidNumber => "invalid number"
  | numberOutOfRange => "number out of range"
  | unexpected found expected => "invalid type: " ++ found ++ ", expected " ++ expected
  | unknownField name known =>
    "unknown field " ++ ticked name ++ ", expected one of " ++ tickedList known
  | duplicateField name => "duplicate field " ++ ticked name

end JsonProblem

/-- A problem and where it was met; the place is missing as long as it is not settled. -/
structure JsonFault where
  problem : JsonProblem
  position : Option Nat
deriving DecidableEq, Repr

/-- A place in a JSON text. -/
structure JsonCursor where
  /-- The number of bytes behind. -/
  index : Nat
  /-- The bytes ahead. -/
  rest : Bytes

/-- A computation that reads JSON text. -/
abbrev JsonReader := EStateM JsonFault JsonCursor

namespace JsonReader

/-- Refuses the text at the place reached. -/
def refuse {α : Type} (problem : JsonProblem) : JsonReader α := fun c =>
  .error ⟨problem, some c.index⟩ c

/-- Refuses the text for the byte ahead. -/
def refuseNext {α : Type} (problem : JsonProblem) : JsonReader α := fun c =>
  .error ⟨problem, some (if c.rest.isEmpty then c.index else c.index + 1)⟩ c

/-- The byte ahead as a character, if there is one. -/
def peek : JsonReader (Option Char) := fun c =>
  .ok (c.rest.head?.map fun b => Char.ofNat b.toNat) c

/-- Goes past the byte ahead. -/
def advance : JsonReader Unit := fun c => .ok () ⟨c.index + 1, c.rest.tail⟩

/-- Goes to the end of the text. -/
def toEnd : JsonReader Unit := fun c => .ok () ⟨c.index + c.rest.length, []⟩

/-- Whether a character is blank. -/
def isBlank (c : Char) : Bool :=
  c = ' ' || c = '\n' || c = '\t' || c = '\r'

/-- Goes past blanks; gives the byte ahead then. -/
def skipBlanks : JsonReader (Option Char) := do
  modify fun c =>
    let (blanks, rest) := c.rest.span fun b => isBlank (Char.ofNat b.toNat)
    ⟨c.index + blanks.length, rest⟩
  peek

/-- The rest of a word that stands for a value. -/
def word : List Char → JsonReader Unit
  | [] => return
  | expected :: rest => do
    match ← peek with
    | none => refuse .endInValue
    | some c =>
      advance
      if c = expected then word rest else refuse .expectedWord

/-! ## Strings -/

/-- The value of a digit in base sixteen. -/
def hexValue? (c : Char) : Option Nat :=
  if '0' ≤ c ∧ c ≤ '9' then some (c.toNat - '0'.toNat)
  else if 'a' ≤ c ∧ c ≤ 'f' then some (c.toNat - 'a'.toNat + 10)
  else if 'A' ≤ c ∧ c ≤ 'F' then some (c.toNat - 'A'.toNat + 10)
  else none

/-- The four digits of an escape. -/
def fourDigits : JsonReader Nat := do
  match (← get).rest with
  | a :: b :: c :: d :: _ =>
    advance
    advance
    advance
    advance
    match [a, b, c, d].mapM fun x => hexValue? (Char.ofNat x.toNat) with
    | some digits => return digits.foldl (fun n x => 16 * n + x) 0
    | none => refuse .invalidEscape
  | _ =>
    toEnd
    refuse .endInString

/-- A character that has to follow a leading surrogate. -/
def afterSurrogate (expected : Char) : JsonReader Unit := do
  match ← peek with
  | none => refuse .endInString
  | some c =>
    advance
    if c ≠ expected then refuse .surrogateEnds

/-- The character of an escape by number, a pair of surrogates taken together. -/
def escapedCodePoint : JsonReader Char := do
  let n ← fourDigits
  if 0xDC00 ≤ n ∧ n ≤ 0xDFFF then refuse .loneSurrogate
  else if n < 0xD800 ∨ 0xDBFF < n then return Char.ofNat n
  else
    afterSurrogate '\\'
    afterSurrogate 'u'
    let m ← fourDigits
    if m < 0xDC00 ∨ 0xDFFF < m then refuse .loneSurrogate
    else return Char.ofNat (0x10000 + (n - 0xD800) * 0x400 + (m - 0xDC00))

/-- The character of an escape, behind its backslash. -/
def escaped : JsonReader Char := do
  match ← peek with
  | none => refuse .endInString
  | some c =>
    advance
    match c with
    | '"' => return '"'
    | '\\' => return '\\'
    | '/' => return '/'
    | 'b' => return Char.ofNat 0x08
    | 'f' => return Char.ofNat 0x0C
    | 'n' => return '\n'
    | 'r' => return '\r'
    | 't' => return '\t'
    | 'u' => escapedCodePoint
    | _ => refuse .invalidEscape

/-- The bytes of a string behind those already read, which are held in reverse, up to the closing
quote. The fuel exceeds the number of bytes ahead. -/
def stringBytes : Nat → Bytes → JsonReader Bytes
  | 0, _ => refuse .endInString
  | fuel + 1, done => do
    match (← get).rest with
    | [] => refuse .endInString
    | b :: _ =>
      advance
      if b.toNat = '"'.toNat then return done.reverse
      else if b.toNat = '\\'.toNat then
        let c ← escaped
        stringBytes fuel ((String.utf8EncodeChar c).reverse ++ done)
      else if b.toNat < 0x20 then refuse .controlCharacter
      else stringBytes fuel (b :: done)

/-- A string, behind its opening quote. -/
def string : JsonReader String := do
  let bytes ← stringBytes ((← get).rest.length + 1) []
  match String.fromUTF8? bytes.toByteArray with
  | some s => return s
  | none => refuse .endInString

/-! ## Numbers

An integer that fits 64 bits is kept as it is. Any other number is a floating-point number made of
its leading digits, as far as they fit 64 bits, and a power of ten.
-/

/-- A number. -/
inductive Number where
  | natural (n : Nat)
  /-- A negative integer, by its absolute value. -/
  | negative (n : Nat)
  | floating (x : Float)

/-- The greatest natural of 64 bits. -/
def maxWord : Nat := 18446744073709551615

/-- Scales a floating-point number by a power of ten, in steps that each fit a factor. -/
def scale : Nat → Float → Int → JsonReader Float
  | 0, x, _ => return x
  | fuel + 1, x, exponent =>
    if exponent.natAbs ≤ 308 then
      let factor := Float.ofScientific 1 false exponent.natAbs
      if 0 ≤ exponent then
        let y := x * factor
        if y.isInf then refuse .numberOutOfRange else return y
      else return x / factor
    else if x == 0.0 then return x
    else if 0 ≤ exponent then refuse .numberOutOfRange
    else scale fuel (x / Float.ofScientific 1 false 308) (exponent + 308)

/-- The floating-point number with the given leading digits and power of ten. -/
def assemble (positive : Bool) (digits : Nat) (exponent : Int) : JsonReader Number := do
  let x ← scale (exponent.natAbs + 1) (UInt64.ofNat digits).toFloat exponent
  return .floating (if positive then x else -x)

/-- The digit ahead, which is gone past, if there is one. -/
def digit? : JsonReader (Option Nat) := do
  match ← peek with
  | some c =>
    if c.isDigit then
      advance
      return some (c.toNat - '0'.toNat)
    else return none
  | none => return none

/-- Goes past digits; gives their number. The fuel exceeds the number of bytes ahead. -/
def skipDigits : Nat → Nat → JsonReader Nat
  | 0, n => return n
  | fuel + 1, n => do
    match ← digit? with
    | some _ => skipDigits fuel (n + 1)
    | none => return n

/-- Whether the byte ahead starts an exponent. -/
def startsExponent (c : Option Char) : Bool :=
  c = some 'e' || c = some 'E'

/-- The digits of an exponent behind those read; none if it exceeds 31 bits. -/
def exponentDigits : Nat → Nat → JsonReader (Option Nat)
  | 0, n => return some n
  | fuel + 1, n => do
    match ← digit? with
    | none => return some n
    | some d => if 2147483647 < 10 * n + d then return none else exponentDigits fuel (10 * n + d)

/-- A number whose exponent is ahead. -/
def exponentPart (positive : Bool) (digits : Nat) (start : Int) : JsonReader Number := do
  advance
  let sign ← peek
  if sign = some '+' ∨ sign = some '-' then advance
  match ← peek with
  | none => refuse .endInValue
  | some c =>
    advance
    if !c.isDigit then refuse .invalidNumber
    let fuel := (← get).rest.length + 1
    match ← exponentDigits fuel (c.toNat - '0'.toNat) with
    | some n =>
      let exponent := if sign = some '-' then start - n else start + n
      assemble positive digits (max (-2147483648) (min 2147483647 exponent))
    | none =>
      if digits ≠ 0 ∧ sign ≠ some '-' then refuse .numberOutOfRange
      discard (skipDigits fuel 0)
      return .floating (if positive then 0.0 else -0.0)

/-- The end of a number: an exponent, or nothing. -/
def numberEnd (positive : Bool) (digits : Nat) (exponent : Int) : JsonReader Number := do
  if startsExponent (← peek) then exponentPart positive digits exponent
  else assemble positive digits exponent

/-- The digits behind a decimal point, of which `places` have been read. -/
def fraction (positive : Bool) (start : Int) : Nat → Nat → Nat → JsonReader Number
  | 0, digits, places => numberEnd positive digits (start - places)
  | fuel + 1, digits, places => do
    let c ← peek
    match c.filter Char.isDigit with
    | some c =>
      let next := 10 * digits + (c.toNat - '0'.toNat)
      if maxWord < next then
        discard (skipDigits (fuel + 1) 0)
        numberEnd positive digits (start - places)
      else
        advance
        fraction positive start fuel next (places + 1)
    | none =>
      if places = 0 then refuseNext (if c.isNone then .endInValue else .invalidNumber)
      numberEnd positive digits (start - places)

/-- What follows the integer digits of a number that is no integer of 64 bits. -/
def afterDigits (positive : Bool) (digits : Nat) (exponent : Int) : JsonReader Number := do
  if (← peek) = some '.' then
    advance
    fraction positive exponent ((← get).rest.length + 1) digits 0
  else numberEnd positive digits exponent

/-- The number with the given integer digits, which what follows may go on with. -/
def numberFrom (positive : Bool) (digits : Nat) : JsonReader Number := do
  let c ← peek
  if c = some '.' ∨ startsExponent c then afterDigits positive digits 0
  else if positive then return .natural digits
  else if 0 < digits ∧ digits ≤ 9223372036854775808 then return .negative digits
  else return .floating (-(UInt64.ofNat digits).toFloat)

/-- The integer digits of a number behind those read. -/
def integerDigits (positive : Bool) : Nat → Nat → JsonReader Number
  | 0, digits => numberFrom positive digits
  | fuel + 1, digits => do
    match (← peek).filter Char.isDigit with
    | some c =>
      let next := 10 * digits + (c.toNat - '0'.toNat)
      if maxWord < next then
        let skipped ← skipDigits (fuel + 1) 0
        afterDigits positive digits skipped
      else
        advance
        integerDigits positive fuel next
    | none => numberFrom positive digits

/-- A number, behind its sign. -/
def number (positive : Bool) : JsonReader Number := do
  match ← peek with
  | none => refuse .endInValue
  | some c =>
    advance
    if c = '0' then
      match (← peek).filter Char.isDigit with
      | some _ => refuseNext .invalidNumber
      | none => numberFrom positive 0
    else if c.isDigit then
      integerDigits positive ((← get).rest.length + 1) (c.toNat - '0'.toNat)
    else refuse .invalidNumber

/-- What a number is called in a message. -/
def Number.describe : Number → String
  | natural n => "integer " ++ JsonProblem.ticked (toString n)
  | negative n => "integer " ++ JsonProblem.ticked ("-" ++ toString n)
  | floating x => "floating point " ++ JsonProblem.ticked (Text.ofFloat x)

/-! ## Values of the wrong kind -/

/-- Refuses the value ahead, which is of another kind than the expected one. Lists and objects are
refused at their opening bracket, other values behind their end. -/
def refuseKind {α : Type} (expected : String) : JsonReader α := do
  let found ←
    match ← peek with
    | some 'n' =>
      advance
      word ['u', 'l', 'l']
      pure "null"
    | some 't' =>
      advance
      word ['r', 'u', 'e']
      pure ("boolean " ++ JsonProblem.ticked "true")
    | some 'f' =>
      advance
      word ['a', 'l', 's', 'e']
      pure ("boolean " ++ JsonProblem.ticked "false")
    | some '-' =>
      advance
      Number.describe <$> number false
    | some '"' =>
      advance
      (fun s => "string " ++ Text.quote s) <$> string
    | some '[' => pure "sequence"
    | some '\x7b' => pure "map"
    | some c => if c.isDigit then Number.describe <$> number true else refuseNext .expectedValue
    | none => refuseNext .expectedValue
  refuse (.unexpected found expected)

/-- A text, or nothing where the value is null. -/
def optionalText (expected : String) : JsonReader (Option String) := do
  match ← skipBlanks with
  | some 'n' =>
    advance
    word ['u', 'l', 'l']
    return none
  | some '"' =>
    advance
    some <$> string
  | some _ => refuseKind expected
  | none => refuseNext .endInValue

/-! ## Positions -/

/-- The line and the column of a position: lines are counted from one, and a column is the number of
bytes behind the last line break. -/
def lineAndColumn (text : Bytes) (position : Nat) : Nat × Nat :=
  (text.take position).foldl
    (fun p b => if b.toNat = '\n'.toNat then (p.1 + 1, 0) else (p.1, p.2 + 1)) (1, 0)

/-- The text shown for a fault. -/
def describe (text : Bytes) (fault : JsonFault) : String :=
  let (line, column) := lineAndColumn text (fault.position.getD 0)
  fault.problem.message ++ s!" at line {line} column {column}"

end JsonReader

end JvmRelocation
