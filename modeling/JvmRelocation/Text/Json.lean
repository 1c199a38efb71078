import JvmRelocation.Text.Quoted

/-!
# JSON as it is written

Reports and listings are written as JSON, compactly or indented by two spaces. Members keep the
order they are given in. A string escapes the double quote, the backslash and the characters below
U+0020; every other character stands for itself.
-/

namespace JvmRelocation.Text

/-- A JSON document whose numbers are naturals. -/
inductive Json where
  | null
  | bool (b : Bool)
  | number (n : Nat)
  | string (s : String)
  | array (items : List Json)
  | object (members : List (String × Json))

namespace Json

/-- How a character is written inside a JSON string. -/
def escape (c : Char) : String :=
  if c = '"' then "\\\""
  else if c = '\\' then "\\\\"
  else if c = '\n' then "\\n"
  else if c = '\r' then "\\r"
  else if c = '\t' then "\\t"
  else if c.toNat = 0x08 then "\\b"
  else if c.toNat = 0x0C then "\\f"
  else if c.toNat < 0x20 then
    "\\u" ++ String.ofList (List.replicate (4 - (lowerHex c.toNat).length) '0') ++ lowerHex c.toNat
  else String.singleton c

/-- A JSON string. -/
def quoted (s : String) : String :=
  "\"" ++ String.join (s.toList.map escape) ++ "\""

/-- Strings given one after another, with a separator in between. -/
def joined (separator : String) : List String → String
  | [] => ""
  | first :: rest => rest.foldl (fun text s => text ++ separator ++ s) first

mutual

/-- A document on one line, without blanks. -/
def compact : Json → String
  | .null => "null"
  | .bool b => if b then "true" else "false"
  | .number n => toString n
  | .string s => quoted s
  | .array items => "[" ++ joined "," (compactItems items) ++ "]"
  | .object members => "\x7b" ++ joined "," (compactMembers members) ++ "\x7d"

/-- The items of an array, each on its own. -/
def compactItems : List Json → List String
  | [] => []
  | item :: rest => item.compact :: compactItems rest

/-- The members of an object, each on its own. -/
def compactMembers : List (String × Json) → List String
  | [] => []
  | (key, value) :: rest => (quoted key ++ ":" ++ value.compact) :: compactMembers rest

end

/-- A line break followed by the indentation of the given depth. -/
def newline (depth : Nat) : String :=
  "\n" ++ String.ofList (List.replicate (2 * depth) ' ')

mutual

/-- A document over several lines, its first line at the given depth. -/
def indented (depth : Nat) : Json → String
  | .null => "null"
  | .bool b => if b then "true" else "false"
  | .number n => toString n
  | .string s => quoted s
  | .array [] => "[]"
  | .array items =>
    "[" ++ newline (depth + 1) ++
      joined ("," ++ newline (depth + 1)) (indentedItems (depth + 1) items) ++ newline depth ++ "]"
  | .object [] => "\x7b\x7d"
  | .object members =>
    "\x7b" ++ newline (depth + 1) ++
      joined ("," ++ newline (depth + 1)) (indentedMembers (depth + 1) members) ++
      newline depth ++ "\x7d"

/-- The items of an array, each at the given depth. -/
def indentedItems (depth : Nat) : List Json → List String
  | [] => []
  | item :: rest => item.indented depth :: indentedItems depth rest

/-- The members of an object, each at the given depth. -/
def indentedMembers (depth : Nat) : List (String × Json) → List String
  | [] => []
  | (key, value) :: rest =>
    (quoted key ++ ": " ++ value.indented depth) :: indentedMembers depth rest

end

/-- A document over several lines, indented by two spaces a level. -/
def pretty (document : Json) : String :=
  document.indented 0

/-- A text, or null where there is none. -/
def ofText? : Option String → Json
  | some s => .string s
  | none => .null

/-- An array of texts. -/
def ofTexts (texts : List String) : Json :=
  .array (texts.map .string)

end Json

end JvmRelocation.Text
