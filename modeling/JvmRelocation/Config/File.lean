import JvmRelocation.Config.JsonReader
import JvmRelocation.Config.Settings
import JvmRelocation.Host.FileSystem

/-!
# Settings files

A settings file holds a JSON object with a text for each setting, or an array of them in a fixed
order. Missing and null settings are not set; other and repeated keys are refused. Directories are
meant relative to the directory that the file is in.
-/

namespace JvmRelocation

/-- The settings that a file can hold, in the order of an array. -/
inductive SettingKey where
  | inputDirectory
  | outputDirectory
  | tag
  | marker
deriving DecidableEq, Repr

namespace SettingKey

/-- Every setting, in order. -/
def all : List SettingKey := [inputDirectory, outputDirectory, tag, marker]

/-- What a setting is called in a file. -/
def name : SettingKey → String
  | inputDirectory => "input_dir"
  | outputDirectory => "output_dir"
  | tag => "version_tag"
  | marker => "marker_descriptor"

/-- What a setting's value has to be. -/
def expected : SettingKey → String
  | inputDirectory => "path string"
  | outputDirectory => "path string"
  | tag => "a string"
  | marker => "a string"

end SettingKey

namespace Settings

/-- The settings with one of them set. -/
def set (s : Settings) (value : Option String) : SettingKey → Settings
  | .inputDirectory => { s with inputDirectory := value }
  | .outputDirectory => { s with outputDirectory := value }
  | .tag => { s with tag := value }
  | .marker => { s with marker := value }

open JsonReader

/-- Refuses the text for a reason whose place is settled later. -/
def refuseLater {α : Type} (problem : JsonProblem) : JsonReader α := fun c =>
  .error ⟨problem, none⟩ c

/-- Goes past the separator in front of a list's item or an object's member. Gives whether there is
one; a separator with nothing behind it is refused. -/
def hasNext (close : Char) (atEnd separator : JsonProblem) (isFirst : Bool) : JsonReader Bool := do
  match ← skipBlanks with
  | none => refuseNext atEnd
  | some c =>
    if c = close then return false
    else if isFirst then return true
    else if c = ',' then
      advance
      match ← skipBlanks with
      | none => refuseNext .endInValue
      | some c => if c = close then refuseNext .trailingComma else return true
    else refuseNext separator

/-! ## Objects -/

/-- The key of a member, behind its separator. -/
def memberKey : JsonReader String := do
  match ← peek with
  | some '"' =>
    advance
    string
  | _ => refuseNext .keyNotText

/-- The colon behind a key. -/
def colon : JsonReader Unit := do
  match ← skipBlanks with
  | some ':' => advance
  | some _ => refuseNext .expectedColon
  | none => refuseNext .endInObject

/-- The members of an object behind those read, which are `seen`. The fuel exceeds the number of bytes
ahead. -/
def members : Nat → List SettingKey → Settings → JsonReader Settings
  | 0, _, s => return s
  | fuel + 1, seen, s => do
    if !(← hasNext '\x7d' .endInObject .expectedObjectSeparator seen.isEmpty) then return s
    let name ← memberKey
    match SettingKey.all.find? (·.name = name) with
    | none => refuseLater (.unknownField name (SettingKey.all.map (·.name)))
    | some key =>
      if seen.contains key then refuseLater (.duplicateField name)
      colon
      let value ← optionalText key.expected
      members fuel (key :: seen) (s.set value key)

/-- The end of an object. -/
def objectEnd : JsonReader Unit := do
  match ← skipBlanks with
  | some '\x7d' => advance
  | some ',' => refuseNext .trailingComma
  | some _ => refuseNext .trailingCharacters
  | none => refuseNext .endInObject

/-! ## Arrays -/

/-- The items of an array, one for each key as long as there are items. -/
def items (isFirst : Bool) (s : Settings) : List SettingKey → JsonReader Settings
  | [] => return s
  | key :: rest => do
    if !(← hasNext ']' .endInList .expectedListSeparator isFirst) then return s
    let value ← optionalText key.expected
    items false (s.set value key) rest

/-- The end of an array. -/
def arrayEnd : JsonReader Unit := do
  match ← skipBlanks with
  | some ']' => advance
  | some ',' =>
    advance
    match ← skipBlanks with
    | some ']' => refuseNext .trailingComma
    | _ => refuseNext .trailingCharacters
  | some _ => refuseNext .trailingCharacters
  | none => refuseNext .endInList

/-! ## Whole files -/

/-- Reads what stands between brackets and then the closing one. A fault whose place is not settled
is told where the closing bracket was looked for. -/
def bracketed (inside : JsonReader Settings) (close : JsonReader Unit) : JsonReader Settings :=
  fun c =>
    match inside c with
    | .ok s c =>
      match close c with
      | .ok () c => .ok s c
      | .error fault c => .error fault c
    | .error fault c =>
      let c := match close c with
        | .ok () c => c
        | .error _ c => c
      .error { fault with position := fault.position <|> some c.index } c

/-- What a file's content has to be. -/
def expectedContent : String := "struct RelocatorConfig"

/-- The value that a file consists of. -/
def content : JsonReader Settings := do
  match ← skipBlanks with
  | none => refuseNext .endInValue
  | some '\x7b' =>
    advance
    let fuel := (← get).rest.length + 1
    bracketed (members fuel [] .empty) objectEnd
  | some '[' =>
    advance
    bracketed (items true .empty SettingKey.all) arrayEnd
  | some _ => refuseKind expectedContent

/-- A whole file. -/
def wholeText : JsonReader Settings := do
  let s ← content
  match ← skipBlanks with
  | none => return s
  | some _ => refuseNext .trailingCharacters

/-- The settings in a text, or what is wrong with it. -/
def ofText (text : Bytes) : Except String Settings :=
  match wholeText ⟨0, text⟩ with
  | .ok s _ => .ok s
  | .error fault _ => .error (describe text fault)

/-- Whether bytes are a text. -/
def isText (bytes : Bytes) : Bool :=
  (String.fromUTF8? bytes.toByteArray).isSome

/-- The settings with their directories meant relative to another one. -/
def relativeTo (s : Settings) (base : String) : Settings :=
  { s with
    inputDirectory := s.inputDirectory.map (HostPath.join base)
    outputDirectory := s.outputDirectory.map (HostPath.join base) }

/-- The settings in the content of the file at a path. -/
def ofFile (path : String) (content : Except IoError Bytes) : Except Trouble Settings :=
  match content with
  | .error e => .error (.because ("read " ++ path) e.message)
  | .ok bytes =>
    if !isText bytes then
      .error (.because ("read " ++ path) "stream did not contain valid UTF-8")
    else
      match ofText bytes with
      | .error message => .error (.because ("parse " ++ path) message)
      | .ok s => .ok (s.relativeTo ((HostPath.parent? path).getD ""))

/-- The settings in the file at a path. -/
def load {m : Type → Type} [Monad m] (fs : FileSystem m) (path : String) :
    m (Except Trouble Settings) := do
  return ofFile path (← fs.readFile path)

end Settings

end JvmRelocation
