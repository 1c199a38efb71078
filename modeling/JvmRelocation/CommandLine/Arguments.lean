import JvmRelocation.Config.Settings

/-!
# Command line arguments

The arguments name one of two commands. `--json` and `--verbose` may stand in front of the command
or behind it; every other option stands behind it. An option's value is the next argument, or what
follows an equals sign. The letters of options without values may share a dash. No option may be
repeated at one place, and two dashes end the options.
-/

namespace JvmRelocation.CommandLine

/-- What values an option takes. -/
inductive ValueKind where
  /-- None: the option is given or not. -/
  | absent
  | text
  /-- A path, which is not empty. -/
  | path
deriving DecidableEq, Repr

/-- An option by its long name, and maybe by a letter. -/
structure OptionSpec where
  name : String
  letter : Option Char
  value : ValueKind
deriving DecidableEq, Repr

/-- Options and words that have been read. -/
structure Given where
  /-- Options with their values, the latest first. -/
  options : List (String × String)
  /-- Arguments that are no options, the latest first. -/
  words : List String
deriving DecidableEq, Repr

namespace Given

/-- Nothing has been read. -/
def empty : Given := ⟨[], []⟩

/-- Whether an option is given. -/
def has (g : Given) (name : String) : Bool :=
  g.options.any (·.1 = name)

/-- The value of an option. -/
def value? (g : Given) (name : String) : Option String :=
  (g.options.find? (·.1 = name)).map (·.2)

end Given

/-- Why reading arguments ends early. -/
inductive Halt where
  /-- The arguments are not understood. -/
  | misuse
  /-- Information is asked for, and nothing else counts. -/
  | asked (name : String)
deriving DecidableEq, Repr

/-- The option that asks for help. -/
def helpOption : OptionSpec := ⟨"help", some 'h', .absent⟩

/-- The option that asks for the version. -/
def versionOption : OptionSpec := ⟨"version", some 'V', .absent⟩

/-- The options that may stand on either side of the command. -/
def commonOptions : List OptionSpec :=
  [⟨"json", none, .absent⟩, ⟨"verbose", some 'v', .absent⟩, helpOption]

/-- The options in front of the command. -/
def frontOptions : List OptionSpec := versionOption :: commonOptions

/-- The options of the command that relocates. -/
def relocateOptions : List OptionSpec :=
  [⟨"input-dir", none, .path⟩, ⟨"output-dir", none, .path⟩, ⟨"version-tag", none, .text⟩,
    ⟨"tag-from-content", none, .absent⟩, ⟨"marker", none, .text⟩, ⟨"config", none, .path⟩,
    ⟨"report", none, .path⟩] ++ commonOptions

/-- The options of the command that inspects. -/
def inspectOptions : List OptionSpec := ⟨"marker", none, .text⟩ :: commonOptions

/-- Whether an option asks for information. -/
def asksForInformation (name : String) : Bool :=
  name = helpOption.name || name = versionOption.name

/-! ## Arguments one by one -/

/-- What an argument is by its looks. -/
inductive Argument where
  | word
  /-- Two dashes, behind which there are only words. -/
  | endOfOptions
  /-- Letters behind one dash. -/
  | letters (list : List Char)
  /-- A name behind two dashes, and the value behind an equals sign. -/
  | long (name : String) (value : Option String)
deriving DecidableEq, Repr

/-- What an argument is. A dash that stands alone is a word. -/
def Argument.ofText (argument : String) : Argument :=
  match argument.toList with
  | ['-', '-'] => .endOfOptions
  | '-' :: '-' :: text =>
    match text.span (· ≠ '=') with
    | (name, []) => .long (String.ofList name) none
    | (name, _ :: value) => .long (String.ofList name) (some (String.ofList value))
  | '-' :: letter :: more => .letters (letter :: more)
  | _ => .word

/-- Whether an option can have a value. -/
def OptionSpec.takes (spec : OptionSpec) (value : String) : Bool :=
  spec.value = .text || (spec.value = .path && value ≠ "")

namespace Given

/-- Adds an option that takes no value. -/
def addFlag (given : Given) (spec : OptionSpec) : Except Halt Given :=
  if spec.value ≠ .absent || given.has spec.name then .error .misuse
  else if asksForInformation spec.name then .error (.asked spec.name)
  else .ok { given with options := (spec.name, "") :: given.options }

/-- Adds an option with its value. -/
def addValue (given : Given) (spec : OptionSpec) (value : String) : Except Halt Given :=
  if given.has spec.name || !spec.takes value then .error .misuse
  else .ok { given with options := (spec.name, value) :: given.options }

/-- Adds the options for which letters stand, from left to right. No letter takes a value. -/
def addLetters (specs : List OptionSpec) (given : Given) : List Char → Except Halt Given
  | [] => .ok given
  | letter :: rest =>
    match specs.find? (·.letter = some letter) with
    | none => .error .misuse
    | some spec => do addLetters specs (← given.addFlag spec) rest

/-- Adds a word, which is not empty, if there are fewer than `limit` words. -/
def addWord (limit : Nat) (given : Given) (word : String) : Except Halt Given :=
  if word ≠ "" ∧ given.words.length < limit then .ok { given with words := word :: given.words }
  else .error .misuse

/-- Adds words from left to right. -/
def addWords (limit : Nat) (given : Given) : List String → Except Halt Given
  | [] => .ok given
  | word :: rest => do addWords limit (← given.addWord limit word) rest

end Given

/-- Which words are understood among options. -/
inductive WordRule where
  /-- One word in front of any two dashes, at which reading stops. -/
  | first
  /-- As many words as the limit says. -/
  | upTo (limit : Nat)
deriving DecidableEq, Repr

/-- How many words are understood behind two dashes. -/
def WordRule.limit : WordRule → Nat
  | first => 0
  | upTo limit => limit

/-- Reads arguments from left to right. The first one that is not understood ends the reading, and so
does a request for information. What is left are the arguments behind a word where reading stops. -/
def scan (specs : List OptionSpec) (rule : WordRule) (given : Given) :
    List String → Except Halt (Given × List String)
  | [] => .ok (given, [])
  | argument :: rest =>
    match Argument.ofText argument with
    | .word =>
      match rule with
      | .first => do return (← given.addWord 1 argument, rest)
      | .upTo limit => do scan specs rule (← given.addWord limit argument) rest
    | .endOfOptions => do return (← given.addWords rule.limit rest, [])
    | .letters list => do scan specs rule (← given.addLetters specs list) rest
    | .long name inline =>
      match specs.find? (·.name = name) with
      | none => .error .misuse
      | some spec =>
        match spec.value, inline, rest with
        | .absent, none, rest => do scan specs rule (← given.addFlag spec) rest
        | .absent, some _, _ => .error .misuse
        | _, some value, rest => do scan specs rule (← given.addValue spec value) rest
        | _, none, value :: rest =>
          if Argument.ofText value = .word then do
            scan specs rule (← given.addValue spec value) rest
          else .error .misuse
        | _, none, [] => .error .misuse

/-! ## Commands -/

/-- What the arguments ask for. -/
inductive Command where
  | relocate (settings : Settings) (tagFromContent : Bool) (config report : Option String)
  | inspect (classFile marker : String)
deriving DecidableEq, Repr

/-- A command and how to show its outcome. -/
structure Invocation where
  command : Command
  json : Bool
  verbose : Bool
deriving DecidableEq, Repr

/-- What the arguments amount to. -/
inductive Request where
  | misuse
  | help
  | version
  | invocation (i : Invocation)
deriving DecidableEq, Repr

/-- The command that relocates, from its options. -/
def relocateCommand (given : Given) : Option Command :=
  if given.has "tag-from-content" && given.has "version-tag" then none
  else
    let settings : Settings := ⟨given.value? "input-dir", given.value? "output-dir",
      given.value? "version-tag", given.value? "marker"⟩
    some (.relocate settings (given.has "tag-from-content") (given.value? "config")
      (given.value? "report"))

/-- The command that inspects, from its options and its word. -/
def inspectCommand (given : Given) : Option Command :=
  match given.words with
  | [file] => some (.inspect file ((given.value? "marker").getD defaultMarker))
  | _ => none

/-- How the arguments of a command are read. -/
structure CommandSpec where
  name : String
  options : List OptionSpec
  /-- How many words the command takes. -/
  words : Nat
  /-- The command, unless something is missing or in conflict. -/
  make : Given → Option Command

/-- The commands. -/
def commands : List CommandSpec :=
  [⟨"relocate", relocateOptions, 0, relocateCommand⟩, ⟨"inspect", inspectOptions, 1, inspectCommand⟩]

/-- The word that asks for help in place of a command. -/
def helpWord : String := "help"

/-- Whether help can be asked for with the given words. -/
def isHelpTopic : List String → Bool
  | [] => true
  | [topic] => topic = helpWord || commands.any (·.name = topic)
  | _ => false

/-- What arguments amount to when reading them ends early. -/
def Halt.request : Halt → Request
  | misuse => .misuse
  | asked name => if name = versionOption.name then .version else .help

/-- What the arguments behind the name of a command amount to. -/
def parseCommand (front : Given) (c : CommandSpec) (arguments : List String) : Request :=
  match scan c.options (.upTo c.words) .empty arguments with
  | .error halt => halt.request
  | .ok (back, _) =>
    match c.make back with
    | none => .misuse
    | some command =>
      .invocation ⟨command, front.has "json" || back.has "json",
        front.has "verbose" || back.has "verbose"⟩

/-- What the arguments amount to. -/
def parse (arguments : List String) : Request :=
  match scan frontOptions .first .empty arguments with
  | .error halt => halt.request
  | .ok (front, rest) =>
    match front.words with
    | [name] =>
      if name = helpWord then
        if isHelpTopic rest then .help else .misuse
      else
        match commands.find? (·.name = name) with
        | some c => parseCommand front c rest
        | none => .misuse
    | _ => .misuse

end JvmRelocation.CommandLine
