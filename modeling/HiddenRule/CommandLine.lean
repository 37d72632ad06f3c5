/-
  The command line. Settings come before or after the command: the seed, the
  limit of attempts and the verbosity belong to every command and are taken on
  both sides, the others only after the command they belong to. A setting is
  given once on each side; the one after the command counts. Words that begin
  with a dash are settings, except a dash alone and the words after `--`. The
  version is asked for before the command, and whatever follows is not read.
-/

namespace HiddenRule.CommandLine

/-- The commands, by name. -/
inductive CommandName where
  | rule
  | examples
  | judge
  | challenge
  deriving DecidableEq, Repr

/-- The settings, by name. -/
inductive Setting where
  | seed
  | attempts
  | verbose
  | version
  | json
  | valid
  | invalid
  | stages
  deriving DecidableEq, Repr

/-- What to do. -/
inductive Command where
  | rule (json : Bool)
  | examples (valid invalid : Nat) (json : Bool)
  | judge (board : String)
  | challenge (stages : Nat)
  deriving DecidableEq, Repr

/-- A command, with the settings that every command has. -/
structure Invocation where
  seed : Option Nat
  attempts : Nat
  command : Command
  deriving DecidableEq, Repr

/-- A command line that is understood. -/
inductive Request where
  /-- To tell the version. -/
  | version
  /-- To carry out a command. -/
  | invoke (invocation : Invocation)
  deriving DecidableEq, Repr

/-- The reason for refusing a command line. -/
inductive Refusal where
  | missingCommand
  | unknownCommand (word : String)
  | unknownSetting (word : String)
  | unexpectedWord (word : String)
  | missingBoard
  | missingNumber (setting : Setting)
  | badNumber (setting : Setting) (text : String)
  | repeated (setting : Setting)
  deriving DecidableEq, Repr

/-- The command a word names. -/
def CommandName.ofWord? : String → Option CommandName
  | "rule" => some rule
  | "examples" => some examples
  | "judge" => some judge
  | "challenge" => some challenge
  | _ => none

namespace Setting

/-- All settings. -/
def all : List Setting := [seed, attempts, verbose, version, json, valid, invalid, stages]

/-- The name of a setting. -/
def name : Setting → String
  | seed => "seed"
  | attempts => "attempts"
  | verbose => "verbose"
  | version => "version"
  | json => "json"
  | valid => "valid"
  | invalid => "invalid"
  | stages => "stages"

/-- Whether a setting is followed by a number. -/
def takesNumber : Setting → Bool
  | verbose => false
  | version => false
  | json => false
  | _ => true

/-- Whether a setting can be given here: before the command, or after it. -/
def isAllowed (command : Option CommandName) : Setting → Bool
  | seed => true
  | attempts => true
  | verbose => true
  | version => command.isNone
  | json => command = some .rule || command = some .examples
  | valid => command = some .examples
  | invalid => command = some .examples
  | stages => command = some .challenge

/-- The setting of a name that can be given here. -/
def ofName? (command : Option CommandName) (name : String) : Option Setting :=
  all.find? fun s => s.name == name && s.isAllowed command

end Setting

/-- The words of a refusal. -/
def Refusal.message : Refusal → String
  | missingCommand => "a command is needed: rule, examples, judge or challenge"
  | unknownCommand word => "there is no command '" ++ word ++ "'"
  | unknownSetting word => "unexpected setting '" ++ word ++ "'"
  | unexpectedWord word => "unexpected argument '" ++ word ++ "'"
  | missingBoard => "a board is needed"
  | missingNumber setting => "--" ++ setting.name ++ " needs a number"
  | badNumber setting text => "--" ++ setting.name ++ " cannot be '" ++ text ++ "'"
  | repeated setting => "--" ++ setting.name ++ " is given twice"

/-! ## Words -/

/-- A number: decimal digits, perhaps after a plus, below two to the
sixty-fourth. -/
def number? (text : String) : Option Nat :=
  let digits := if text.toList.head? = some '+' then text.toList.tail else text.toList
  let value := digits.foldl (fun n c => 10 * n + (c.toNat - '0'.toNat)) 0
  if !digits.isEmpty && digits.all Char.isDigit && value < 1 <<< 64 then some value else none

/-- What a word of the command line is. -/
inductive Word where
  | plain (text : String)
  /-- One dash and letters. -/
  | letters (letters : List Char)
  /-- Two dashes and a name, perhaps with a value after an equals sign. -/
  | named (name : String) (value : Option String)
  deriving DecidableEq, Repr

/-- What a word is, by its dashes. -/
def Word.ofString (text : String) : Word :=
  match text.toList with
  | '-' :: '-' :: rest =>
    named (String.ofList (rest.takeWhile (· ≠ '=')))
      (match rest.dropWhile (· ≠ '=') with
        | [] => none
        | _ :: value => some (String.ofList value))
  | '-' :: c :: rest => letters (c :: rest)
  | _ => plain text

/-- Whether the letters after a dash ask for the version. A `v` adds to the
verbosity; a `V` asks for the version where there is no command yet, and the
letters after it are not read. Other letters mean nothing. -/
def asksVersion? (command : Option CommandName) : List Char → Option Bool
  | [] => some false
  | c :: rest =>
    if c = 'v' then asksVersion? command rest
    else if c = 'V' && Setting.version.isAllowed command then some true
    else none

/-! ## Reading -/

/-- What has been read of a command line. -/
structure Gathered where
  command : Option CommandName
  /-- The settings given on this side of the command. -/
  given : List Setting
  /-- The numbers given, the latest first. -/
  numbers : List (Setting × Nat)
  json : Bool
  /-- Whether the version is asked for. -/
  version : Bool
  /-- The words that are neither settings nor the command. -/
  words : List String

namespace Gathered

/-- Nothing read yet. -/
def nothing : Gathered := ⟨none, [], [], false, false, []⟩

/-- The number given for a setting, or another. -/
def numberOr (r : Gathered) (s : Setting) (other : Nat) : Nat := (r.numbers.lookup s).getD other

/-- Reads a word that is no setting. The first names the command; a board to
judge may follow. -/
def addWord (r : Gathered) (word : String) : Except Refusal Gathered :=
  match r.command with
  | none =>
    match CommandName.ofWord? word with
    | some command => .ok { r with command := some command, given := [] }
    | none => .error (.unknownCommand word)
  | some .judge =>
    if r.words.isEmpty then .ok { r with words := [word] } else .error (.unexpectedWord word)
  | some _ => .error (.unexpectedWord word)

/-- Reads words after `--`, which name no command. -/
def addWords (r : Gathered) : List String → Except Refusal Gathered
  | [] => .ok r
  | word :: rest => do
    if r.command.isNone then .error (.unexpectedWord word)
    else
      let r ← r.addWord word
      r.addWords rest

/-- Notes that a setting is given on this side of the command. -/
def note (r : Gathered) (s : Setting) : Except Refusal Gathered :=
  if r.given.contains s then .error (.repeated s) else .ok { r with given := s :: r.given }

/-- Reads a number for a setting. -/
def addNumber (r : Gathered) (s : Setting) (text : String) : Except Refusal Gathered := do
  let r ← r.note s
  match number? text with
  | some n => .ok { r with numbers := (s, n) :: r.numbers }
  | none => .error (.badNumber s text)

/-- Reads a setting without a number. Verbosity adds up. -/
def addSwitch (r : Gathered) (s : Setting) : Except Refusal Gathered :=
  match s with
  | .verbose => .ok r
  | s => do
    let r ← r.note s
    return { r with json := true }

/-- Reads the words of a command line, up to a word that asks for the
version. -/
def addArguments (r : Gathered) : List String → Except Refusal Gathered
  | [] => .ok r
  | argument :: rest =>
    if argument = "--" then r.addWords rest
    else
      match Word.ofString argument with
      | .plain word => do
        let r ← r.addWord word
        r.addArguments rest
      | .letters cs =>
        match asksVersion? r.command cs with
        | none => .error (.unknownSetting argument)
        | some true => .ok { r with version := true }
        | some false => r.addArguments rest
      | .named name value =>
        match Setting.ofName? r.command name with
        | none => .error (.unknownSetting argument)
        | some .version =>
          if value.isSome then .error (.unknownSetting argument) else .ok { r with version := true }
        | some s =>
          if s.takesNumber then
            match value, rest with
            | some text, rest => do
              let r ← r.addNumber s text
              r.addArguments rest
            | none, [] => .error (.missingNumber s)
            | none, text :: rest => do
              let r ← r.addNumber s text
              r.addArguments rest
          else if value.isSome then .error (.unknownSetting argument)
          else do
            let r ← r.addSwitch s
            r.addArguments rest

/-- The command, with its settings. -/
def toCommand (r : Gathered) : Except Refusal Command :=
  match r.command with
  | none => .error .missingCommand
  | some .rule => .ok (.rule r.json)
  | some .examples => .ok (.examples (r.numberOr .valid 3) (r.numberOr .invalid 3) r.json)
  | some .judge =>
    match r.words with
    | board :: _ => .ok (.judge board)
    | [] => .error .missingBoard
  | some .challenge => .ok (.challenge (r.numberOr .stages 5))

end Gathered

/-- What the words of a command line ask for. -/
def parse (arguments : List String) : Except Refusal Request := do
  let r ← Gathered.nothing.addArguments arguments
  if r.version then return .version
  let command ← r.toCommand
  return .invoke ⟨r.numbers.lookup .seed, r.numberOr .attempts 500, command⟩

end HiddenRule.CommandLine
