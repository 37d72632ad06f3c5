import HiddenRule.Json

/-
  Json texts. A value is written on one line without blanks, or over several
  lines with two blanks a level and the fields of every object in the order of
  their names.
-/

namespace HiddenRule.Json

/-- A hexadecimal digit. -/
def hexDigit (n : Nat) : Char := Nat.digitChar n

/-- A character inside a string: quotes and backslashes are escaped, and so
are the control characters, by a letter where there is one. -/
def escaped (c : Char) : List Char :=
  if c = '"' then ['\\', '"']
  else if c = '\\' then ['\\', '\\']
  else if c = '\n' then ['\\', 'n']
  else if c = '\r' then ['\\', 'r']
  else if c = '\t' then ['\\', 't']
  else if c.toNat = 8 then ['\\', 'b']
  else if c.toNat = 12 then ['\\', 'f']
  else if c.toNat < 32 then ['\\', 'u', '0', '0', hexDigit (c.toNat / 16), hexDigit (c.toNat % 16)]
  else [c]

/-- A string in quotes. -/
def quoted (text : String) : String :=
  "\"" ++ String.ofList (text.toList.flatMap escaped) ++ "\""

mutual

/-- The text of a value on one line. -/
def compact : Json → String
  | null => "null"
  | bool true => "true"
  | bool false => "false"
  | natural n => toString n
  | numeral text => text
  | string text => quoted text
  | array items => "[" ++ ",".intercalate (compactItems items) ++ "]"
  | object fields => "\x7b" ++ ",".intercalate (compactFields fields) ++ "\x7d"

/-- The texts of the items of a list, on one line each. -/
def compactItems : List Json → List String
  | [] => []
  | item :: rest => compact item :: compactItems rest

/-- The texts of the fields of an object, on one line each. -/
def compactFields : List (String × Json) → List String
  | [] => []
  | (name, value) :: rest => (quoted name ++ ":" ++ compact value) :: compactFields rest

end

/-- A name put in its place among names in order. -/
def insertByName (entry : String × String) : List (String × String) → List (String × String)
  | [] => [entry]
  | other :: rest => if other.1 < entry.1 then other :: insertByName entry rest else entry :: other :: rest

/-- Named texts in the order of their names. -/
def sortedByName (entries : List (String × String)) : List (String × String) :=
  entries.foldr insertByName []

/-- A line break, and the blanks of a level. -/
def newLine (level : Nat) : String := "\n" ++ String.ofList (List.replicate (2 * level) ' ')

/-- Texts on lines of their own, one level in, between two brackets; nothing
stands between the brackets if there are none. -/
def block (level : Nat) (opening closing : String) (texts : List String) : String :=
  if texts.isEmpty then opening ++ closing
  else opening ++ newLine (level + 1) ++ ("," ++ newLine (level + 1)).intercalate texts ++
    newLine level ++ closing

mutual

/-- The text of a value over several lines, from a level of indentation on. -/
def prettyAt (level : Nat) : Json → String
  | array items => block level "[" "]" (prettyItems (level + 1) items)
  | object fields =>
    block level "\x7b" "\x7d" <| (sortedByName (prettyFields (level + 1) fields)).map fun entry =>
      quoted entry.1 ++ ": " ++ entry.2
  | null => "null"
  | bool true => "true"
  | bool false => "false"
  | natural n => toString n
  | numeral text => text
  | string text => quoted text

/-- The texts of the items of a list. -/
def prettyItems (level : Nat) : List Json → List String
  | [] => []
  | item :: rest => prettyAt level item :: prettyItems level rest

/-- The names of the fields of an object with the texts of their values. -/
def prettyFields (level : Nat) : List (String × Json) → List (String × String)
  | [] => []
  | (name, value) :: rest => (name, prettyAt level value) :: prettyFields level rest

end

/-- The text of a value over several lines. -/
def pretty : Json → String := prettyAt 0

end HiddenRule.Json
