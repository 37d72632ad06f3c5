import HiddenRule.Json

/-
  Reading Json texts. Every reader takes a value off the front of the
  characters and returns it with the characters left. Values are nested, so
  the readers of values call each other; a bound on the calls, the length of
  the text, keeps them total.
-/

namespace HiddenRule.Json

/-- The characters left after the blanks in front. -/
def skipBlanks (cs : List Char) : List Char :=
  cs.dropWhile fun c => c == ' ' || c == '\n' || c == '\r' || c == '\t'

/-- The value of a hexadecimal digit. -/
def hexValue? (c : Char) : Option Nat :=
  if c.isDigit then some (c.toNat - '0'.toNat)
  else if 'a' ≤ c && c ≤ 'f' then some (c.toNat - 'a'.toNat + 10)
  else if 'A' ≤ c && c ≤ 'F' then some (c.toNat - 'A'.toNat + 10)
  else none

/-- The value of four hexadecimal digits. -/
def hexUnit? (a b c d : Char) : Option Nat := do
  let a ← hexValue? a
  let b ← hexValue? b
  let c ← hexValue? c
  let d ← hexValue? d
  return 4096 * a + 256 * b + 16 * c + d

/-- The character that a letter after a backslash stands for. -/
def unescape? : Char → Option Char
  | '"' => some '"'
  | '\\' => some '\\'
  | '/' => some '/'
  | 'b' => some (Char.ofNat 8)
  | 'f' => some (Char.ofNat 12)
  | 'n' => some '\n'
  | 'r' => some '\r'
  | 't' => some '\t'
  | _ => none

/-- Whether a number is the first half of a pair that names one character. -/
def isHighHalf (unit : Nat) : Bool := 0xD800 ≤ unit && unit < 0xDC00

/-- Whether a number is the second half of such a pair. -/
def isLowHalf (unit : Nat) : Bool := 0xDC00 ≤ unit && unit < 0xE000

/-- The rest of a string after its opening quote, up to the closing one. -/
def readString : List Char → Option (List Char × List Char)
  | [] => none
  | '"' :: rest => some ([], rest)
  | '\\' :: 'u' :: a :: b :: c :: d :: '\\' :: 'u' :: e :: f :: g :: h :: rest => do
    let first ← hexUnit? a b c d
    let second ← hexUnit? e f g h
    if isHighHalf first then
      if isLowHalf second then
        let (text, left) ← readString rest
        return (Char.ofNat (0x10000 + 1024 * (first - 0xD800) + (second - 0xDC00)) :: text, left)
      else none
    else if isLowHalf first then none
    else
      let (text, left) ← readString ('\\' :: 'u' :: e :: f :: g :: h :: rest)
      return (Char.ofNat first :: text, left)
  | '\\' :: 'u' :: a :: b :: c :: d :: rest => do
    let unit ← hexUnit? a b c d
    if isHighHalf unit || isLowHalf unit then none
    else
      let (text, left) ← readString rest
      return (Char.ofNat unit :: text, left)
  | '\\' :: c :: rest => do
    let meant ← unescape? c
    let (text, left) ← readString rest
    return (meant :: text, left)
  | c :: rest => do
    if c.toNat < 32 then none
    else
      let (text, left) ← readString rest
      return (c :: text, left)

/-- The value of a row of decimal digits. -/
def digitsValue (digits : List Char) : Nat :=
  digits.foldl (fun n c => 10 * n + (c.toNat - '0'.toNat)) 0

/-- The digits in front, at least one. -/
def readDigits (cs : List Char) : Option (List Char × List Char) :=
  let digits := cs.takeWhile Char.isDigit
  if digits.isEmpty then none else some (digits, cs.dropWhile Char.isDigit)

/-- The whole part of a number: no zero in front of other digits. -/
def readWhole (cs : List Char) : Option (List Char × List Char) := do
  let (digits, left) ← readDigits cs
  if digits.head? = some '0' && digits.length ≠ 1 then none else return (digits, left)

/-- The fraction of a number, with its point, if there is one. -/
def readFraction : List Char → Option (List Char × List Char)
  | '.' :: rest => do
    let (digits, left) ← readDigits rest
    return ('.' :: digits, left)
  | cs => some ([], cs)

/-- The exponent of a number, with its mark, if there is one. -/
def readExponent : List Char → Option (List Char × List Char)
  | mark :: sign :: rest =>
    if mark = 'e' || mark = 'E' then
      if sign = '+' || sign = '-' then do
        let (digits, left) ← readDigits rest
        return (mark :: sign :: digits, left)
      else do
        let (digits, left) ← readDigits (sign :: rest)
        return (mark :: digits, left)
    else some ([], mark :: sign :: rest)
  | cs => some ([], cs)

/-- A number. -/
def readNumber (cs : List Char) : Option (Json × List Char) := do
  let (sign, unsigned) := if cs.head? = some '-' then (['-'], cs.tail) else ([], cs)
  let (whole, left) ← readWhole unsigned
  let (fraction, left) ← readFraction left
  let (exponent, left) ← readExponent left
  if (sign ++ fraction ++ exponent).isEmpty then return (natural (digitsValue whole), left)
  else return (numeral (String.ofList (sign ++ whole ++ fraction ++ exponent)), left)

mutual

/-- A value, with blanks around it. -/
def readValue : Nat → List Char → Option (Json × List Char)
  | 0, _ => none
  | bound + 1, cs => do
    let (value, left) ←
      match skipBlanks cs with
      | 'n' :: 'u' :: 'l' :: 'l' :: rest => some (null, rest)
      | 't' :: 'r' :: 'u' :: 'e' :: rest => some (bool true, rest)
      | 'f' :: 'a' :: 'l' :: 's' :: 'e' :: rest => some (bool false, rest)
      | '"' :: rest => (readString rest).map fun (text, left) => (string (String.ofList text), left)
      | '[' :: rest =>
        match skipBlanks rest with
        | ']' :: left => some (array [], left)
        | cs => (readItems bound cs).map fun (items, left) => (array items, left)
      | '\x7b' :: rest =>
        match skipBlanks rest with
        | '\x7d' :: left => some (object [], left)
        | cs => (readFields bound [] cs).map fun (fields, left) => (object fields, left)
      | cs => readNumber cs
    return (value, skipBlanks left)

/-- The items of a list that has at least one, up to the closing bracket. -/
def readItems : Nat → List Char → Option (List Json × List Char)
  | 0, _ => none
  | bound + 1, cs => do
    match ← readValue bound cs with
    | (item, ',' :: left) =>
      let (items, left) ← readItems bound left
      return (item :: items, left)
    | (item, ']' :: left) => return ([item], left)
    | _ => none

/-- The fields of an object that has at least one, up to the closing bracket,
added to those already read. Of two fields of one name the later counts. -/
def readFields : Nat → List (String × Json) → List Char → Option (List (String × Json) × List Char)
  | 0, _, _ => none
  | bound + 1, fields, cs => do
    match ← readValue bound cs with
    | (string name, ':' :: left) =>
      match ← readValue bound left with
      | (value, ',' :: left) => readFields bound (putField name value fields) left
      | (value, '\x7d' :: left) => return (putField name value fields, left)
      | _ => none
    | _ => none

end

/-- The value a text is written for. -/
def read (text : String) : Option Json :=
  match readValue (text.length + 1) text.toList with
  | some (value, []) => some value
  | _ => none

end HiddenRule.Json
