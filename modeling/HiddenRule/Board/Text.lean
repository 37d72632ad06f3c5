import HiddenRule.Board
import HiddenRule.Text.Blank
import HiddenRule.Text.Tokens

/-
  Board texts. A board is written in a compact form, one line a row and a dot
  for an empty cell, and drawn with lines between its cells. The reader takes
  nine tokens, set apart by blanks, commas or bars. It counts them first, and
  then reports the leftmost token that names no cell content.
-/

namespace HiddenRule.Board

/-- The ways a text fails to name a board. -/
inductive TextError where
  | cellCount (found : Nat)
  | unknownColor (code : Char)
  | unknownShape (code : Char)
  | malformedCell (token : String)
  deriving DecidableEq, Repr

/-- The words of a reading error. -/
def TextError.message : TextError → String
  | cellCount found => "expected 9 cells, found " ++ toString found
  | unknownColor code =>
    "unknown color code '" ++ String.singleton code ++ "' (expected one of r, y, b)"
  | unknownShape code =>
    "unknown shape code '" ++ String.singleton code ++ "' (expected one of C, T, S)"
  | malformedCell token => "malformed cell '" ++ token ++ "'"

/-! ## Writing -/

/-- The nine cells written row by row, with one text between the cells of a
row and another between rows. -/
def layout (written : Option Symbol → List Char) (between rowBreak : List Char) (b : Board) :
    List Char :=
  rowBreak.intercalate <| Cell.lines.map fun r =>
    between.intercalate <| (Cell.inRow r).map fun i => written (b.get i)

/-- The characters of the compact form. -/
def compactChars : Board → List Char := layout (fun cell => (cell.map Symbol.letters).getD ['.']) [' '] ['\n']

/-- The compact form: one line a row, a blank between cells, a dot for an
empty cell. -/
def compact (b : Board) : String := String.ofList b.compactChars

/-- The characters of the drawing. -/
def drawingChars : Board → List Char :=
  layout (fun cell => (cell.map Symbol.letters).getD [' ', ' ']) ['|'] "\n--+--+--\n".toList

/-- The drawing: two characters a cell, with lines between the cells. -/
def drawing (b : Board) : String := String.ofList b.drawingChars

/-! ## Reading -/

/-- Whether a character stands between tokens. -/
def separates (c : Char) : Bool := Text.isBlank c || c == ',' || c == '|'

/-- The tokens that name an empty cell. -/
def emptyTokens : List (List Char) := [['.'], ['.', '.'], ['_'], ['-', '-']]

/-- The color a letter names. -/
def readColor (c : Char) : Except TextError Color :=
  match Color.ofCode? c with
  | some color => .ok color
  | none => .error (.unknownColor c)

/-- The shape a letter names. -/
def readShape (c : Char) : Except TextError Shape :=
  match Shape.ofCode? c with
  | some shape => .ok shape
  | none => .error (.unknownShape c)

/-- The cell content a token names. -/
def readCell (token : List Char) : Except TextError (Option Symbol) :=
  if token ∈ emptyTokens then .ok none
  else
    match token with
    | [c, s] => do
      let color ← readColor c
      let shape ← readShape s
      return some ⟨color, shape⟩
    | _ => .error (.malformedCell (String.ofList token))

/-- The contents the tokens name, or the error of the leftmost one that names
none. -/
def readCells : List (List Char) → Except TextError (List (Option Symbol))
  | [] => .ok []
  | token :: rest => do
    let cell ← readCell token
    let cells ← readCells rest
    return cell :: cells

/-- The board a text names. -/
def read (text : String) : Except TextError Board :=
  let tokens := Text.tokens separates text.toList
  if tokens.length = Cell.count then (readCells tokens).map ofCells
  else .error (.cellCount tokens.length)

end HiddenRule.Board
