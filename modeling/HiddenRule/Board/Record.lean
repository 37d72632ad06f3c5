import HiddenRule.Board
import HiddenRule.Json.Record

/-
  The Json forms of colors, shapes, symbols and boards: a color or shape by
  its word, a symbol as a record of the two, a board as the list of what its
  nine cells hold, null for an empty one.
-/

namespace HiddenRule

/-- The words of the colors. -/
def Color.named : List (String × Color) := Color.all.map fun c => (c.name, c)

/-- The Json form of a color. -/
def Color.toJson (c : Color) : Json := .string c.name

/-- The color a Json value holds. -/
def Color.ofJson? : Json → Option Color := Json.variant? Color.named

/-- The words of the shapes. -/
def Shape.named : List (String × Shape) := Shape.all.map fun s => (s.name, s)

/-- The Json form of a shape. -/
def Shape.toJson (s : Shape) : Json := .string s.name

/-- The shape a Json value holds. -/
def Shape.ofJson? : Json → Option Shape := Json.variant? Shape.named

/-- The Json form of a symbol. -/
def Symbol.toJson (s : Symbol) : Json := .object [("color", s.color.toJson), ("shape", s.shape.toJson)]

/-- The symbol a Json value holds. -/
def Symbol.ofJson? (value : Json) : Option Symbol := do
  match ← Json.record? ["color", "shape"] value with
  | [color, shape] => return ⟨← Color.ofJson? color, ← Shape.ofJson? shape⟩
  | _ => none

/-- The Json form of a board. -/
def Board.toJson (b : Board) : Json := .array (b.contents.map (Json.ofOption Symbol.toJson))

/-- The board a Json value holds. -/
def Board.ofJson? (value : Json) : Option Board := do
  let contents ← Json.list? (Json.nullable? Symbol.ofJson?) value
  if contents.length = Cell.count then return ofCells contents else none

end HiddenRule
