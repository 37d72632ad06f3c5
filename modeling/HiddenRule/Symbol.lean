/-
  Symbols: what an occupied cell of a board holds, one of three colors
  together with one of three shapes. Each color and each shape has a position
  in its list, a word used in rule texts, and a one-letter code used in board
  texts.
-/

namespace HiddenRule

/-- The color of a symbol. -/
inductive Color where
  | red
  | yellow
  | blue
  deriving DecidableEq, Repr

/-- The shape of a symbol. -/
inductive Shape where
  | circle
  | triangle
  | square
  deriving DecidableEq, Repr

/-- A colored shape. -/
structure Symbol where
  color : Color
  shape : Shape
  deriving DecidableEq, Repr

namespace Color

/-- The three colors, in the order of their positions. -/
def all : List Color := [red, yellow, blue]

/-- The position of a color in `all`. -/
def index : Color → Nat
  | red => 0
  | yellow => 1
  | blue => 2

/-- The color at a position, where there is one. -/
def ofIndex? (i : Nat) : Option Color := all[i]?

/-- The word for a color. -/
def name : Color → String
  | red => "red"
  | yellow => "yellow"
  | blue => "blue"

/-- The letter that stands for a color in a board text. -/
def code : Color → Char
  | red => 'r'
  | yellow => 'y'
  | blue => 'b'

/-- The color a letter stands for. -/
def ofCode? (c : Char) : Option Color := all.find? fun color => color.code == c

theorem mem_all (c : Color) : c ∈ all := by cases c <;> decide

theorem ofIndex?_index (c : Color) : ofIndex? c.index = some c := by cases c <;> rfl

theorem ofCode?_code (c : Color) : ofCode? c.code = some c := by cases c <;> decide

end Color

namespace Shape

/-- The three shapes, in the order of their positions. -/
def all : List Shape := [circle, triangle, square]

/-- The position of a shape in `all`. -/
def index : Shape → Nat
  | circle => 0
  | triangle => 1
  | square => 2

/-- The shape at a position, where there is one. -/
def ofIndex? (i : Nat) : Option Shape := all[i]?

/-- The word for a shape. -/
def name : Shape → String
  | circle => "circle"
  | triangle => "triangle"
  | square => "square"

/-- The letter that stands for a shape in a board text. -/
def code : Shape → Char
  | circle => 'C'
  | triangle => 'T'
  | square => 'S'

/-- The shape a letter stands for. -/
def ofCode? (c : Char) : Option Shape := all.find? fun shape => shape.code == c

theorem mem_all (s : Shape) : s ∈ all := by cases s <;> decide

theorem ofIndex?_index (s : Shape) : ofIndex? s.index = some s := by cases s <;> rfl

theorem ofCode?_code (s : Shape) : ofCode? s.code = some s := by cases s <;> decide

end Shape

namespace Symbol

/-- The symbol in words, such as `red circle`. -/
def name (s : Symbol) : String := s.color.name ++ " " ++ s.shape.name

/-- The two letters of a symbol, color first. -/
def letters (s : Symbol) : List Char := [s.color.code, s.shape.code]

/-- The two-letter code of a symbol, such as `rC`. -/
def code (s : Symbol) : String := String.ofList s.letters

end Symbol

end HiddenRule
