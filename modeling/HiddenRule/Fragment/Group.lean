import HiddenRule.Board
import HiddenRule.Cell.Cluster
import HiddenRule.Grammar.Kind

/-
  Groups of cells. Each kind of group splits the occupied cells of a board, or
  pairs those that share an edge; each kind of group predicate judges a list
  of cells. A cell that is empty, or off the board, has no color and no shape.
-/

namespace HiddenRule

namespace Board

/-- The listed cells that hold a symbol. -/
def occupiedAmong (b : Board) (cells : List Nat) : List Nat := cells.filter b.isOccupied

/-- The occupied cells of a color. -/
def cellsOfColor (b : Board) (c : Color) : List Nat := b.occupied.filter fun i => b.hasColor i c

/-- The occupied cells of a shape. -/
def cellsOfShape (b : Board) (s : Shape) : List Nat := b.occupied.filter fun i => b.hasShape i s

/-- The occupied cells that hold one symbol. -/
def cellsOfSymbol (b : Board) (s : Symbol) : List Nat :=
  b.occupied.filter fun i => b.hasShape i s.shape && b.hasColor i s.color

/-- The groups of a kind. Colors, shapes and lines without a symbol give empty
groups; identical symbols are grouped shape by shape, and color by color
within a shape. -/
def groups (b : Board) : GroupKind → List (List Nat)
  | .allSymbols => [b.occupied]
  | .rows => Cell.lines.map fun r => b.occupiedAmong (Cell.inRow r)
  | .columns => Cell.lines.map fun c => b.occupiedAmong (Cell.inColumn c)
  | .sameColor => Color.all.map b.cellsOfColor
  | .sameShape => Shape.all.map b.cellsOfShape
  | .identical => Shape.all.flatMap fun s => Color.all.map fun c => b.cellsOfSymbol ⟨c, s⟩
  | .adjacentPairs =>
    (Cell.adjacentPairs.filter fun pair => b.isOccupied pair.1 && b.isOccupied pair.2).map
      fun pair => [pair.1, pair.2]

/-- Whether all listed cells have one color. -/
def sameColor (b : Board) (cells : List Nat) : Bool :=
  Color.all.any fun c => cells.all fun i => b.hasColor i c

/-- Whether all listed cells have one shape. -/
def sameShape (b : Board) (cells : List Nat) : Bool :=
  Shape.all.any fun s => cells.all fun i => b.hasShape i s

/-- Whether no color is listed twice. -/
def differentColors (b : Board) (cells : List Nat) : Bool :=
  Color.all.all fun c => cells.countP (fun i => b.hasColor i c) ≤ 1

/-- Whether no shape is listed twice. -/
def differentShapes (b : Board) (cells : List Nat) : Bool :=
  Shape.all.all fun s => cells.countP (fun i => b.hasShape i s) ≤ 1

/-- Whether a group predicate is true of the listed cells. -/
def satisfies (b : Board) (cells : List Nat) : GroupPredKind → Bool
  | .sameColor => b.sameColor cells
  | .differentColors => b.differentColors cells
  | .sameShape => b.sameShape cells
  | .differentShapes => b.differentShapes cells
  | .sameColorOrShape => b.sameColor cells || b.sameShape cells
  | .identical => b.sameColor cells && b.sameShape cells
  | .connected => Cell.connected cells

end Board

end HiddenRule
