/-
  Cells: the nine places of a board, numbered 0 to 8 row by row, three to a
  row. A cell is given by its number; a number from 9 on names no place, and
  every board reads as empty there.
-/

namespace HiddenRule.Cell

/-- The number of cells on a board. -/
def count : Nat := 9

/-- The cells of a board, in order. -/
def all : List Nat := List.range count

/-- The row a cell lies in, 0 at the top. -/
def row (i : Nat) : Nat := i / 3

/-- The column a cell lies in, 0 at the left. -/
def column (i : Nat) : Nat := i % 3

/-- The cells of a row, left to right. -/
def inRow (r : Nat) : List Nat := [3 * r, 3 * r + 1, 3 * r + 2]

/-- The cells of a column, top to bottom. -/
def inColumn (c : Nat) : List Nat := [c, c + 3, c + 6]

/-- The numbers of the rows, and of the columns. -/
def lines : List Nat := [0, 1, 2]

/-- The cells that share an edge with a cell: above, below, left, right, as
far as the board's edge allows. -/
def neighbors (i : Nat) : List Nat :=
  (if 0 < row i then [i - 3] else []) ++ (if row i < 2 then [i + 3] else []) ++
    (if 0 < column i then [i - 1] else []) ++ (if column i < 2 then [i + 1] else [])

/-- Whether two cells share an edge. -/
def adjacent (i j : Nat) : Bool := (neighbors i).contains j

/-- Every two cells of the board that share an edge, the smaller first: the
pairs within a row, then the pairs across rows. -/
def adjacentPairs : List (Nat × Nat) :=
  [(0, 1), (1, 2), (3, 4), (4, 5), (6, 7), (7, 8),
    (0, 3), (3, 6), (1, 4), (4, 7), (2, 5), (5, 8)]

theorem mem_all {i : Nat} : i ∈ all ↔ i < count := by simp [all]

/-- On the board, sharing an edge is being listed as a pair. -/
theorem adjacent_iff_mem_adjacentPairs : ∀ i < count, ∀ j < count,
    (adjacent i j = true ↔ (i, j) ∈ adjacentPairs ∨ (j, i) ∈ adjacentPairs) := by
  decide

end HiddenRule.Cell
