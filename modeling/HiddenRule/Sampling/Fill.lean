import HiddenRule.Board
import HiddenRule.Random.Draw

/-
  Random boards. A board with a given number of symbols is filled cell by
  cell: each cell asks whether it is one of the cells still to be filled, and
  a filled one asks for its color and its shape. The cells after the last
  symbol ask nothing.
-/

namespace HiddenRule

/-- How many symbols a random board has, from the least to the most. -/
structure FillRange where
  lo : Nat
  hi : Nat
  deriving DecidableEq, Repr

namespace FillRange

/-- The range within the nine cells; a range whose end lies before its start
is taken to end there. -/
def clamp (r : FillRange) : FillRange :=
  ⟨min r.lo Cell.count, max (min r.hi Cell.count) (min r.lo Cell.count)⟩

/-- The range used where none is given. -/
def standard : FillRange := ⟨3, 9⟩

theorem clamp_lo_le_hi (r : FillRange) : r.clamp.lo ≤ r.clamp.hi := by
  simp only [clamp]
  omega

theorem clamp_hi_le (r : FillRange) : r.clamp.hi ≤ Cell.count := by
  simp only [clamp]
  omega

end FillRange

namespace Symbol

/-- A random symbol. -/
def draw : Draw Symbol := do
  let color ← Draw.lessThan Color.all.length
  let shape ← Draw.lessThan Shape.all.length
  return ⟨Color.all.getD color .red, Shape.all.getD shape .circle⟩

end Symbol

namespace Board

/-- The contents of the last `cells` cells of a board, with `symbols` symbols
still to be placed. -/
def drawContents : (cells symbols : Nat) → Draw (List (Option Symbol))
  | cells, 0 => return List.replicate cells none
  | 0, _ + 1 => return []
  | cells + 1, symbols + 1 => do
    let place ← Draw.lessThan (cells + 1)
    if place < symbols + 1 then
      let symbol ← Symbol.draw
      let rest ← drawContents cells symbols
      return some symbol :: rest
    else
      let rest ← drawContents cells (symbols + 1)
      return none :: rest

/-- A random board with a number of symbols, nine at most. -/
def drawWith (target : Nat) : Draw Board := do
  let contents ← drawContents Cell.count (min target Cell.count)
  return ofCells contents

/-- A random board, the number of its symbols drawn from a range. -/
def drawIn (range : FillRange) : Draw Board := do
  let target ← Draw.between range.clamp.lo range.clamp.hi
  drawWith target

end Board

end HiddenRule
