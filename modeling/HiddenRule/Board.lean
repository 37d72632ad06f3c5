import HiddenRule.Symbol
import HiddenRule.Cell

/-
  Boards: nine cells, each empty or holding a symbol. Reading is total: a
  number that names no cell reads as empty. Writing there, and asking for the
  cell itself, is refused.
-/

namespace HiddenRule

/-- A board: the contents of its nine cells, in order. -/
structure Board where
  cells : Vector (Option Symbol) 9
  deriving DecidableEq

namespace Board

/-- The reason for refusing to write a cell, or to show it: its number names
no cell. -/
structure OutOfRange where
  index : Nat
  deriving DecidableEq, Repr

/-- The words of the refusal. -/
def OutOfRange.message (e : OutOfRange) : String :=
  "index out of bounds: the len is " ++ toString Cell.count ++ " but the index is " ++ toString e.index

/-- The board with the given contents from cell 0 on; cells beyond the end of
the list are empty. -/
def ofCells (contents : List (Option Symbol)) : Board :=
  ⟨Vector.ofFn fun i => contents[i.val]?.join⟩

/-- The board without symbols. -/
def empty : Board := ofCells []

/-- What a cell holds. -/
def get (b : Board) (i : Nat) : Option Symbol := b.cells[i]?.join

/-- What a cell of the board holds, if the number names one. -/
def cell (b : Board) (i : Nat) : Except OutOfRange (Option Symbol) :=
  if i < Cell.count then .ok (b.get i) else .error ⟨i⟩

/-- The board with the contents of one cell replaced, if there is such a
cell. -/
def update (b : Board) (i : Nat) (content : Option Symbol) : Board :=
  ⟨b.cells.setIfInBounds i content⟩

/-- The board with a symbol put into a cell. -/
def place (b : Board) (i : Nat) (s : Symbol) : Except OutOfRange Board :=
  if i < Cell.count then .ok (b.update i (some s)) else .error ⟨i⟩

/-- The board with a cell emptied. -/
def clear (b : Board) (i : Nat) : Board := b.update i none

/-- Whether a cell holds a symbol. -/
def isOccupied (b : Board) (i : Nat) : Bool := (b.get i).isSome

/-- Whether a cell holds no symbol. -/
def isBlank (b : Board) (i : Nat) : Bool := !b.isOccupied i

/-- Whether a cell holds a symbol of a color. -/
def hasColor (b : Board) (i : Nat) (c : Color) : Bool := (b.get i).any fun s => s.color == c

/-- Whether a cell holds a symbol of a shape. -/
def hasShape (b : Board) (i : Nat) (s : Shape) : Bool := (b.get i).any fun t => t.shape == s

/-- The cells that hold a symbol, in order. -/
def occupied (b : Board) : List Nat := Cell.all.filter b.isOccupied

/-- The number of symbols on the board. -/
def symbolCount (b : Board) : Nat := b.occupied.length

/-- The contents of the nine cells, in order. -/
def contents (b : Board) : List (Option Symbol) := Cell.all.map b.get

/-! ## Reading back what was written -/

theorem get_eq_none {b : Board} {i : Nat} (h : Cell.count ≤ i) : b.get i = none := by
  have h9 : 9 ≤ i := h
  simp [get, Vector.getElem?_eq_none h9]

theorem get_ofCells (contents : List (Option Symbol)) (i : Nat) :
    (ofCells contents).get i = if i < Cell.count then contents[i]?.join else none := by
  by_cases h : i < 9 <;> simp [ofCells, get, Cell.count, h]

@[simp] theorem get_empty (i : Nat) : empty.get i = none := by simp [empty, get_ofCells]

theorem get_update (b : Board) (i j : Nat) (content : Option Symbol) :
    (b.update i content).get j = if i = j ∧ j < Cell.count then content else b.get j := by
  by_cases hj : j < 9 <;> by_cases hij : i = j <;>
    simp [update, get, Cell.count, hj, hij]

/-- A board is what its nine cells hold. -/
theorem ext_get {a b : Board} (h : ∀ i < Cell.count, a.get i = b.get i) : a = b := by
  cases a with
  | mk x =>
    cases b with
    | mk y =>
      congr 1
      ext1 i hi
      have := h i hi
      simpa [get, hi] using this

theorem length_contents (b : Board) : b.contents.length = Cell.count := by
  rw [contents, List.length_map, Cell.all, List.length_range]

theorem ofCells_contents (b : Board) : ofCells b.contents = b :=
  ext_get fun i hi => by simp [get_ofCells, contents, Cell.all, hi]

theorem contents_ofCells {contents : List (Option Symbol)} (h : contents.length = Cell.count) :
    (ofCells contents).contents = contents := by
  refine List.ext_getElem (by simp [Board.contents, Cell.all, h]) fun i hi hi' => ?_
  have hlt : i < Cell.count := h ▸ hi'
  simp [Board.contents, Cell.all, get_ofCells, hlt, hi']

end Board

end HiddenRule
