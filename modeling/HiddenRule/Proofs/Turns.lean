import HiddenRule.Proofs.Symmetry

/-
  Turning the board. A rule says the same of a board and of the board turned,
  once the rule is turned, too: where rows become columns, its rows become
  columns, and where the rows or the columns change their order, so do the
  rows or the columns that it names. Kinds and attributes are turned at every
  node, and nothing is asked of the fragment: it may be of any category, of any
  depth and from any grammar, and name lines that no board has.

  What is proved:
    1. `motion`: a turn is a motion of the cells.
    2. `moved_kind`: each kind of meaning turns with the board, if the parts do.
    3. `verdicts_turned`: a turned fragment says of the turned board what the
       fragment says of the board, of corresponding cells and lists of cells.
-/

namespace HiddenRule

/-- The number of a line counted from the other side; a number that names no
line stays. -/
def Cell.opposite : Nat → Nat
  | 0 => 2
  | 2 => 0
  | line => line

/-- A way to turn the board over: along the diagonal from the top left, from
top to bottom, or from left to right. -/
inductive Turn where
  | transpose
  | upsideDown
  | mirror
  deriving DecidableEq, Repr

namespace Turn

/-- Where a cell goes. -/
def cell (t : Turn) (i : Nat) : Nat :=
  if i < Cell.count then
    match t with
    | transpose => 3 * Cell.column i + Cell.row i
    | upsideDown => 3 * (2 - Cell.row i) + Cell.column i
    | mirror => 3 * Cell.row i + (2 - Cell.column i)
  else i

/-- The board turned: each cell holds what the cell that goes there held. As a
turn is undone by repeating it, that is the cell it goes to. -/
def board (t : Turn) (b : Board) : Board := .ofCells (Cell.all.map fun i => b.get (t.cell i))

/-- The second of two where rows become columns, and the first where they
stay rows. -/
def either {α : Type} (t : Turn) (kept crossed : α) : α :=
  match t with
  | transpose => crossed
  | upsideDown | mirror => kept

def rule (t : Turn) : RuleKind → RuleKind
  | .rowFilled => t.either .rowFilled .columnFilled
  | .columnFilled => t.either .columnFilled .rowFilled
  | kind => kind

def noun (t : Turn) : NounKind → NounKind
  | .row => t.either .row .column
  | .column => t.either .column .row
  | kind => kind

def nounPred (t : Turn) : NounPredKind → NounPredKind
  | .row => t.either .row .column
  | .column => t.either .column .row
  | kind => kind

def group (t : Turn) : GroupKind → GroupKind
  | .rows => t.either .rows .columns
  | .columns => t.either .columns .rows
  | kind => kind

/-- What the turn makes of a kind. -/
def kind (t : Turn) : Kind → Kind
  | .rule kind => .rule (t.rule kind)
  | .noun kind => .noun (t.noun kind)
  | .nounPred kind => .nounPred (t.nounPred kind)
  | .group kind => .group (t.group kind)
  | .groupPred kind => .groupPred kind

/-- What the turn makes of the number of a row. -/
def rowNumber (t : Turn) (line : Nat) : Nat :=
  match t with
  | upsideDown => Cell.opposite line
  | transpose | mirror => line

/-- What the turn makes of the number of a column. -/
def columnNumber (t : Turn) (line : Nat) : Nat :=
  match t with
  | mirror => Cell.opposite line
  | transpose | upsideDown => line

/-- What the turn makes of an attribute. -/
def choice (t : Turn) : Kind → Nat → Nat
  | .noun .row, line | .nounPred .row, line => t.rowNumber line
  | .noun .column, line | .nounPred .column, line => t.columnNumber line
  | _, a => a

/-- The fragment turned. -/
def fragment (t : Turn) (f : Fragment) : Fragment := f.adapt t.kind t.choice

variable {parts parts' : List Meaning}

/-! ## The motion of a turn -/

theorem cell_cell (t : Turn) (i : Nat) : t.cell (t.cell i) = i := by
  have hboard : ∀ i < Cell.count, t.cell (t.cell i) = i := by cases t <;> decide
  by_cases hi : i < Cell.count
  · exact hboard i hi
  · simp only [cell, hi, if_false]

/-- A turn, as a motion of the cells. -/
def motion (t : Turn) : Cell.Motion where
  move := t.cell
  move_move := t.cell_cell
  move_lt := by cases t <;> decide
  move_neighbors := by cases t <;> decide

theorem get_board (t : Turn) (b : Board) (i : Nat) : (t.board b).get i = b.get (t.cell i) := by
  apply Board.get_ofCells_map
  intro hi
  have hcell : t.cell i = i := if_neg (Nat.not_lt.mpr hi)
  rw [hcell, Board.get_eq_none hi]

theorem moved_board (t : Turn) (b : Board) : b.Moved t.cell id (t.board b) := by
  intro i
  rw [get_board, t.cell_cell, Option.map_id, id]

/-! ## Lines and edges -/

theorem regrouped_rows (t : Turn) :
    Regrouped t.cell (Cell.lines.map Cell.inRow) (Cell.lines.map (t.either Cell.inRow Cell.inColumn)) := by
  cases t with
  | transpose => exact ⟨[0, 1, 2].map Cell.inColumn, by decide, by decide⟩
  | upsideDown => exact ⟨[2, 1, 0].map Cell.inRow, by decide, by decide⟩
  | mirror => exact ⟨[0, 1, 2].map Cell.inRow, by decide, by decide⟩

theorem regrouped_columns (t : Turn) :
    Regrouped t.cell (Cell.lines.map Cell.inColumn) (Cell.lines.map (t.either Cell.inColumn Cell.inRow)) := by
  cases t with
  | transpose => exact ⟨[0, 1, 2].map Cell.inRow, by decide, by decide⟩
  | upsideDown => exact ⟨[0, 1, 2].map Cell.inColumn, by decide, by decide⟩
  | mirror => exact ⟨[2, 1, 0].map Cell.inColumn, by decide, by decide⟩

/-- A pair goes to a pair, which the table lists in one of the two orders. -/
theorem regrouped_edges (t : Turn) : Regrouped t.cell Cell.edges Cell.edges := by
  refine ⟨Cell.adjacentPairs.map fun pair =>
    [min (t.cell pair.1) (t.cell pair.2), max (t.cell pair.1) (t.cell pair.2)], ?_, ?_⟩
  · cases t <;> decide
  · cases t <;> decide

/-! ## Kinds of meaning -/

theorem opposite_beq (i j : Nat) : (Cell.opposite i == Cell.opposite j) = (i == j) := by
  have hback : ∀ k, Cell.opposite (Cell.opposite k) = k := by
    intro k
    match k with
    | 0 | 1 | 2 | _ + 3 => rfl
  rw [Bool.eq_iff_iff, beq_iff_eq, beq_iff_eq]
  refine ⟨?_, congrArg Cell.opposite⟩
  intro h
  rw [← hback i, h, hback]

/-- The row of a cell is the row or the column of the cell it goes to. -/
theorem row_beq (t : Turn) (line : Nat) {i : Nat} (hi : i < Cell.count) :
    (t.either Cell.row Cell.column (t.cell i) == t.rowNumber line) = (Cell.row i == line) := by
  have htable : ∀ i < Cell.count, Cell.column (transpose.cell i) = Cell.row i ∧
      Cell.row (upsideDown.cell i) = Cell.opposite (Cell.row i) ∧ Cell.row (mirror.cell i) = Cell.row i := by
    decide
  obtain ⟨htranspose, hupsideDown, hmirror⟩ := htable i hi
  cases t with
  | transpose => simp only [either, rowNumber, htranspose]
  | upsideDown => simp only [either, rowNumber, hupsideDown, opposite_beq]
  | mirror => simp only [either, rowNumber, hmirror]

theorem column_beq (t : Turn) (line : Nat) {i : Nat} (hi : i < Cell.count) :
    (t.either Cell.column Cell.row (t.cell i) == t.columnNumber line) = (Cell.column i == line) := by
  have htable : ∀ i < Cell.count, Cell.row (transpose.cell i) = Cell.column i ∧
      Cell.column (upsideDown.cell i) = Cell.column i ∧
      Cell.column (mirror.cell i) = Cell.opposite (Cell.column i) := by
    decide
  obtain ⟨htranspose, hupsideDown, hmirror⟩ := htable i hi
  cases t with
  | transpose => simp only [either, columnNumber, htranspose]
  | upsideDown => simp only [either, columnNumber, hupsideDown]
  | mirror => simp only [either, columnNumber, hmirror, opposite_beq]

theorem judge_rule (t : Turn) (kind : RuleKind) (h : List.Forall₂ (Meaning.Moved t.cell) parts parts') :
    (t.rule kind).judge parts' = kind.judge parts := by
  by_cases hrow : kind = .rowFilled
  · subst hrow
    have hlines := RuleKind.filledOf_eq_of_moved t.regrouped_rows h
    rw [RuleKind.judge_rowFilled_eq, ← hlines]
    cases t with
    | transpose => exact RuleKind.judge_columnFilled_eq parts'
    | upsideDown | mirror => exact RuleKind.judge_rowFilled_eq parts'
  by_cases hcolumn : kind = .columnFilled
  · subst hcolumn
    have hlines := RuleKind.filledOf_eq_of_moved t.regrouped_columns h
    rw [RuleKind.judge_columnFilled_eq, ← hlines]
    cases t with
    | transpose => exact RuleKind.judge_rowFilled_eq parts'
    | upsideDown | mirror => exact RuleKind.judge_columnFilled_eq parts'
  · have hsame : t.rule kind = kind := by cases kind <;> first | rfl | contradiction
    rw [hsame]
    exact RuleKind.judge_eq_of_moved (m := t.motion) hrow hcolumn h

theorem judge_noun (t : Turn) (b : Board) (kind : NounKind) (a : Nat) {i : Nat} (hi : i < Cell.count) :
    (t.noun kind).judge (t.board b) (t.choice (.noun kind) a) (t.cell i) = kind.judge b a i := by
  have hget : (t.board b).get (t.cell i) = b.get i := by rw [get_board, t.cell_cell]
  have hoccupied := (t.moved_board b).isOccupied_eq i
  cases kind with
  | color => simp only [noun, choice, NounKind.judge, Board.hasColorAt, Board.hasColor, hget]
  | shape => simp only [noun, choice, NounKind.judge, Board.hasShapeAt, Board.hasShape, hget]
  | row =>
    have hline := row_beq t a hi
    cases t <;> exact congrArg₂ and hoccupied hline
  | column =>
    have hline := column_beq t a hi
    cases t <;> exact congrArg₂ and hoccupied hline
  | blank => simp only [noun, NounKind.judge, Board.isBlank, hoccupied]

theorem judge_nounPred (t : Turn) (b : Board) (kind : NounPredKind) (a : Nat)
    (h : List.Forall₂ (Meaning.Moved t.cell) parts parts') {i : Nat} (hi : i < Cell.count) :
    (t.nounPred kind).judge (t.board b) (t.choice (.nounPred kind) a) parts' (t.cell i) =
      kind.judge b a parts i := by
  have hget : (t.board b).get (t.cell i) = b.get i := by rw [get_board, t.cell_cell]
  cases kind with
  | color => simp only [nounPred, choice, NounPredKind.judge, Board.hasColorAt, Board.hasColor, hget]
  | shape => simp only [nounPred, choice, NounPredKind.judge, Board.hasShapeAt, Board.hasShape, hget]
  | row =>
    have hline := row_beq t a hi
    cases t <;> exact hline
  | column =>
    have hline := column_beq t a hi
    cases t <;> exact hline
  | adjacentTo => exact NounPredKind.judge_adjacentTo_eq (m := t.motion) h hi

theorem translates_color (t : Turn) (b : Board) :
    Translates t.cell id Color.all b.hasColor Color.all (t.board b).hasColor :=
  (t.moved_board b).translates (by rw [List.map_id]) Function.injective_id fun _ => rfl

theorem translates_shape (t : Turn) (b : Board) :
    Translates t.cell id Shape.all b.hasShape Shape.all (t.board b).hasShape :=
  (t.moved_board b).translates (by rw [List.map_id]) Function.injective_id fun _ => rfl

theorem regrouped_groups (t : Turn) (b : Board) (kind : GroupKind) :
    Regrouped t.cell (b.groups kind) ((t.board b).groups (t.group kind)) := by
  have hmoved : b.Moved t.motion.move id (t.board b) := t.moved_board b
  have hoccupied := Board.carried_occupied hmoved
  cases kind with
  | allSymbols => exact Board.regrouped_allSymbols hmoved
  | rows =>
    have hrows := Board.regrouped_lines hmoved t.regrouped_rows
    cases t <;> exact hrows
  | columns =>
    have hcolumns := Board.regrouped_lines hmoved t.regrouped_columns
    cases t <;> exact hcolumns
  | sameColor => exact (t.translates_color b).regrouped hoccupied
  | sameShape => exact (t.translates_shape b).regrouped hoccupied
  | identical => exact Board.regrouped_identical hmoved Function.bijective_id
  | adjacentPairs => exact Board.regrouped_adjacentPairs hmoved t.regrouped_edges

/-- Each kind of meaning turns with the board, if the parts do. -/
theorem moved_kind (t : Turn) (b : Board) (k : Kind) (a : Nat) {parts parts' : List Meaning}
    (h : List.Forall₂ (Meaning.Moved t.cell) parts parts') :
    (k.meaning b a parts).Moved t.cell ((t.kind k).meaning (t.board b) (t.choice k a) parts') := by
  cases k with
  | rule kind => exact Kind.moved_rule (t.judge_rule kind h)
  | noun kind => exact Kind.moved_noun (m := t.motion) fun i hi => t.judge_noun b kind a hi
  | nounPred kind => exact Kind.moved_nounPred (m := t.motion) fun i hi => t.judge_nounPred b kind a h hi
  | group kind => exact Kind.moved_group (t.regrouped_groups b kind)
  | groupPred kind =>
    exact Kind.moved_groupPred fun hcells =>
      Board.satisfies_eq (m := t.motion) (t.translates_color b) (t.translates_shape b) hcells kind

theorem moved_meaning (t : Turn) (f : Fragment) (b : Board) :
    (f.meaning b).Moved t.cell ((t.fragment f).meaning (t.board b)) :=
  Fragment.moved_meaning_adapt (t.moved_kind b) f

/-- **Judging does not depend on how the board lies.** For every fragment and
every board: whatever the fragment says of the board, of a cell or of a list
of cells, and whatever groups it picks, the turned fragment says of the turned
board, of the cells where they go. -/
theorem verdicts_turned (t : Turn) (f : Fragment) (b : Board) :
    (t.fragment f).holds (t.board b) = f.holds b ∧
      (∀ i, (t.fragment f).holdsAt (t.board b) (t.cell i) = f.holdsAt b i) ∧
      (∀ cells, (t.fragment f).holdsOn (t.board b) (cells.map t.cell) = f.holdsOn b cells) ∧
      Regrouped t.cell (f.groups b) ((t.fragment f).groups (t.board b)) := by
  have hmoved := t.moved_meaning f b
  exact ⟨hmoved.holds_eq, hmoved.holdsAt_eq, fun cells => hmoved.holdsOn_eq (List.Perm.refl _),
    hmoved.groups_regrouped⟩

end Turn

end HiddenRule
