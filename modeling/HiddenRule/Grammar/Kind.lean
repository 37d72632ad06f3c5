/-
  Categories of rule fragments, and the kinds of meaning a fragment of each
  category can have. A rule judges a board; a noun and a noun predicate judge
  a cell of it; a group picks lists of cells; a group predicate judges one
  such list.
-/

namespace HiddenRule

/-- The category of a fragment. -/
inductive Category where
  | rule
  | noun
  | nounPred
  | group
  | groupPred
  deriving DecidableEq, Repr

namespace Category

/-- The five categories, in order. -/
def all : List Category := [rule, noun, nounPred, group, groupPred]

/-- The position of a category in `all`. -/
def index : Category → Nat
  | rule => 0
  | noun => 1
  | nounPred => 2
  | group => 3
  | groupPred => 4

/-- The name of a category. -/
def name : Category → String
  | rule => "rule"
  | noun => "noun"
  | nounPred => "nounPred"
  | group => "group"
  | groupPred => "groupPred"

theorem mem_all (c : Category) : c ∈ all := by cases c <;> decide

theorem name_injective {c d : Category} (h : c.name = d.name) : c = d := by
  revert h
  cases c <;> cases d <;> decide

end Category

/-- What a rule says of a board. -/
inductive RuleKind where
  /-- Every cell of the noun satisfies the predicate. -/
  | every
  /-- Some cell of the noun satisfies the predicate. -/
  | exists
  /-- No cell of the noun satisfies the predicate. -/
  | noneIs
  /-- Every group that is not empty satisfies the predicate. -/
  | everyGroup
  /-- Some row consists of cells of the noun. -/
  | rowFilled
  /-- Some column consists of cells of the noun. -/
  | columnFilled
  deriving DecidableEq, Repr

/-- Which cells a noun names. -/
inductive NounKind where
  /-- Occupied, in the chosen color. -/
  | color
  /-- Occupied, in the chosen shape. -/
  | shape
  /-- Occupied, in the chosen row. -/
  | row
  /-- Occupied, in the chosen column. -/
  | column
  /-- Empty. -/
  | blank
  deriving DecidableEq, Repr

/-- Which cells a noun predicate is true of. -/
inductive NounPredKind where
  /-- Occupied, in the chosen color. -/
  | color
  /-- Occupied, in the chosen shape. -/
  | shape
  /-- In the chosen row, occupied or not. -/
  | row
  /-- In the chosen column, occupied or not. -/
  | column
  /-- Next to a cell of the noun. -/
  | adjacentTo
  deriving DecidableEq, Repr

/-- How the occupied cells are grouped. -/
inductive GroupKind where
  | allSymbols
  | rows
  | columns
  | sameColor
  | sameShape
  | identical
  | adjacentPairs
  deriving DecidableEq, Repr

/-- What a group predicate says of a group. -/
inductive GroupPredKind where
  | sameColor
  | differentColors
  | sameShape
  | differentShapes
  | sameColorOrShape
  | identical
  | connected
  deriving DecidableEq, Repr

/-- The kind of meaning of a fragment, whatever its category. -/
inductive Kind where
  | rule (kind : RuleKind)
  | noun (kind : NounKind)
  | nounPred (kind : NounPredKind)
  | group (kind : GroupKind)
  | groupPred (kind : GroupPredKind)
  deriving DecidableEq, Repr

/-- The category a kind of meaning belongs to. -/
def Kind.category : Kind → Category
  | rule _ => .rule
  | noun _ => .noun
  | nounPred _ => .nounPred
  | group _ => .group
  | groupPred _ => .groupPred

end HiddenRule
