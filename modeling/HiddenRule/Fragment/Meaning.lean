import HiddenRule.Fragment
import HiddenRule.Fragment.Group

/-
  The meaning of fragments on a board. A fragment is asked with an argument, a
  cell or a group of cells, and answers yes or no, or with groups. Its answer
  depends on its kind, its attribute, and the meanings of its parts. A
  question that does not fit the kind is answered no, and so is one to a rule
  whose parts do not fit.
-/

namespace HiddenRule

/-- What a fragment is asked about. -/
inductive Argument where
  | nothing
  | cell (index : Nat)
  | group (cells : List Nat)
  deriving DecidableEq, Repr

/-- What a fragment answers. -/
inductive Outcome where
  | verdict (holds : Bool)
  | groups (cells : List (List Nat))
  deriving DecidableEq, Repr

namespace Outcome

/-- The answer as yes or no, if it is one. -/
def verdict? : Outcome → Option Bool
  | verdict holds => some holds
  | groups _ => none

/-- The answer as groups, if it is one. -/
def groups? : Outcome → Option (List (List Nat))
  | verdict _ => none
  | groups cells => some cells

end Outcome

/-- What a fragment answers to every question, on one board. -/
abbrev Meaning := Argument → Outcome

namespace Meaning

/-- Whether the answer to no particular question is yes. -/
def holds (m : Meaning) : Bool := (m .nothing).verdict?.getD false

/-- Whether the answer for a cell is yes. -/
def holdsAt (m : Meaning) (i : Nat) : Bool := (m (.cell i)).verdict?.getD false

/-- Whether the answer for a group is yes. -/
def holdsOn (m : Meaning) (cells : List Nat) : Bool := (m (.group cells)).verdict?.getD false

/-- The groups answered to no particular question. -/
def groups (m : Meaning) : List (List Nat) := (m .nothing).groups?.getD []

end Meaning

/-- What a rule says, given the meanings of its parts. -/
def RuleKind.judge : RuleKind → List Meaning → Bool
  | .every, [noun, pred] => Cell.all.all fun i => !noun.holdsAt i || pred.holdsAt i
  | .exists, [noun, pred] => Cell.all.any fun i => noun.holdsAt i && pred.holdsAt i
  | .noneIs, [noun, pred] => Cell.all.all fun i => !noun.holdsAt i || !pred.holdsAt i
  | .everyGroup, [group, pred] => group.groups.all fun cells => cells.isEmpty || pred.holdsOn cells
  | .rowFilled, [noun] => Cell.lines.any fun r => (Cell.inRow r).all noun.holdsAt
  | .columnFilled, [noun] => Cell.lines.any fun c => (Cell.inColumn c).all noun.holdsAt
  | _, _ => false

/-- Whether a cell has the color at a position. -/
def Board.hasColorAt (b : Board) (choice i : Nat) : Bool :=
  (Color.ofIndex? choice).any fun c => b.hasColor i c

/-- Whether a cell has the shape at a position. -/
def Board.hasShapeAt (b : Board) (choice i : Nat) : Bool :=
  (Shape.ofIndex? choice).any fun s => b.hasShape i s

/-- Whether a noun names a cell. -/
def NounKind.judge (b : Board) (choice i : Nat) : NounKind → Bool
  | .color => b.hasColorAt choice i
  | .shape => b.hasShapeAt choice i
  | .row => b.isOccupied i && Cell.row i == choice
  | .column => b.isOccupied i && Cell.column i == choice
  | .blank => b.isBlank i

/-- Whether a noun predicate is true of a cell, given the meanings of its
parts. The noun of `adjacentTo` is the first of them. -/
def NounPredKind.judge (b : Board) (choice : Nat) (parts : List Meaning) (i : Nat) :
    NounPredKind → Bool
  | .color => b.hasColorAt choice i
  | .shape => b.hasShapeAt choice i
  | .row => Cell.row i == choice
  | .column => Cell.column i == choice
  | .adjacentTo => parts.head?.any fun noun => (Cell.neighbors i).any noun.holdsAt

/-- The cell asked about, if it lies on the board. -/
def Argument.cell? : Argument → Option Nat
  | cell i => if i < Cell.count then some i else none
  | _ => none

/-- The group asked about, empty if there is none. -/
def Argument.cells : Argument → List Nat
  | group cells => cells
  | _ => []

/-- The meaning of a kind, given the attribute and the meanings of the parts. -/
def Kind.meaning (b : Board) (choice : Nat) (parts : List Meaning) : Kind → Meaning
  | rule kind, _ => .verdict (kind.judge parts)
  | noun kind, argument => .verdict (argument.cell?.any fun i => kind.judge b choice i)
  | nounPred kind, argument => .verdict (argument.cell?.any fun i => kind.judge b choice parts i)
  | group kind, _ => .groups (b.groups kind)
  | groupPred kind, argument => .verdict (b.satisfies argument.cells kind)

/-- The meaning of a fragment without a kind: always yes, and without groups. -/
def Category.placeholderMeaning (c : Category) : Meaning := fun _ =>
  if c = .group then .groups [] else .verdict true

namespace Fragment

mutual

/-- The meaning of a fragment on a board. -/
def meaning (b : Board) : Fragment → Meaning
  | node label parts =>
    match label.kind with
    | some kind => kind.meaning b label.choice (meanings b parts)
    | none => label.category.placeholderMeaning

/-- The meanings of fragments on a board. -/
def meanings (b : Board) : List Fragment → List Meaning
  | [] => []
  | f :: rest => meaning b f :: meanings b rest

end

/-- Whether a fragment is true of a board. -/
def holds (f : Fragment) (b : Board) : Bool := (f.meaning b).holds

/-- Whether a fragment is true of a cell of a board. -/
def holdsAt (f : Fragment) (b : Board) (i : Nat) : Bool := (f.meaning b).holdsAt i

/-- Whether a fragment is true of a group of cells of a board. -/
def holdsOn (f : Fragment) (b : Board) (cells : List Nat) : Bool := (f.meaning b).holdsOn cells

/-- The groups a fragment picks on a board. -/
def groups (f : Fragment) (b : Board) : List (List Nat) := (f.meaning b).groups

theorem meanings_eq_map (b : Board) (parts : List Fragment) : meanings b parts = parts.map (meaning b) := by
  induction parts with
  | nil => rfl
  | cons f rest ih => rw [meanings, ih, List.map_cons]

end Fragment

end HiddenRule
