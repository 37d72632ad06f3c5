import HiddenRule.Grammar.Kind

/-
  Skeletons: the choices that make up a rule, as a tree. Each node names an
  alternative by its category and its position in a grammar, and the position
  of the chosen attribute among the alternative's attributes.
-/

namespace HiddenRule

/-- A tree of choices: a category, the position of the alternative, the
children, and the position of the attribute, 0 where there is none to
choose. -/
inductive Skeleton where
  | node (category : Category) (index : Nat) (children : List Skeleton) (choice : Nat)

namespace Skeleton

/-- The category of the root. -/
def category : Skeleton → Category
  | node c _ _ _ => c

/-- The position of the root's alternative. -/
def index : Skeleton → Nat
  | node _ i _ _ => i

/-- The trees below the root, in order. -/
def children : Skeleton → List Skeleton
  | node _ _ parts _ => parts

/-- The position of the root's attribute. -/
def choice : Skeleton → Nat
  | node _ _ _ a => a

/-- A tree of one node. -/
def leaf (c : Category) (index choice : Nat) : Skeleton := node c index [] choice

mutual

/-- The nodes of a tree, each before the nodes below it: category, position
of the alternative, position of the attribute. -/
def nodes : Skeleton → List (Category × Nat × Nat)
  | node c i parts a => (c, i, a) :: nodesOfAll parts

/-- The nodes of the trees, one tree after the other. -/
def nodesOfAll : List Skeleton → List (Category × Nat × Nat)
  | [] => []
  | s :: rest => nodes s ++ nodesOfAll rest

end

theorem nodesOfAll_eq_flatMap (parts : List Skeleton) : nodesOfAll parts = parts.flatMap nodes := by
  induction parts with
  | nil => rfl
  | cons s rest ih => rw [nodesOfAll, ih, List.flatMap_cons]

end Skeleton

end HiddenRule
