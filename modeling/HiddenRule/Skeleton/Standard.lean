import HiddenRule.Skeleton

/-
  Skeletons over the standard grammar, by the names of its rules. A noun, a
  predicate or a group is given by the position of its alternative.
-/

namespace HiddenRule.Skeleton

/-- A noun with its attribute. -/
def noun (index choice : Nat) : Skeleton := leaf .noun index choice

/-- The empty cells. -/
def blank : Skeleton := noun 4 0

/-- A noun predicate with its attribute. -/
def pred (index choice : Nat) : Skeleton := leaf .nounPred index choice

/-- Next to a cell of a noun. -/
def adjacentTo (n : Skeleton) : Skeleton := node .nounPred 4 [n] 0

/-- A group. -/
def group (index : Nat) : Skeleton := leaf .group index 0

/-- A group predicate. -/
def groupPred (index : Nat) : Skeleton := leaf .groupPred index 0

/-- Every cell of a noun satisfies a predicate. -/
def every (n p : Skeleton) : Skeleton := node .rule 0 [n, p] 0

/-- Some cell of a noun satisfies a predicate. -/
def someIs (n p : Skeleton) : Skeleton := node .rule 1 [n, p] 0

/-- No cell of a noun satisfies a predicate. -/
def noneIs (n p : Skeleton) : Skeleton := node .rule 2 [n, p] 0

/-- Every group satisfies a group predicate. -/
def everyGroup (g p : Skeleton) : Skeleton := node .rule 3 [g, p] 0

/-- Some row consists of cells of a noun. -/
def rowFilled (n : Skeleton) : Skeleton := node .rule 4 [n] 0

/-- Some column consists of cells of a noun. -/
def columnFilled (n : Skeleton) : Skeleton := node .rule 5 [n] 0

end HiddenRule.Skeleton
