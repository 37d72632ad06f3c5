import HiddenRule.Cell

/-
  Clusters: lists of cells that hang together edge by edge. The search keeps
  a frontier of cells already reached and the cells still waiting, and moves
  from the second to the first whatever shares an edge with the cell it looks
  at; the two lists together get shorter with every cell looked at.
-/

namespace HiddenRule.Cell

/-- Whether a search that looks at one cell reaches another: itself, or one
that shares an edge with it. -/
def touches (i j : Nat) : Bool := i == j || adjacent i j

/-- The waiting cells that a look at one cell reaches. -/
def near (i : Nat) (waiting : List Nat) : List Nat := waiting.filter (touches i)

/-- The waiting cells that a look at one cell leaves waiting. -/
def far (i : Nat) (waiting : List Nat) : List Nat := waiting.filter fun j => !touches i j

/-- A look at one cell reaches a waiting cell or leaves it waiting. -/
theorem length_near_add_length_far (i : Nat) (waiting : List Nat) :
    (near i waiting).length + (far i waiting).length = waiting.length := by
  induction waiting with
  | nil => rfl
  | cons j rest ih =>
    simp only [near, far, List.filter_cons] at ih ⊢
    cases touches i j <;> simp <;> omega

/-- The waiting cells that no search from the frontier reaches. -/
def unreached : (frontier waiting : List Nat) → List Nat
  | [], waiting => waiting
  | i :: frontier, waiting => unreached (near i waiting ++ frontier) (far i waiting)
  termination_by frontier waiting => frontier.length + waiting.length
  decreasing_by
    have := length_near_add_length_far i waiting
    simp only [List.length_append, List.length_cons]
    omega

/-- Whether the listed cells form one cluster. The empty list does; a list
with a number that names no cell does not. -/
def connected : List Nat → Bool
  | [] => true
  | i :: rest => (i :: rest).all (· < count) && (unreached [i] rest).isEmpty

end HiddenRule.Cell
