import HiddenRule.Grammar.Draw
import HiddenRule.Rule

/-
  Drawing rules: a skeleton is drawn from a grammar and built over it.
-/

namespace HiddenRule.Rule

/-- A random rule of a grammar, of bounded depth. -/
def draw (g : Grammar) (depth : Nat) : Draw (Except RuleError Rule) := do
  match ← g.drawRule depth with
  | .error e => return .error e
  | .ok s => return build g s

end HiddenRule.Rule
