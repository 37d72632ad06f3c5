import HiddenRule.Fragment.Build
import HiddenRule.Fragment.Meaning

/-
  Rules: a fragment of the category of rules, kept with the skeleton it was
  built from. A rule has a text and judges boards.
-/

namespace HiddenRule

/-- A rule: the skeleton and the fragment built from it. -/
structure Rule where
  skeleton : Skeleton
  root : Fragment

namespace Rule

/-- The rule that a skeleton names in a grammar. -/
def build (g : Grammar) (s : Skeleton) : Except RuleError Rule :=
  if s.category = .rule then do
    let root ← Fragment.build g s
    return ⟨s, root⟩
  else .error (.notARule s.category)

/-- The text of the rule. -/
def description (r : Rule) : String := r.root.singular

/-- The text of the rule where several things are meant. -/
def descriptionPlural (r : Rule) : String := r.root.plural

/-- Whether a board follows the rule. -/
def judge (r : Rule) (b : Board) : Bool := r.root.holds b

end Rule

end HiddenRule
