import HiddenRule.Grammar.Kind

/-
  The ways in which a rule cannot be drawn from a grammar or built from a
  skeleton. Each points at a grammar that does not fit the skeleton, or that
  leaves nothing to choose.
-/

namespace HiddenRule

/-- The reason for not drawing or building a rule. -/
inductive RuleError where
  /-- No alternative of the category can be chosen under the active tags. -/
  | noEligibleAlternative (category : Category)
  /-- The category has no alternative at the position. -/
  | missingAlternative (category : Category) (index : Nat)
  /-- The children are not of the categories that the alternative asks for. -/
  | slotMismatch (category : Category) (index : Nat) (expected found : List Category)
  /-- The alternative has no attribute at the position. -/
  | attributeOutOfRange (category : Category) (index choice choices : Nat)
  /-- The root is a fragment of another category than rules. -/
  | notARule (category : Category)
  deriving DecidableEq, Repr

/-- The names of categories between brackets. -/
def Category.listText (cs : List Category) : String :=
  "[" ++ ", ".intercalate (cs.map Category.name) ++ "]"

/-- The words of a rule error. -/
def RuleError.message : RuleError → String
  | noEligibleAlternative category => "No eligible alternative for '" ++ category.name ++ "'"
  | missingAlternative category index =>
    "Alternative " ++ toString index ++ " of '" ++ category.name ++ "' not found"
  | slotMismatch category index expected found =>
    "Alternative " ++ toString index ++ " of '" ++ category.name ++ "' expects children " ++
      Category.listText expected ++ ", found " ++ Category.listText found
  | attributeOutOfRange category index choice choices =>
    "Attribute " ++ toString choice ++ " out of range for alternative " ++ toString index ++ " of '" ++
      category.name ++ "' (" ++ toString choices ++ " choices)"
  | notARule category => "Root fragment is a '" ++ category.name ++ "', not a rule"

end HiddenRule
