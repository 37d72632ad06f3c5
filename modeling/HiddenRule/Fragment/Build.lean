import HiddenRule.Fragment
import HiddenRule.Grammar.Basic
import HiddenRule.Rule.Error
import HiddenRule.Skeleton
import HiddenRule.Text.Template

/-
  Building fragments from skeletons. A node looks up its alternative, compares
  the categories of its children with the slots, builds the children left to
  right, and last looks up its attribute; the first of these to fail gives the
  error. The texts come from the alternative's templates.
-/

namespace HiddenRule

/-- The template of the singular text, empty if there is none. -/
def Alternative.singularTemplate (a : Alternative) : String := a.singular.getD ""

/-- The template of the plural text; the singular one stands in for a missing
one. -/
def Alternative.pluralTemplate (a : Alternative) : String := a.plural.getD a.singularTemplate

/-- The chosen attribute: none if the alternative has no attributes, an error
if it has none at that position. -/
def Alternative.chosenAttribute (a : Alternative) (c : Category) (index choice : Nat) :
    Except RuleError (Option String) :=
  match a.attributes with
  | none => .ok none
  | some texts =>
    match texts[choice]? with
    | some text => .ok (some text)
    | none => .error (.attributeOutOfRange c index choice texts.length)

namespace Fragment

/-- A template filled in with the texts of the parts and of the attribute. -/
def describe (template : String) (parts : List Fragment) (chosen : Option String) : String :=
  String.ofList <| Text.fill (parts.map fun f => (f.singular.toList, f.plural.toList))
    (chosen.map String.toList) template.toList

/-- The fragment of an alternative, made of given parts. -/
def ofParts (a : Alternative) (c : Category) (choice : Nat) (parts : List Fragment)
    (chosen : Option String) : Fragment :=
  node
    { category := c, name := a.name, kind := a.kind, choice := choice,
      singular := describe a.singularTemplate parts chosen,
      plural := describe a.pluralTemplate parts chosen }
    parts

mutual

/-- The fragment that a skeleton names in a grammar. -/
def build (g : Grammar) : Skeleton → Except RuleError Fragment
  | .node c index children choice =>
    match g.alternative? c index with
    | none => .error (.missingAlternative c index)
    | some a =>
      if children.map Skeleton.category = a.slots then do
        let parts ← buildAll g children
        let chosen ← a.chosenAttribute c index choice
        return ofParts a c choice parts chosen
      else .error (.slotMismatch c index a.slots (children.map Skeleton.category))

/-- The fragments that skeletons name in a grammar. -/
def buildAll (g : Grammar) : List Skeleton → Except RuleError (List Fragment)
  | [] => .ok []
  | s :: rest => do
    let f ← build g s
    let others ← buildAll g rest
    return f :: others

end

end Fragment

end HiddenRule
