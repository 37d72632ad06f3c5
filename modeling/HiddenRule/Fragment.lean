import HiddenRule.Grammar.Kind

/-
  Fragments: the parts of a rule that can be described and judged. A fragment
  carries its texts and its kind of meaning, and the fragments it is made of.
-/

namespace HiddenRule

/-- What a fragment carries apart from its parts. -/
structure Fragment.Label where
  category : Category
  /-- The name of the alternative that was chosen. -/
  name : String
  /-- The kind of meaning; a placeholder has none. -/
  kind : Option Kind
  /-- The position of the chosen attribute. -/
  choice : Nat
  singular : String
  plural : String
  deriving DecidableEq

/-- A fragment: its label and the fragments it is made of. -/
inductive Fragment where
  | node (label : Fragment.Label) (children : List Fragment)

namespace Fragment

/-- What the fragment carries apart from its parts. -/
def label : Fragment → Label
  | node l _ => l

/-- The fragments it is made of, in order. -/
def children : Fragment → List Fragment
  | node _ parts => parts

/-- The category of the fragment. -/
def category (f : Fragment) : Category := f.label.category

/-- The name of the alternative that was chosen. -/
def name (f : Fragment) : String := f.label.name

/-- The kind of meaning, if the fragment has one. -/
def kind (f : Fragment) : Option Kind := f.label.kind

/-- The text of the fragment. -/
def singular (f : Fragment) : String := f.label.singular

/-- The text of the fragment where several things are meant. -/
def plural (f : Fragment) : String := f.label.plural

/-- The fragment that a path of child positions leads to. -/
def at? : Fragment → List Nat → Option Fragment
  | f, [] => some f
  | f, i :: path =>
    match f.children[i]? with
    | some part => part.at? path
    | none => none

end Fragment

end HiddenRule
