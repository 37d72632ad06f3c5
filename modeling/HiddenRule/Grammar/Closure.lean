import HiddenRule.Grammar.Basic

/-
  Closed grammars. In a closed grammar every alternative is listed under the
  category its meaning belongs to, every category that a child is taken from
  has alternatives, and so has the category of rules. Otherwise the check
  reports the first fault: category by category, alternative by alternative,
  the meaning before the children, and the missing rules last.
-/

namespace HiddenRule

/-- The ways a grammar fails to be closed. -/
inductive GrammarError where
  /-- A category without alternatives, and what takes a fragment from it. -/
  | emptyCategory (category : Category) (referencedBy : String)
  /-- An alternative listed under a category its meaning does not belong to. -/
  | categoryMismatch (name : String) (listed evaluates : Category)
  deriving DecidableEq, Repr

/-- The words of a grammar error. -/
def GrammarError.message : GrammarError → String
  | emptyCategory category referencedBy =>
    "category '" ++ category.name ++ "' has no alternatives but is referenced by " ++ referencedBy
  | categoryMismatch name listed evaluates =>
    "alternative '" ++ name ++ "' listed under '" ++ listed.name ++ "' evaluates as '" ++
      evaluates.name ++ "'"

namespace Grammar

/-- The fault of an alternative whose meaning belongs elsewhere. -/
def kindFaults (c : Category) (a : Alternative) : List GrammarError :=
  match a.kind with
  | some kind => if kind.category = c then [] else [.categoryMismatch a.name c kind.category]
  | none => []

/-- The faults of an alternative's slots, left to right. -/
def slotFaults (g : Grammar) (c : Category) (a : Alternative) : List GrammarError :=
  (a.slots.filter fun slot => (g.alternatives slot).isEmpty).map fun slot =>
    .emptyCategory slot (c.name ++ "/" ++ a.name)

/-- The faults of the alternatives of a category. -/
def categoryFaults (g : Grammar) (c : Category) : List GrammarError :=
  (g.alternatives c).flatMap fun a => kindFaults c a ++ g.slotFaults c a

/-- The fault of a grammar without rules. -/
def rootFaults (g : Grammar) : List GrammarError :=
  if (g.alternatives .rule).isEmpty then [.emptyCategory .rule "the root"] else []

/-- All faults of a grammar, in the order in which they are reported. -/
def faults (g : Grammar) : List GrammarError := Category.all.flatMap g.categoryFaults ++ g.rootFaults

/-- Reports the first fault of a grammar. -/
def check (g : Grammar) : Except GrammarError Unit :=
  match g.faults with
  | [] => .ok ()
  | fault :: _ => .error fault

end Grammar

end HiddenRule
