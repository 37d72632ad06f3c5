import HiddenRule.Grammar.Basic
import HiddenRule.Random.Draw
import HiddenRule.Rule.Error
import HiddenRule.Skeleton

/-
  Drawing skeletons from a grammar. A fragment chooses one of its category's
  alternatives, by weight, among those the active tags allow; the tags of the
  alternative become active. Its children follow in order, each under the tags
  active after the one before it, and the attribute comes last. The children
  of an independent alternative are chosen apart: only the tag of position
  reaches them, and none of their tags gets out.
-/

namespace HiddenRule.Grammar

/-- The alternatives of a category with their positions. -/
def numbered (g : Grammar) (c : Category) : List (Nat × Alternative) :=
  (g.alternatives c).zipIdx.map fun entry => (entry.2, entry.1)

/-- The alternatives that can be chosen under the active tags, with their
positions and weights. -/
def candidates (g : Grammar) (c : Category) (active : TagSet) : List ((Nat × Alternative) × Nat) :=
  ((g.numbered c).filter fun entry => entry.2.isEligible active).map fun entry =>
    (entry, entry.2.weight.toNat)

/-- The tags that reach children chosen apart. -/
def apart (tags : TagSet) : TagSet := if tags.contains .position then .single .position else .empty

/-- The children of an alternative, given how one fragment is drawn: each
under the tags active after the one before it, or all under the tags of
children chosen apart, if there are such tags. -/
def drawChildren (one : Category → TagSet → Draw (Except RuleError (Skeleton × TagSet)))
    (reaching : Option TagSet) :
    List Category → TagSet → Draw (Except RuleError (List Skeleton × TagSet))
  | [], tags => return .ok ([], tags)
  | slot :: rest, tags => do
    match ← one slot (reaching.getD tags) with
    | .error e => return .error e
    | .ok (child, after) =>
      match ← drawChildren one reaching rest (if reaching.isSome then tags else after) with
      | .error e => return .error e
      | .ok (children, last) => return .ok (child :: children, last)

/-- The position of the attribute, 0 where there is none to choose. -/
def drawChoice (a : Alternative) : Draw Nat :=
  if a.attributeCount = 0 then return 0 else Draw.lessThan a.attributeCount

/-- A fragment of a category under the active tags, and the tags active after
it. The first argument bounds the depth of the tree. -/
def draw (g : Grammar) : (depth : Nat) → Category → TagSet → Draw (Except RuleError (Skeleton × TagSet))
  | 0, _, _ => .stuck
  | depth + 1, c, active => do
    match ← Draw.weighted (g.candidates c active) with
    | none => return .error (.noEligibleAlternative c)
    | some (index, a) =>
      let tags := active.union a.tags
      let reaching := if a.independent then some (apart tags) else none
      match ← drawChildren (g.draw depth) reaching a.slots tags with
      | .error e => return .error e
      | .ok (children, after) =>
        let choice ← drawChoice a
        return .ok (.node c index children choice, after)

/-- A whole rule, with no tags active around it. -/
def drawRule (g : Grammar) (depth : Nat) : Draw (Except RuleError Skeleton) := do
  match ← g.draw depth .rule .empty with
  | .error e => return .error e
  | .ok (s, _) => return .ok s

/-- The depth that the program allows a tree. -/
def depth : Nat := 1 <<< 62

end HiddenRule.Grammar
