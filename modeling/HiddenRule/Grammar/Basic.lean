import HiddenRule.Grammar.Tag
import HiddenRule.Grammar.Kind

/-
  Grammars: for every category, the alternatives a fragment of that category
  is chosen from. Descriptions are templates: `%k` stands for the singular
  text of the k-th child, `$k` for its plural text, `@` for the chosen
  attribute.
-/

namespace HiddenRule

/-- Weights are numbers of 32 bits; of a larger number the low 32 bits count. -/
instance weightOfNat : Coe Nat UInt32 := ⟨UInt32.ofNat⟩

instance natOfWeight : Coe UInt32 Nat := ⟨UInt32.toNat⟩

/-- One of the choices for a fragment of some category. -/
structure Alternative where
  name : String
  /-- What the fragment means; a placeholder has no meaning and is never
  chosen. -/
  kind : Option Kind
  /-- How often the alternative is chosen, compared with the others. -/
  weight : UInt32
  /-- The categories of the children, in order. -/
  slots : List Category
  /-- The texts the attribute is chosen from, if there is one. -/
  attributes : Option (List String)
  /-- The tags that become active with the alternative, and forbid it where
  they are active already. -/
  tags : TagSet
  /-- Whether the children are chosen apart from the tags active around them. -/
  independent : Bool
  singular : Option String
  plural : Option String
  deriving DecidableEq

namespace Alternative

/-- A bare alternative: no weight, children, attributes, tags or texts. -/
def bare (name : String) (kind : Option Kind) : Alternative where
  name := name
  kind := kind
  weight := 0
  slots := []
  attributes := none
  tags := .empty
  independent := false
  singular := none
  plural := none

/-- Whether the alternative can be chosen at all. -/
def isGenerable (a : Alternative) : Bool := a.kind.isSome

/-- Whether the alternative can be chosen under the active tags. -/
def isEligible (a : Alternative) (active : TagSet) : Bool :=
  a.isGenerable && !a.tags.intersects active

/-- The number of attributes to choose from. -/
def attributeCount (a : Alternative) : Nat := (a.attributes.getD []).length

theorem weight_pos_iff (a : Alternative) : 0 < a.weight ↔ 0 < a.weight.toNat := UInt32.lt_iff_toNat_lt

end Alternative

/-- A grammar: the alternatives of every category, in order. -/
structure Grammar where
  alternatives : Category → List Alternative

namespace Grammar

/-- The grammar without alternatives. -/
def empty : Grammar := ⟨fun _ => []⟩

/-- The alternative at a position, if there is one. -/
def alternative? (g : Grammar) (c : Category) (i : Nat) : Option Alternative := (g.alternatives c)[i]?

/-- The grammar with one more alternative, the last of its category. -/
def add (g : Grammar) (c : Category) (a : Alternative) : Grammar :=
  ⟨fun d => if d = c then g.alternatives d ++ [a] else g.alternatives d⟩

/-- The grammar with the listed alternatives added, one after the other. -/
def addAll (g : Grammar) (entries : List (Category × Alternative)) : Grammar :=
  entries.foldl (fun h entry => h.add entry.1 entry.2) g

theorem alternatives_add (g : Grammar) (c d : Category) (a : Alternative) :
    (g.add c a).alternatives d = g.alternatives d ++ if d = c then [a] else [] := by
  by_cases h : d = c <;> simp [add, h]

end Grammar

end HiddenRule
