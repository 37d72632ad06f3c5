import HiddenRule.Grammar.Basic
import HiddenRule.Skeleton

/-
  The subtrees of a skeleton, one for each of its nodes, the alternatives the
  nodes name, and induction from the parts of a skeleton to the whole.
-/

namespace HiddenRule

/-- The alternative a node names, if there is one. -/
def Grammar.chosen? (g : Grammar) (n : Skeleton) : Option Alternative := g.alternative? n.category n.index

namespace Skeleton

/-- What holds of a node whenever it holds of its parts holds of every
skeleton. -/
@[elab_as_elim]
theorem partsInduction {motive : Skeleton → Prop}
    (step : ∀ c i parts a, (∀ s ∈ parts, motive s) → motive (node c i parts a)) : ∀ s, motive s
  | node c i parts a => step c i parts a fun s _ => partsInduction step s

mutual

/-- The subtrees of a tree, itself first, each before those below it. -/
def subtrees : Skeleton → List Skeleton
  | node c i parts a => node c i parts a :: subtreesOfAll parts

/-- The subtrees of the trees, one tree after the other. -/
def subtreesOfAll : List Skeleton → List Skeleton
  | [] => []
  | s :: rest => subtrees s ++ subtreesOfAll rest

end

theorem mem_subtreesOfAll {n : Skeleton} {parts : List Skeleton} :
    n ∈ subtreesOfAll parts ↔ ∃ s ∈ parts, n ∈ s.subtrees := by
  induction parts with
  | nil => simp [subtreesOfAll]
  | cons s rest ih => simp [subtreesOfAll, ih]

theorem mem_subtrees {n s : Skeleton} : n ∈ s.subtrees ↔ n = s ∨ ∃ t ∈ s.children, n ∈ t.subtrees := by
  cases s with
  | node c i parts a => simp [subtrees, children, mem_subtreesOfAll]

theorem self_mem_subtrees (s : Skeleton) : s ∈ s.subtrees := mem_subtrees.mpr (.inl rfl)

/-- Two slots are filled by two children. -/
theorem exists_children_eq_pair {s : Skeleton} {c d : Category} (h : s.children.map category = [c, d]) :
    ∃ n m, s.children = [n, m] ∧ n.category = c ∧ m.category = d := by
  obtain ⟨n, rest, hchildren, hn, hmap⟩ := List.map_eq_cons_iff.mp h
  obtain ⟨m, rfl, hm⟩ := List.map_eq_singleton_iff.mp hmap
  exact ⟨n, m, hchildren, hn, hm⟩

end Skeleton

end HiddenRule
