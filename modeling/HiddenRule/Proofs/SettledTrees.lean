import HiddenRule.Proofs.StandardTable
import HiddenRule.Proofs.Verdicts
import Mathlib.Data.List.Sections

/-
  Trees up to the attributes that nobody asks for. A node whose alternative lists
  no attributes may carry any number in their place; it is settled at 0 here. A
  settled tree is described and judged like the tree it comes from, and those
  that can be built over the standard grammar are, below the rules, a short list.

  What is proved:
    1. `settled_eq_iff`: what two trees have in common if they are the same,
       settled.
    2. `exists_build_settled`: a tree that can be built can be built settled, with
       the same texts and the same answers.
    3. `settled_mem_trees`: the settled tree is among those of its category.
-/

namespace HiddenRule

namespace Grammar

mutual

/-- The tree with 0 for the attribute of every node that has none to choose
from. -/
def settled (g : Grammar) : Skeleton → Skeleton
  | .node c i parts choice =>
    .node c i (settledAll g parts) (if (g.alternative? c i).any fun a => a.attributes.isSome then choice else 0)

/-- The trees, each of them settled. -/
def settledAll (g : Grammar) : List Skeleton → List Skeleton
  | [] => []
  | s :: rest => settled g s :: settledAll g rest

end

/-- The settled trees of a category, of so many levels at most. -/
def trees (g : Grammar) : (levels : Nat) → Category → List Skeleton
  | 0, _ => []
  | levels + 1, c => (g.alternatives c).zipIdx.flatMap fun entry =>
    (entry.1.slots.map (g.trees levels)).sections.flatMap fun parts =>
      (List.range (max 1 entry.1.attributeCount)).map fun choice => .node c entry.2 parts choice

variable {g : Grammar}

theorem settledAll_eq_map (ss : List Skeleton) : g.settledAll ss = ss.map g.settled := by
  induction ss with
  | nil => rfl
  | cons s rest ih => rw [settledAll, ih, List.map_cons]

/-- Two trees are the same, settled, if they name the same alternatives and have
the same attributes where there are any to choose from. -/
theorem settled_eq_iff {c c' : Category} {i i' choice choice' : Nat} {ss ss' : List Skeleton} :
    g.settled (.node c i ss choice) = g.settled (.node c' i' ss' choice') ↔ c = c' ∧ i = i' ∧
      ss.map g.settled = ss'.map g.settled ∧
        ((g.alternative? c i).any (fun a => a.attributes.isSome) → choice = choice') := by
  simp only [settled, settledAll_eq_map, Skeleton.node.injEq]
  refine ⟨?_, ?_⟩
  · rintro ⟨rfl, rfl, hparts, hchoice⟩
    refine ⟨rfl, rfl, hparts, fun hsome => ?_⟩
    rwa [if_pos hsome, if_pos hsome] at hchoice
  · rintro ⟨rfl, rfl, hparts, hchoice⟩
    refine ⟨rfl, rfl, hparts, ?_⟩
    split
    · next hsome => exact hchoice hsome
    · rfl

theorem category_settled (s : Skeleton) : (g.settled s).category = s.category := by
  cases s
  rfl

theorem map_category_settledAll (ss : List Skeleton) :
    (g.settledAll ss).map Skeleton.category = ss.map Skeleton.category := by
  rw [settledAll_eq_map, List.map_map]
  exact List.map_congr_left fun s _ => category_settled s

theorem mem_trees_succ {levels : Nat} {c : Category} {s : Skeleton} :
    s ∈ g.trees (levels + 1) c ↔ ∃ i a parts choice, g.alternative? c i = some a ∧
      choice < max 1 a.attributeCount ∧
      List.Forall₂ (fun part slot => part ∈ g.trees levels slot) parts a.slots ∧ .node c i parts choice = s := by
  simp only [trees, List.mem_flatMap, List.mem_map, List.mem_range, List.mem_sections, List.forall₂_map_right_iff]
  constructor
  · rintro ⟨⟨a, i⟩, hnamed, parts, hparts, choice, hchoice, rfl⟩
    exact ⟨i, a, parts, choice, List.mem_zipIdx_iff_getElem?.mp hnamed, hchoice, hparts, rfl⟩
  · rintro ⟨i, a, parts, choice, hnamed, hchoice, hparts, rfl⟩
    exact ⟨(a, i), List.mem_zipIdx_iff_getElem?.mpr hnamed, parts, hparts, choice, hchoice, rfl⟩

end Grammar

namespace Fragment

/-- Whether two fragments cannot be told apart by their texts, or by what they
answer on any board. -/
structure Equivalent (f f' : Fragment) : Prop where
  singular : f.singular = f'.singular
  plural : f.plural = f'.plural
  meaning : ∀ b, f.meaning b = f'.meaning b

variable {g : Grammar}

/-- Trees that can be built settled, one by one, can be built settled together. -/
theorem exists_buildAll_settledAll : ∀ {ss : List Skeleton} {parts : List Fragment},
    (∀ s ∈ ss, ∀ f, build g s = .ok f → ∃ f', build g (g.settled s) = .ok f' ∧ f.Equivalent f') →
    buildAll g ss = .ok parts →
    ∃ parts', buildAll g (g.settledAll ss) = .ok parts' ∧ List.Forall₂ Equivalent parts parts'
  | [], parts, _, h => by
    rw [buildAll_nil_eq_ok_iff.mp h]
    exact ⟨[], buildAll_nil_eq_ok_iff.mpr rfl, .nil⟩
  | s :: rest, parts, heach, h => by
    obtain ⟨hfirst, hrest⟩ := List.forall_mem_cons.mp heach
    obtain ⟨f, others, hf, hothers, rfl⟩ := buildAll_cons_eq_ok_iff.mp h
    obtain ⟨f', hf', hsame⟩ := hfirst f hf
    obtain ⟨others', hothers', hsames⟩ := exists_buildAll_settledAll hrest hothers
    exact ⟨f' :: others', buildAll_cons_eq_ok_iff.mpr ⟨f', others', hf', hothers', rfl⟩, .cons hsame hsames⟩

theorem map_eq_map_of_equivalent {α : Type} {φ : Fragment → α} {parts parts' : List Fragment}
    (hφ : ∀ f f', Equivalent f f' → φ f = φ f') (h : List.Forall₂ Equivalent parts parts') :
    parts.map φ = parts'.map φ := by
  induction h with
  | nil => rfl
  | cons hfirst _ ih => rw [List.map_cons, List.map_cons, hφ _ _ hfirst, ih]

theorem describe_eq_of_equivalent {parts parts' : List Fragment} (h : List.Forall₂ Equivalent parts parts')
    (template : String) (chosen : Option String) :
    describe template parts chosen = describe template parts' chosen := by
  have htexts : parts.map (fun f => (f.singular.toList, f.plural.toList)) =
      parts'.map fun f => (f.singular.toList, f.plural.toList) :=
    map_eq_map_of_equivalent (fun f f' hsame => by rw [hsame.singular, hsame.plural]) h
  rw [describe, htexts, describe]

end Fragment

/-- A kind without attributes to choose from does not look at the attribute. -/
theorem Kind.meaning_eq_of_no_choices {kind : Kind} (h : kind.standardChoices = 0) (b : Board)
    (choice choice' : Nat) (parts : List Meaning) : kind.meaning b choice parts = kind.meaning b choice' parts := by
  cases kind with
  | rule kind => rfl
  | noun kind =>
    cases kind with
    | blank => rfl
    | _ => contradiction
  | nounPred kind =>
    cases kind with
    | adjacentTo => rfl
    | _ => contradiction
  | group kind => rfl
  | groupPred kind => rfl

namespace Fragment

/-- Over the standard grammar, equivalent parts make equivalent fragments, if
the attributes are the same where there are any to choose from. -/
theorem equivalent_ofParts {c : Category} {i choice choice' : Nat} {a : Alternative} {parts parts' : List Fragment}
    {chosen : Option String} (hnamed : Grammar.standard.alternative? c i = some a)
    (hparts : List.Forall₂ Equivalent parts parts') (hchoice : a.attributes ≠ none → choice = choice') :
    Equivalent (ofParts a c choice parts chosen) (ofParts a c choice' parts' chosen) := by
  refine ⟨describe_eq_of_equivalent hparts _ _, describe_eq_of_equivalent hparts _ _, ?_⟩
  intro b
  obtain ⟨kind, -, hstandard⟩ := Grammar.exists_isStandard hnamed
  have hmeanings : parts.map (meaning b) = parts'.map (meaning b) :=
    map_eq_map_of_equivalent (fun f f' hsame => hsame.meaning b) hparts
  simp only [ofParts, meaning, hstandard.kind_eq, meanings_eq_map, hmeanings]
  by_cases hnone : a.attributes = none
  · apply Kind.meaning_eq_of_no_choices
    rw [← hstandard.choices_eq, Alternative.attributeCount, hnone]
    rfl
  · rw [hchoice hnone]

/-- A tree that can be built over the standard grammar can be built settled, and
makes no difference then. -/
theorem exists_build_settled (s : Skeleton) : ∀ f, build Grammar.standard s = .ok f →
    ∃ f', build Grammar.standard (Grammar.standard.settled s) = .ok f' ∧ f.Equivalent f' := by
  induction s using Skeleton.partsInduction with
  | step c i ss choice ih =>
    intro f h
    obtain ⟨a, parts, chosen, hnamed, hslots, hparts, hchosen, rfl⟩ := exists_of_build_eq_ok h
    change Grammar.standard.alternative? c i = some a at hnamed
    obtain ⟨parts', hparts', hsame⟩ := exists_buildAll_settledAll ih hparts
    have hslots' := (Grammar.map_category_settledAll (g := Grammar.standard) ss).trans hslots
    rw [Grammar.settled, hnamed, Option.any_some]
    cases hattributes : a.attributes with
    | none =>
      have hchosen' : a.chosenAttribute c i 0 = .ok chosen := by
        rw [← hchosen]
        simp only [Alternative.chosenAttribute, hattributes]
      exact ⟨_, build_node hnamed hslots' hparts' hchosen',
        equivalent_ofParts hnamed hsame fun hne => absurd hattributes hne⟩
    | some texts =>
      exact ⟨_, build_node hnamed hslots' hparts' hchosen, equivalent_ofParts hnamed hsame fun _ => rfl⟩

end Fragment

/-! ## The trees of a category -/

/-- How many levels of children there are below a category. -/
def Category.standardLevels : Category → Nat
  | rule => 2
  | nounPred => 1
  | noun | group | groupPred => 0

namespace Grammar

theorem standardLevels_slot_lt {c slot : Category} {i : Nat} {a : Alternative}
    (hnamed : standard.alternative? c i = some a) (hslot : slot ∈ a.slots) :
    slot.standardLevels < c.standardLevels := by
  have htable : ∀ a ∈ standard.alternatives c, ∀ slot ∈ a.slots, slot.standardLevels < c.standardLevels := by
    cases c <;> decide
  exact htable a (List.mem_of_getElem? hnamed) slot hslot

/-- What can be built is, settled, one of the trees of its category. -/
theorem settled_mem_trees (s : Skeleton) : ∀ f levels, Fragment.build standard s = .ok f →
    s.category.standardLevels < levels → standard.settled s ∈ standard.trees levels s.category := by
  induction s using Skeleton.partsInduction with
  | step c i ss choice ih =>
    intro f levels h hlevels
    obtain ⟨a, parts, chosen, hnamed, hslots, hparts, hchosen, -⟩ := Fragment.exists_of_build_eq_ok h
    change standard.alternative? c i = some a at hnamed
    change ss.map Skeleton.category = a.slots at hslots
    obtain ⟨below, rfl⟩ : ∃ below, levels = below + 1 := ⟨levels - 1, by omega⟩
    change c.standardLevels < below + 1 at hlevels
    rw [settled]
    refine mem_trees_succ.mpr ⟨i, a, _, _, hnamed, ?_, ?_, rfl⟩
    · -- an attribute that is there is among those listed
      rw [hnamed, Option.any_some, Alternative.attributeCount]
      cases hattributes : a.attributes with
      | none => simp
      | some texts =>
        have hlt := Alternative.lt_of_chosenAttribute_eq_ok hchosen texts hattributes
        simp only [Option.isSome_some, if_true, Option.getD_some]
        change choice < texts.length at hlt
        omega
    · rw [settledAll_eq_map, ← hslots, List.forall₂_map_left_iff, List.forall₂_map_right_iff,
        List.forall₂_same]
      intro t ht
      obtain ⟨ft, hft⟩ : ∃ ft, Fragment.build standard t = .ok ft := Fragment.exists_build_of_mem hparts ht
      have hlower : t.category.standardLevels < c.standardLevels :=
        standardLevels_slot_lt hnamed (hslots ▸ List.mem_map_of_mem ht)
      exact ih t ht ft below hft (by omega)

end Grammar

end HiddenRule
