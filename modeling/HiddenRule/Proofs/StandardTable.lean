import HiddenRule.Grammar.Standard
import HiddenRule.Proofs.TagThreads

/-
  The standard grammar by kinds. It has one alternative for each kind of
  meaning, so the kind settles what the alternative asks of its children, which
  tags it carries, and how many attributes there are to choose from.

  What is proved:
    1. `exists_isStandard`: every alternative of the standard grammar is that of
       its kind.
    2. `exists_drawnAs_of_threads`: a tree that threads tags has a kind that is
       not excluded by the tags around it, and its children thread its tags.
    3. `drawable_of_threads`: the rules that can be drawn, by what they are
       about: cells, groups or lines.
-/

namespace HiddenRule

namespace Kind

/-- The categories of the children. -/
def standardSlots : Kind → List Category
  | rule .everyGroup => [.group, .groupPred]
  | rule .rowFilled => [.noun]
  | rule .columnFilled => [.noun]
  | rule _ => [.noun, .nounPred]
  | nounPred .adjacentTo => [.noun]
  | _ => []

/-- The tags: what the kind speaks of. -/
def standardTags : Kind → TagSet
  | rule .rowFilled | rule .columnFilled => ⟨false, false, true⟩
  | rule _ => ⟨false, false, false⟩
  | noun .color | nounPred .color | group .sameColor => ⟨true, false, false⟩
  | noun .shape | nounPred .shape | group .sameShape => ⟨false, true, false⟩
  | noun .blank | group .identical => ⟨true, true, false⟩
  | noun _ | nounPred _ => ⟨false, false, true⟩
  | group .allSymbols => ⟨false, false, false⟩
  | group _ => ⟨false, false, true⟩
  | groupPred .sameColor | groupPred .differentColors => ⟨true, false, false⟩
  | groupPred .sameShape | groupPred .differentShapes => ⟨false, true, false⟩
  | groupPred .connected => ⟨false, false, true⟩
  | groupPred _ => ⟨true, true, false⟩

/-- The number of attributes. -/
def standardChoices : Kind → Nat
  | noun .blank => 0
  | noun _ => 3
  | nounPred .adjacentTo => 0
  | nounPred _ => 3
  | _ => 0

end Kind

/-- Whether an alternative is that of a kind. The children of a predicate of
adjacency are chosen apart, and the group predicate `identical` is never
chosen. -/
structure Alternative.IsStandard (a : Alternative) (kind : Kind) : Prop where
  kind_eq : a.kind = some kind
  slots_eq : a.slots = kind.standardSlots
  tags_eq : a.tags = kind.standardTags
  choices_eq : a.attributeCount = kind.standardChoices
  independent_eq : a.independent = decide (kind = .nounPred .adjacentTo)
  weight_pos_iff : 0 < a.weight ↔ kind ≠ .groupPred .identical

namespace Grammar

/-- Every alternative of the standard grammar is that of a kind of its
category. -/
theorem exists_isStandard {c : Category} {i : Nat} {a : Alternative}
    (h : standard.alternative? c i = some a) : ∃ kind : Kind, kind.category = c ∧ a.IsStandard kind := by
  have htable : ∀ a ∈ standard.alternatives c, ∃ kind ∈ a.kind, kind.category = c ∧
      a.slots = kind.standardSlots ∧ a.tags = kind.standardTags ∧
      a.attributeCount = kind.standardChoices ∧
      a.independent = decide (kind = .nounPred .adjacentTo) ∧
      (0 < a.weight ↔ kind ≠ .groupPred .identical) := by
    cases c <;> decide
  obtain ⟨kind, hkind, hcategory, hslots, htags, hchoices, hindependent, hweight⟩ :=
    htable a (List.mem_of_getElem? h)
  exact ⟨kind, hcategory, hkind, hslots, htags, hchoices, hindependent, hweight⟩

end Grammar

/-! ## What can be drawn -/

namespace Skeleton

/-- The kind of meaning that a node has over the standard grammar. -/
def standardKind? (s : Skeleton) : Option Kind := (Grammar.standard.chosen? s).bind Alternative.kind

/-- A node of a kind that can be drawn under the active tags. -/
structure DrawnAs (n : Skeleton) (kind : Kind) (active : TagSet) : Prop where
  kind_eq : n.standardKind? = some kind
  excluded : kind.standardTags.intersects active = false
  choice_lt : n.choice < max 1 kind.standardChoices

/-- A noun predicate that can be drawn under the active tags. The noun of an
adjacency does not speak of position. -/
inductive DrawnPred (m : Skeleton) (active : TagSet) : NounPredKind → Prop where
  | plain {kind : NounPredKind} : kind ≠ .adjacentTo → m.DrawnAs (.nounPred kind) active →
    DrawnPred m active kind
  | adjacentTo {n : Skeleton} {kind : NounKind} : m.DrawnAs (.nounPred .adjacentTo) active →
    m.children = [n] → n.DrawnAs (.noun kind) (.single .position) → DrawnPred m active .adjacentTo

/-- A rule that can be drawn over the standard grammar. -/
inductive Drawable (s : Skeleton) : Prop where
  | cells {kind : RuleKind} {n m : Skeleton} {nounKind : NounKind} {predKind : NounPredKind} :
    kind ∈ [RuleKind.every, .exists, .noneIs] → s.standardKind? = some (.rule kind) → s.children = [n, m] →
    n.DrawnAs (.noun nounKind) .empty → m.DrawnPred (Kind.noun nounKind).standardTags predKind → Drawable s
  | groups {n m : Skeleton} {groupKind : GroupKind} {predKind : GroupPredKind} :
    s.standardKind? = some (.rule .everyGroup) → s.children = [n, m] →
    n.DrawnAs (.group groupKind) .empty →
    m.DrawnAs (.groupPred predKind) (Kind.group groupKind).standardTags → predKind ≠ .identical → Drawable s
  | lines {kind : RuleKind} {n : Skeleton} {nounKind : NounKind} :
    kind ∈ [RuleKind.rowFilled, .columnFilled] → s.standardKind? = some (.rule kind) → s.children = [n] →
    n.DrawnAs (.noun nounKind) (.single .position) → Drawable s

end Skeleton

namespace Grammar

variable {n s : Skeleton} {active after : TagSet}

/-- A tree that threads tags has a kind that can be drawn under them, and
children that thread the tags of the kind. -/
theorem exists_drawnAs_of_threads (h : standard.Threads n active after) :
    ∃ kind : Kind, kind.category = n.category ∧ kind ≠ .groupPred .identical ∧ n.DrawnAs kind active ∧
      n.children.map Skeleton.category = kind.standardSlots ∧
      standard.ThreadsAll
        (if kind = .nounPred .adjacentTo then some (apart (active.union kind.standardTags)) else none)
        n.children (active.union kind.standardTags) after := by
  cases n with
  | node c i parts choice =>
    obtain ⟨a, hfits, hexcluded, hparts⟩ := h
    obtain ⟨kind, hcategory, hstandard⟩ := exists_isStandard hfits.named
    have hchoice := hfits.choice
    rw [hstandard.tags_eq] at hexcluded hparts
    rw [hstandard.choices_eq] at hchoice
    rw [Alternative.reaching, hstandard.tags_eq, hstandard.independent_eq] at hparts
    simp only [decide_eq_true_eq] at hparts
    refine ⟨kind, hcategory, hstandard.weight_pos_iff.mp hfits.weighted, ⟨?_, hexcluded, ?_⟩,
      hfits.slots.trans hstandard.slots_eq, hparts⟩
    · rw [Skeleton.standardKind?, hfits.named, Option.bind_some, hstandard.kind_eq]
    · split at hchoice <;> omega

/-- Without children, the tags are handed on as they are. -/
theorem eq_of_threadsAll_no_children {reaching : Option TagSet} {parts : List Skeleton}
    (hnone : parts.map Skeleton.category = []) (h : standard.ThreadsAll reaching parts active after) :
    after = active := by
  rw [List.map_eq_nil_iff.mp hnone] at h
  exact h

theorem noun_of_threads (hcategory : n.category = .noun) (h : standard.Threads n active after) :
    ∃ kind, n.DrawnAs (.noun kind) active ∧ after = active.union (Kind.noun kind).standardTags := by
  obtain ⟨kind, hkind, -, hdrawn, hslots, hparts⟩ := exists_drawnAs_of_threads h
  rw [hcategory] at hkind
  cases kind with
  | noun kind => exact ⟨kind, hdrawn, eq_of_threadsAll_no_children hslots hparts⟩
  | _ => contradiction

theorem group_of_threads (hcategory : n.category = .group) (h : standard.Threads n active after) :
    ∃ kind, n.DrawnAs (.group kind) active ∧ after = active.union (Kind.group kind).standardTags := by
  obtain ⟨kind, hkind, -, hdrawn, hslots, hparts⟩ := exists_drawnAs_of_threads h
  rw [hcategory] at hkind
  cases kind with
  | group kind => exact ⟨kind, hdrawn, eq_of_threadsAll_no_children hslots hparts⟩
  | _ => contradiction

theorem groupPred_of_threads (hcategory : n.category = .groupPred) (h : standard.Threads n active after) :
    ∃ kind, n.DrawnAs (.groupPred kind) active ∧ kind ≠ .identical := by
  obtain ⟨kind, hkind, hne, hdrawn, -, -⟩ := exists_drawnAs_of_threads h
  rw [hcategory] at hkind
  cases kind with
  | groupPred kind => exact ⟨kind, hdrawn, fun heq => hne (heq ▸ rfl)⟩
  | _ => contradiction

theorem nounPred_of_threads (hcategory : n.category = .nounPred) (h : standard.Threads n active after) :
    ∃ kind, n.DrawnPred active kind := by
  obtain ⟨kind, hkind, -, hdrawn, hslots, hparts⟩ := exists_drawnAs_of_threads h
  rw [hcategory] at hkind
  cases kind with
  | nounPred kind =>
    by_cases hadjacent : kind = .adjacentTo
    · subst hadjacent
      obtain ⟨m, hchildren, hm⟩ := List.map_eq_singleton_iff.mp hslots
      -- the tag of position is the adjacency's own, so it reaches the noun
      have hapart : apart (active.union (Kind.nounPred .adjacentTo).standardTags) = .single .position := by
        rw [apart, TagSet.contains_union]
        exact if_pos (Bool.or_true _)
      rw [hchildren, if_pos rfl, hapart, threadsAll_apart] at hparts
      obtain ⟨⟨last, hnoun⟩, -⟩ := hparts
      obtain ⟨nounKind, hdrawnNoun, -⟩ := noun_of_threads hm hnoun
      exact ⟨.adjacentTo, .adjacentTo hdrawn hchildren hdrawnNoun⟩
    · exact ⟨kind, .plain hadjacent hdrawn⟩
  | _ => contradiction

/-- What is drawn as a rule is about cells, groups or lines. -/
theorem drawable_of_threads (hrule : s.category = .rule) (h : standard.Threads s .empty after) :
    s.Drawable := by
  obtain ⟨kind, hkind, -, hdrawn, hslots, hparts⟩ := exists_drawnAs_of_threads h
  rw [hrule] at hkind
  cases kind with
  | rule kind =>
    cases kind with
    | every | «exists» | noneIs =>
      obtain ⟨n, m, hchildren, hn, hm⟩ := Skeleton.exists_children_eq_pair hslots
      rw [hchildren] at hparts
      obtain ⟨between, hnoun, last, hpred, -⟩ := hparts
      obtain ⟨nounKind, hdrawnNoun, rfl⟩ := noun_of_threads hn hnoun
      obtain ⟨predKind, hdrawnPred⟩ := nounPred_of_threads hm hpred
      exact .cells (by decide) hdrawn.kind_eq hchildren hdrawnNoun hdrawnPred
    | everyGroup =>
      obtain ⟨n, m, hchildren, hn, hm⟩ := Skeleton.exists_children_eq_pair hslots
      rw [hchildren] at hparts
      obtain ⟨between, hgroup, last, hpred, -⟩ := hparts
      obtain ⟨groupKind, hdrawnGroup, rfl⟩ := group_of_threads hn hgroup
      obtain ⟨predKind, hdrawnPred, hne⟩ := groupPred_of_threads hm hpred
      exact .groups hdrawn.kind_eq hchildren hdrawnGroup hdrawnPred hne
    | rowFilled | columnFilled =>
      obtain ⟨n, hchildren, hn⟩ := List.map_eq_singleton_iff.mp hslots
      rw [hchildren] at hparts
      obtain ⟨between, hnoun, -⟩ := hparts
      obtain ⟨nounKind, hdrawnNoun, -⟩ := noun_of_threads hn hnoun
      exact .lines (by decide) hdrawn.kind_eq hchildren hdrawnNoun
  | _ => contradiction

end Grammar

end HiddenRule
