import HiddenRule.Proofs.Classes
import HiddenRule.Skeleton.Standard

/-
  Verdicts of the rules of the standard grammar. Every node of a built rule has
  a kind of the category it is asked for, and the children that the kind needs;
  so the meaning of the node is that of its kind, over the meanings of its
  children, and the readings follow from below.

  What is proved:
    1. `exists_of_build_standard`: the meaning of a built fragment is that of
       its kind.
    2. `names_iff`, `trueOf_iff`, `isClass_iff`, `trueOn_iff`: what stands below
       a rule is judged as it reads.
    3. `judge_iff_holds`: every rule built over the standard grammar judges
       every board as it reads.
-/

namespace HiddenRule

namespace Fragment

/-- The meaning of a fragment built over the standard grammar is that of its
kind, over the meanings of what the children build. -/
theorem exists_of_build_standard {s : Skeleton} {f : Fragment} (h : build Grammar.standard s = .ok f) :
    ∃ kind parts, s.standardKind? = some kind ∧ kind.category = s.category ∧
      s.children.map Skeleton.category = kind.standardSlots ∧
      List.Forall₂ (fun t part => build Grammar.standard t = .ok part) s.children parts ∧
      ∀ b, f.meaning b = kind.meaning b s.choice (parts.map (meaning b)) := by
  obtain ⟨a, parts, chosen, hnamed, hslots, hparts, -, rfl⟩ := exists_of_build_eq_ok h
  obtain ⟨kind, hcategory, hstandard⟩ := Grammar.exists_isStandard hnamed
  refine ⟨kind, parts, ?_, hcategory, hslots.trans hstandard.slots_eq, forall₂_of_buildAll_eq_ok hparts, ?_⟩
  · rw [Skeleton.standardKind?, hnamed, Option.bind_some, hstandard.kind_eq]
  · intro b
    simp only [ofParts, meaning, hstandard.kind_eq, meanings_eq_map]

variable {s : Skeleton} {f : Fragment} {b : Board}

/-! ## Nouns and what is said of them -/

theorem cell?_cell (p : Place) : (Argument.cell p.cell).cell? = some p.cell := if_pos p.cell_lt

theorem holdsAt_noun {choice : Nat} {parts : List Meaning} (kind : NounKind) (p : Place) :
    (Kind.meaning b choice parts (.noun kind)).holdsAt p.cell = kind.judge b choice p.cell := by
  rw [Meaning.holdsAt, Kind.meaning, cell?_cell]
  rfl

theorem holdsAt_nounPred {choice : Nat} {parts : List Meaning} (kind : NounPredKind) (p : Place) :
    (Kind.meaning b choice parts (.nounPred kind)).holdsAt p.cell = kind.judge b choice parts p.cell := by
  rw [Meaning.holdsAt, Kind.meaning, cell?_cell]
  rfl

/-- A built noun is judged at a cell as it reads at the place. -/
theorem names_iff (h : build Grammar.standard s = .ok f) (hcategory : s.category = .noun) :
    (f.meaning b).Reads (s.Names b) := by
  intro p
  obtain ⟨kind, parts, hkind, hkindcategory, -, -, hmeaning⟩ := exists_of_build_standard h
  rw [hcategory] at hkindcategory
  cases kind with
  | noun kind =>
    rw [hmeaning, holdsAt_noun, Skeleton.names_eq hkind]
    exact kind.judge_cell p
  | _ => contradiction

/-- The children of a noun predicate: one noun at most. -/
theorem children_of_nounPred {kind : NounPredKind}
    (hslots : s.children.map Skeleton.category = (Kind.nounPred kind).standardSlots) :
    s.children.length ≤ 1 ∧ ∀ t ∈ s.children, t.category = .noun := by
  have htable : (Kind.nounPred kind).standardSlots.length ≤ 1 ∧
      ∀ c ∈ (Kind.nounPred kind).standardSlots, c = .noun := by
    cases kind <;> decide
  rw [← hslots, List.length_map] at htable
  exact ⟨htable.1, fun t ht => htable.2 _ (List.mem_map_of_mem ht)⟩

/-- A built noun predicate is judged at a cell as it reads at the place. -/
theorem trueOf_iff (h : build Grammar.standard s = .ok f) (hcategory : s.category = .nounPred) :
    (f.meaning b).Reads (s.TrueOf b) := by
  intro p
  obtain ⟨kind, parts, hkind, hkindcategory, hslots, hparts, hmeaning⟩ := exists_of_build_standard h
  rw [hcategory] at hkindcategory
  cases kind with
  | nounPred kind =>
    obtain ⟨hlength, hnouns⟩ := children_of_nounPred hslots
    have hreadings : List.Forall₂ Meaning.Reads (parts.map (meaning b)) (s.children.map (Skeleton.Names b)) := by
      rw [List.forall₂_map_left_iff, List.forall₂_map_right_iff]
      refine List.Forall₂.flip (List.Forall₂.imp ?_ ((List.forall₂_and_left _ _).mpr ⟨hnouns, hparts⟩))
      intro t part ht
      exact names_iff ht.2 ht.1
    rw [hmeaning, holdsAt_nounPred, Skeleton.trueOf_eq hkind]
    exact kind.judge_cell (by rwa [List.length_map]) hreadings p
  | _ => contradiction

/-! ## Groups and what is said of them -/

/-- The groups of a built group are lists of occupied cells, one for each
class. -/
theorem isClass_iff (h : build Grammar.standard s = .ok f) (hcategory : s.category = .group) :
    (∀ cells ∈ (f.meaning b).groups, b.Lists cells) ∧
      ∀ S, s.IsClass b S ↔ ∃ cells ∈ (f.meaning b).groups, Place.ofCells cells = S := by
  obtain ⟨kind, parts, hkind, hkindcategory, -, -, hmeaning⟩ := exists_of_build_standard h
  rw [hcategory] at hkindcategory
  cases kind with
  | group kind =>
    have hgroups : (f.meaning b).groups = b.groups kind := by rw [hmeaning]; rfl
    rw [hgroups]
    refine ⟨fun cells => Board.lists_of_mem_groups kind, fun S => ?_⟩
    rw [Skeleton.isClass_eq hkind]
    exact kind.isClass_iff
  | _ => contradiction

/-- A built group predicate is judged on a list of occupied cells as it reads
on their places. -/
theorem trueOn_iff (h : build Grammar.standard s = .ok f) (hcategory : s.category = .groupPred)
    {cells : List Nat} (hlists : b.Lists cells) :
    (f.meaning b).holdsOn cells = true ↔ s.TrueOn b (Place.ofCells cells) := by
  obtain ⟨kind, parts, hkind, hkindcategory, -, -, hmeaning⟩ := exists_of_build_standard h
  rw [hcategory] at hkindcategory
  cases kind with
  | groupPred kind =>
    rw [hmeaning, Skeleton.trueOn_eq hkind]
    exact kind.trueOn_iff hlists
  | _ => contradiction

/-! ## Rules -/

/-- The children of a rule over one noun. -/
theorem exists_of_one_slot {c : Category} {parts : List Fragment}
    (hslots : s.children.map Skeleton.category = [c])
    (hparts : List.Forall₂ (fun t part => build Grammar.standard t = .ok part) s.children parts) :
    ∃ n fn, s.children = [n] ∧ parts = [fn] ∧ n.category = c ∧ build Grammar.standard n = .ok fn := by
  obtain ⟨n, hchildren, hn⟩ := List.map_eq_singleton_iff.mp hslots
  rw [hchildren] at hparts
  obtain ⟨fn, rest, hfn, hrest, rfl⟩ := List.forall₂_cons_left_iff.mp hparts
  rw [List.forall₂_nil_left_iff.mp hrest]
  exact ⟨n, fn, hchildren, rfl, hn, hfn⟩

/-- The children of a rule over two. -/
theorem exists_of_two_slots {c d : Category} {parts : List Fragment}
    (hslots : s.children.map Skeleton.category = [c, d])
    (hparts : List.Forall₂ (fun t part => build Grammar.standard t = .ok part) s.children parts) :
    ∃ n m fn fm, s.children = [n, m] ∧ parts = [fn, fm] ∧ n.category = c ∧ m.category = d ∧
      build Grammar.standard n = .ok fn ∧ build Grammar.standard m = .ok fm := by
  obtain ⟨n, m, hchildren, hn, hm⟩ := Skeleton.exists_children_eq_pair hslots
  rw [hchildren] at hparts
  obtain ⟨fn, parts', hfn, hparts', rfl⟩ := List.forall₂_cons_left_iff.mp hparts
  obtain ⟨fm, rest, hfm, hrest, rfl⟩ := List.forall₂_cons_left_iff.mp hparts'
  rw [List.forall₂_nil_left_iff.mp hrest]
  exact ⟨n, m, fn, fm, hchildren, rfl, hn, hm, hfn, hfm⟩

/-- A built fragment of the category of rules holds of a board as it reads. -/
theorem holds_iff (h : build Grammar.standard s = .ok f) (hcategory : s.category = .rule) :
    f.holds b = true ↔ s.Holds b := by
  obtain ⟨kind, parts, hkind, hkindcategory, hslots, hparts, hmeaning⟩ := exists_of_build_standard h
  rw [hcategory] at hkindcategory
  cases kind with
  | rule kind =>
    have hjudge : f.holds b = kind.judge (parts.map (meaning b)) := by
      rw [holds, hmeaning]
      rfl
    rw [hjudge, Skeleton.Holds, hkind]
    cases kind with
    | every =>
      obtain ⟨n, m, fn, fm, hchildren, rfl, hn, hm, hfn, hfm⟩ := exists_of_two_slots hslots hparts
      rw [hchildren]
      exact RuleKind.judge_every (names_iff hfn hn) (trueOf_iff hfm hm)
    | «exists» =>
      obtain ⟨n, m, fn, fm, hchildren, rfl, hn, hm, hfn, hfm⟩ := exists_of_two_slots hslots hparts
      rw [hchildren]
      exact RuleKind.judge_exists (names_iff hfn hn) (trueOf_iff hfm hm)
    | noneIs =>
      obtain ⟨n, m, fn, fm, hchildren, rfl, hn, hm, hfn, hfm⟩ := exists_of_two_slots hslots hparts
      rw [hchildren]
      exact RuleKind.judge_noneIs (names_iff hfn hn) (trueOf_iff hfm hm)
    | everyGroup =>
      obtain ⟨n, m, fn, fm, hchildren, rfl, hn, hm, hfn, hfm⟩ := exists_of_two_slots hslots hparts
      rw [hchildren]
      obtain ⟨hlists, hclasses⟩ := isClass_iff (b := b) hfn hn
      exact RuleKind.judge_everyGroup hlists hclasses fun cells => trueOn_iff hfm hm
    | rowFilled =>
      obtain ⟨n, fn, hchildren, rfl, hn, hfn⟩ := exists_of_one_slot hslots hparts
      rw [hchildren]
      exact RuleKind.judge_rowFilled (names_iff hfn hn)
    | columnFilled =>
      obtain ⟨n, fn, hchildren, rfl, hn, hfn⟩ := exists_of_one_slot hslots hparts
      rw [hchildren]
      exact RuleKind.judge_columnFilled (names_iff hfn hn)
  | _ => contradiction

end Fragment

namespace Rule

/-- **The verdict of a rule is its reading.** Every rule that can be built over
the standard grammar judges every board as the rule reads over rows and
columns. -/
theorem judge_iff_holds {s : Skeleton} {r : Rule} (h : build Grammar.standard s = .ok r) (b : Board) :
    r.judge b = true ↔ s.Holds b := by
  obtain ⟨hrule, -, hroot⟩ := build_eq_ok_iff.mp h
  exact Fragment.holds_iff hroot hrule

/-- A rule with a nested noun, on a board with one symbol: that every blank cell
is adjacent to a yellow symbol is false. -/
theorem blank_adjacent_judged :
    ∃ r, build Grammar.standard (.every .blank (.adjacentTo (.noun 0 1))) = .ok r ∧
      (r.judge (.ofCells [some ⟨.yellow, .circle⟩]) = true ↔
        Skeleton.Holds (.ofCells [some ⟨.yellow, .circle⟩]) (.every .blank (.adjacentTo (.noun 0 1)))) ∧
      r.judge (.ofCells [some ⟨.yellow, .circle⟩]) = false :=
  ⟨_, rfl, judge_iff_holds rfl _, by decide⟩

end Rule

end HiddenRule
