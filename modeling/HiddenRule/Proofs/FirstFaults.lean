import HiddenRule.Proofs.Answers
import HiddenRule.Skeleton.Standard

/-
  Which error a skeleton is refused with. Building makes three checks at each
  node: that there is the alternative, that the children are of the categories
  that it asks for, and that the attribute is among those that it lists. The
  first two are made on the way down and the last on the way up, so that a
  tree with several faults is refused for the first of them in an order that
  is neither that of the nodes from above nor that from below.

  What is proved:
    1. `mem_checks`, `builds_iff_forall_fault`: every check is made at every node,
       and a node can be built, if those below it can, exactly if its checks pass.
    2. `build_eq_error_iff_findSome`: the error is that of the first check that
       fails.
    3. `rel_at_of_build_eq_ok`: a built fragment has the shape of its skeleton,
       and at each place what the node there names.
    4. `skeletons_built_or_first_fault`: all of it, for fragments and rules.
-/

namespace HiddenRule

/-- A check made at a node. -/
inductive Check where
  /-- There is the alternative. -/
  | alternative
  /-- The children are of the categories that the alternative asks for. -/
  | slots
  /-- The attribute is among those listed, if the alternative lists any. -/
  | choice

namespace Skeleton

/-- The tree that a path of child positions leads to. -/
def at? : Skeleton → List Nat → Option Skeleton
  | s, [] => some s
  | s, i :: path =>
    match s.children[i]? with
    | some part => part.at? path
    | none => none

mutual

/-- The checks that building a tree makes, in order, each with its node: two at
the root, then those of the trees below it, and last that of the attribute. -/
def checks : Skeleton → List (Skeleton × Check)
  | .node c i parts a =>
    (.node c i parts a, .alternative) :: (.node c i parts a, .slots) ::
      (checksOfAll parts ++ [(.node c i parts a, .choice)])

/-- The checks that building trees makes, one tree after the other. -/
def checksOfAll : List Skeleton → List (Skeleton × Check)
  | [] => []
  | s :: rest => checks s ++ checksOfAll rest

end

theorem mem_checksOfAll {parts : List Skeleton} {entry : Skeleton × Check} :
    entry ∈ checksOfAll parts ↔ ∃ s ∈ parts, entry ∈ s.checks := by
  induction parts with
  | nil => simp [checksOfAll]
  | cons s rest ih => simp [checksOfAll, ih]

/-- Every check is made at every node of a tree, and nowhere else. -/
theorem mem_checks {s n : Skeleton} {check : Check} : (n, check) ∈ s.checks ↔ n ∈ s.subtrees := by
  induction s using partsInduction with
  | step c i parts a ih =>
    have hbelow : (n, check) ∈ checksOfAll parts ↔ n ∈ subtreesOfAll parts := by
      rw [mem_checksOfAll, mem_subtreesOfAll]
      exact exists_congr fun s => and_congr_right fun hs => ih s hs
    rw [checks, subtrees, List.mem_cons, List.mem_cons, List.mem_append, List.mem_singleton, hbelow, List.mem_cons]
    cases check <;> simp [or_comm]

end Skeleton

/-! ## Single checks -/

namespace Grammar

variable {g : Grammar}

/-- The error of a check, if it fails. Without the alternative, there is nothing
that the children and the attribute could be compared with. -/
def fault? (g : Grammar) : Skeleton × Check → Option RuleError
  | (n, .alternative) =>
    if (g.chosen? n).isNone then some (.missingAlternative n.category n.index) else none
  | (n, .slots) => do
    let a ← g.chosen? n
    let found := n.children.map Skeleton.category
    if found = a.slots then none else some (.slotMismatch n.category n.index a.slots found)
  | (n, .choice) => do
    let a ← g.chosen? n
    let texts ← a.attributes
    if n.choice < texts.length then none
    else some (.attributeOutOfRange n.category n.index n.choice texts.length)

variable {n : Skeleton} {a : Alternative} {e : RuleError}

theorem fault_alternative_eq_some_iff :
    g.fault? (n, .alternative) = some e ↔
      g.chosen? n = none ∧ e = .missingAlternative n.category n.index := by
  cases hnamed : g.chosen? n <;> simp [fault?, hnamed, eq_comm]

theorem fault_slots_eq_some_iff (hnamed : g.chosen? n = some a) :
    g.fault? (n, .slots) = some e ↔ n.children.map Skeleton.category ≠ a.slots ∧
      e = .slotMismatch n.category n.index a.slots (n.children.map Skeleton.category) := by
  simp [fault?, hnamed, eq_comm]

theorem fault_choice_eq_some_iff (hnamed : g.chosen? n = some a) :
    g.fault? (n, .choice) = some e ↔ ∃ texts, a.attributes = some texts ∧ texts.length ≤ n.choice ∧
      e = .attributeOutOfRange n.category n.index n.choice texts.length := by
  cases htexts : a.attributes with
  | none => simp [fault?, hnamed, htexts]
  | some texts => simp [fault?, hnamed, htexts, eq_comm]

/-- A node can be built, if those below it can, exactly if its checks pass. -/
theorem builds_iff_forall_fault : g.Builds n ↔ ∀ check, g.fault? (n, check) = none := by
  refine ⟨?_, ?_⟩
  · intro h check
    obtain ⟨a, hnamed, hslots, hchoice⟩ := h
    rw [Option.eq_none_iff_forall_ne_some]
    intro e he
    cases check with
    | alternative => simp [fault_alternative_eq_some_iff, hnamed] at he
    | slots => exact ((fault_slots_eq_some_iff hnamed).mp he).1 hslots
    | choice =>
      obtain ⟨texts, htexts, hle, -⟩ := (fault_choice_eq_some_iff hnamed).mp he
      have := hchoice texts htexts
      omega
  · intro h
    have hslots := h .slots
    have hchoice := h .choice
    cases hnamed : g.chosen? n with
    | none => exact absurd (fault_alternative_eq_some_iff.mpr ⟨hnamed, rfl⟩) (by simp [h])
    | some a =>
      refine ⟨a, hnamed, ?_, ?_⟩
      · by_contra hne
        simp [(fault_slots_eq_some_iff hnamed).mpr ⟨hne, rfl⟩] at hslots
      · intro texts htexts
        by_contra hle
        simp [(fault_choice_eq_some_iff hnamed).mpr ⟨texts, htexts, by omega, rfl⟩] at hchoice

end Grammar

theorem Alternative.chosenAttribute_eq_error_iff {a : Alternative} {c : Category} {i choice : Nat}
    {e : RuleError} : a.chosenAttribute c i choice = .error e ↔
      ∃ texts, a.attributes = some texts ∧ texts.length ≤ choice ∧
        e = .attributeOutOfRange c i choice texts.length := by
  refine ⟨chosenAttribute_eq_error, ?_⟩
  intro h
  obtain ⟨texts, htexts, hle, rfl⟩ := h
  simp [chosenAttribute, htexts, List.getElem?_eq_none hle]

/-! ## Sequences that can fail -/

section
variable {ε α β : Type}

theorem bind_pure_eq_error_iff {x : Except ε α} {f : α → β} {e : ε} :
    (x >>= fun a => pure (f a)) = .error e ↔ x = .error e := by
  cases x with
  | error e' => simp [bind, Except.bind]
  | ok a => simp [bind, Except.bind, pure, Except.pure]

/-- There is a value where there is no error. -/
theorem exists_eq_ok_iff_eq_none {x : Except ε α} {o : Option ε} (h : ∀ e, x = .error e ↔ o = some e) :
    (∃ a, x = .ok a) ↔ o = none := by
  cases x with
  | error e => simp [(h e).mp rfl]
  | ok a =>
    rw [Option.eq_none_iff_forall_ne_some]
    simp [← h]

end

namespace Fragment

variable {g : Grammar}

/-! ## The first fault -/

mutual

/-- The error is that of the first check that fails. -/
theorem build_eq_error_iff_findSome : ∀ (s : Skeleton) (e : RuleError),
    build g s = .error e ↔ s.checks.findSome? g.fault? = some e
  | .node c i parts choice, e => by
    have hbelow := buildAll_eq_error_iff_findSome parts
    rw [build, Skeleton.checks, List.findSome?_cons, List.findSome?_cons]
    cases hnamed : g.alternative? c i with
    | none =>
      have hchosen : g.chosen? (.node c i parts choice) = none := hnamed
      rw [Grammar.fault_alternative_eq_some_iff.mpr ⟨hchosen, rfl⟩]
      simp [Skeleton.category, Skeleton.index]
    | some a =>
      have hchosen : g.chosen? (.node c i parts choice) = some a := hnamed
      have hthere : g.fault? (.node c i parts choice, .alternative) = none := by simp [Grammar.fault?, hchosen]
      rw [hthere]
      by_cases hslots : parts.map Skeleton.category = a.slots
      · have hfilled : g.fault? (.node c i parts choice, .slots) = none := by
          simp [Grammar.fault?, hchosen, Skeleton.children, hslots]
        -- the children come before the attribute
        have hlast : a.chosenAttribute c i choice = .error e ↔
            [(Skeleton.node c i parts choice, Check.choice)].findSome? g.fault? = some e := by
          rw [List.findSome?_singleton, Grammar.fault_choice_eq_some_iff hchosen]
          exact Alternative.chosenAttribute_eq_error_iff
        simp only [hslots, if_true, hfilled]
        rw [bind_eq_error_iff, List.findSome?_append, Option.or_eq_some_iff, ← hbelow,
          ← exists_eq_ok_iff_eq_none hbelow, ← hlast]
        simp only [bind_pure_eq_error_iff, exists_and_right]
      · rw [(Grammar.fault_slots_eq_some_iff hchosen).mpr ⟨hslots, rfl⟩]
        simp [hslots, Skeleton.category, Skeleton.index, Skeleton.children]

theorem buildAll_eq_error_iff_findSome : ∀ (ss : List Skeleton) (e : RuleError),
    buildAll g ss = .error e ↔ (Skeleton.checksOfAll ss).findSome? g.fault? = some e
  | [], e => by simp [buildAll, Skeleton.checksOfAll]
  | s :: rest, e => by
    have hfirst := build_eq_error_iff_findSome s
    have hlater := buildAll_eq_error_iff_findSome rest e
    rw [buildAll, Skeleton.checksOfAll, bind_eq_error_iff, List.findSome?_append, Option.or_eq_some_iff,
      ← hfirst, ← exists_eq_ok_iff_eq_none hfirst, ← hlater]
    simp only [bind_pure_eq_error_iff, exists_and_right]

end

/-! ## The shape of a fragment -/

/-- At each place, a built fragment has a node exactly if its skeleton does, and
there it has what the skeleton's node names. -/
theorem rel_at_of_build_eq_ok : ∀ (path : List Nat) {s : Skeleton} {f : Fragment}, build g s = .ok f →
    Option.Rel (fun m n => ∃ a, Instantiates g m a n) (s.at? path) (f.at? path)
  | [], s, f, h => .some (exists_instantiates h)
  | i :: path, s, f, h => by
    obtain ⟨a, parts, chosen, -, -, hparts, -, rfl⟩ := exists_of_build_eq_ok h
    have hforall := forall₂_of_buildAll_eq_ok hparts
    have hlength : s.children.length = parts.length := hforall.length_eq
    simp only [Skeleton.at?, at?, ofParts, children]
    by_cases hi : i < parts.length
    · rw [List.getElem?_eq_getElem (hlength ▸ hi), List.getElem?_eq_getElem hi]
      exact rel_at_of_build_eq_ok path (hforall.get (hlength ▸ hi) hi)
    · rw [List.getElem?_eq_none (by omega), List.getElem?_eq_none (by omega)]
      exact .none

/-- **A skeleton is built, or refused for its first fault.** For every grammar
and every tree: a fragment is built exactly if each node names an alternative,
has children of the categories that it asks for, and, where the alternative
lists attributes, one of those. It then has the shape of the tree, and at each
place the category and the attribute of the node there with the name and the
kind of its alternative. Otherwise the error is that of the first check that
fails, where those of a node come before and after all checks of the nodes
below it. A tree of another category than rules is no rule, whatever its
faults. -/
theorem skeletons_built_or_first_fault (g : Grammar) (s : Skeleton) :
    ((∃ f, build g s = .ok f) ↔ ∀ n ∈ s.subtrees, g.Builds n) ∧
    (∀ f, build g s = .ok f → ∀ path,
      Option.Rel (fun m n => ∃ a, Instantiates g m a n) (s.at? path) (f.at? path)) ∧
    (∀ e, build g s = .error e ↔ s.checks.findSome? g.fault? = some e) ∧
    (∀ e, Rule.build g s = .error e ↔
      if s.category = .rule then s.checks.findSome? g.fault? = some e else e = .notARule s.category) ∧
    ∀ r, Rule.build g s = .ok r ↔ s.category = .rule ∧ r.skeleton = s ∧ build g s = .ok r.root := by
  refine ⟨?_, ?_, build_eq_error_iff_findSome s, ?_, ?_⟩
  · calc (∃ f, build g s = .ok f)
        ↔ s.checks.findSome? g.fault? = none := exists_eq_ok_iff_eq_none (build_eq_error_iff_findSome s)
      _ ↔ ∀ n ∈ s.subtrees, ∀ check, g.fault? (n, check) = none := by
        rw [List.findSome?_eq_none_iff]
        refine ⟨fun h n hn check => h _ (Skeleton.mem_checks.mpr hn), ?_⟩
        intro h entry hentry
        exact h entry.1 (Skeleton.mem_checks.mp hentry) entry.2
      _ ↔ ∀ n ∈ s.subtrees, g.Builds n := by simp only [Grammar.builds_iff_forall_fault]
  · intro f hbuild path
    exact rel_at_of_build_eq_ok path hbuild
  · intro e
    rw [Rule.build_eq_error_iff]
    split
    · next hrule => simp [hrule, build_eq_error_iff_findSome]
    · next hother => simp [hother]
  · intro r
    exact Rule.build_eq_ok_iff

end Fragment

/-- A grammar whose only predicate has both children and attributes. -/
def Grammar.pointing : Grammar :=
  empty.addAll
    [(.noun, nounOf "color" .color 1 (some colorTexts) [] "@ symbol" "@ symbols"),
      (.nounPred, { Alternative.bare "between" (some (.nounPred .adjacentTo)) with
        slots := [.noun, .noun], attributes := some ["beside", "below"],
        singular := some "@ a %1 and a %2" })]

/-- Of a tree with three faults, the first is that of the attribute of the first
child: later than the root's own children, and earlier than the second child,
which is missing, and than the attribute of the root. Without the faults the
tree is built. -/
theorem Fragment.first_of_three_faults :
    (∃ f, build Grammar.pointing (.node .nounPred 0 [.noun 0 2, .noun 0 0] 1) = .ok f ∧
      f.singular = "below a blue symbol and a red symbol" ∧
      Option.Rel (fun m n => ∃ a, Instantiates Grammar.pointing m a n) (some (.noun 0 0)) (f.at? [1]) ∧
      f.at? [1, 0] = none) ∧
    (Skeleton.node .nounPred 0 [.noun 0 3, .noun 1 0] 2).checks.filterMap Grammar.pointing.fault? =
      [.attributeOutOfRange .noun 0 3 3, .missingAlternative .noun 1,
        .attributeOutOfRange .nounPred 0 2 2] ∧
    build Grammar.pointing (.node .nounPred 0 [.noun 0 3, .noun 1 0] 2) =
      .error (.attributeOutOfRange .noun 0 3 3) ∧
    Rule.build Grammar.pointing (.node .nounPred 0 [.noun 0 3, .noun 1 0] 2) =
      .error (.notARule .nounPred) := by
  obtain ⟨f, hbuild, htext⟩ : ∃ f,
      build Grammar.pointing (.node .nounPred 0 [.noun 0 2, .noun 0 0] 1) = .ok f ∧
        f.singular = "below a blue symbol and a red symbol" := ⟨_, rfl, rfl⟩
  obtain ⟨-, hshape, -, -, -⟩ :=
    skeletons_built_or_first_fault Grammar.pointing (.node .nounPred 0 [.noun 0 2, .noun 0 0] 1)
  obtain ⟨-, -, hfirst, hrule, -⟩ :=
    skeletons_built_or_first_fault Grammar.pointing (.node .nounPred 0 [.noun 0 3, .noun 1 0] 2)
  refine ⟨⟨f, hbuild, htext, hshape f hbuild [1], ?_⟩, by decide, (hfirst _).mpr (by decide), (hrule _).mpr rfl⟩
  have hend := hshape f hbuild [1, 0]
  cases hat : f.at? [1, 0] with
  | none => rfl
  | some n =>
    rw [hat] at hend
    cases hend

end HiddenRule
