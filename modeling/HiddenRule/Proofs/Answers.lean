import HiddenRule.Grammar.Standard
import HiddenRule.Proofs.Building
import HiddenRule.Proofs.ClosedGrammars
import HiddenRule.Skeleton.Standard

/-
  What fragments answer. In a closed grammar every kind of meaning is listed
  under the category it belongs to, so the category of a built fragment tells
  the form of its answers, whatever it is asked. A verdict is then only asked of
  a fragment that gives verdicts, and groups of one that gives groups, and no
  answer is replaced by a default.

  What is proved:
    1. `instantiates_of_build_eq_ok`: node by node, a built fragment has the
       category, the name and the kind that its skeleton names, and children of
       the categories that the alternative asks for.
    2. `Instantiates.kind_category_eq`: over a closed grammar, the kind of a node
       belongs to its category.
    3. `built_fragments_answer_by_category`: every node of a fragment built over
       a closed grammar answers as its category says.
-/

namespace HiddenRule

namespace Fragment

mutual

/-- The nodes of a fragment, each with what is below it: itself first, each
before those below it. -/
def subtrees : Fragment → List Fragment
  | node l parts => node l parts :: subtreesOfAll parts

/-- The nodes of fragments, one fragment after the other. -/
def subtreesOfAll : List Fragment → List Fragment
  | [] => []
  | f :: rest => subtrees f ++ subtreesOfAll rest

end

/-! ## Nodes and alternatives -/

/-- Whether a node of a fragment is what a node of a skeleton makes of the
alternative that it names. -/
structure Instantiates (g : Grammar) (m : Skeleton) (a : Alternative) (n : Fragment) : Prop where
  named : g.chosen? m = some a
  category_eq : n.category = m.category
  name_eq : n.name = a.name
  kind_eq : n.kind = a.kind
  choice_eq : n.label.choice = m.choice
  /-- The children are of the categories that the alternative asks for. -/
  slots : n.children.map category = a.slots

variable {g : Grammar}

theorem category_eq_of_build_eq_ok {s : Skeleton} {f : Fragment} (h : build g s = .ok f) :
    f.category = s.category := by
  obtain ⟨_, _, _, -, -, -, -, rfl⟩ := exists_of_build_eq_ok h
  rfl

theorem map_category_of_buildAll_eq_ok {ss : List Skeleton} {parts : List Fragment}
    (h : buildAll g ss = .ok parts) : parts.map category = ss.map Skeleton.category := by
  have hforall := forall₂_of_buildAll_eq_ok h
  clear h
  induction hforall with
  | nil => rfl
  | cons hbuild _ ih => rw [List.map_cons, List.map_cons, category_eq_of_build_eq_ok hbuild, ih]

/-- The root of a built fragment. -/
theorem exists_instantiates {s : Skeleton} {f : Fragment} (h : build g s = .ok f) :
    ∃ a, Instantiates g s a f := by
  obtain ⟨a, parts, chosen, hnamed, hslots, hparts, -, rfl⟩ := exists_of_build_eq_ok h
  have hcategories : parts.map category = a.slots := by rw [map_category_of_buildAll_eq_ok hparts, hslots]
  exact ⟨a, hnamed, rfl, rfl, rfl, rfl, hcategories⟩

mutual

/-- Node by node, in the same order, a fragment is what its skeleton names. -/
theorem instantiates_of_build_eq_ok : ∀ (s : Skeleton) {f : Fragment}, build g s = .ok f →
    List.Forall₂ (fun m n => ∃ a, Instantiates g m a n) s.subtrees f.subtrees
  | .node c i children choice, f, h => by
    have hroot := exists_instantiates h
    obtain ⟨a, parts, chosen, -, -, hparts, -, rfl⟩ := exists_of_build_eq_ok h
    exact .cons hroot (instantiates_of_buildAll_eq_ok children hparts)

theorem instantiates_of_buildAll_eq_ok : ∀ (ss : List Skeleton) {parts : List Fragment},
    buildAll g ss = .ok parts →
      List.Forall₂ (fun m n => ∃ a, Instantiates g m a n) (Skeleton.subtreesOfAll ss) (subtreesOfAll parts)
  | [], parts, h => buildAll_nil_eq_ok_iff.mp h ▸ .nil
  | s :: rest, parts, h => by
    obtain ⟨f, others, hf, hothers, rfl⟩ := buildAll_cons_eq_ok_iff.mp h
    exact List.rel_append (instantiates_of_build_eq_ok s hf) (instantiates_of_buildAll_eq_ok rest hothers)

end

/-- In a closed grammar the kind of a built node belongs to its category. -/
theorem Instantiates.kind_category_eq {m : Skeleton} {a : Alternative} {n : Fragment}
    (h : Instantiates g m a n) (hcheck : g.check = .ok ()) :
    ∀ k, n.kind = some k → k.category = n.category := by
  intro k hk
  rw [h.category_eq]
  exact (Grammar.check_eq_ok_iff.mp hcheck).kinds _ a (List.mem_of_getElem? h.named) k (h.kind_eq ▸ hk)

end Fragment

/-! ## Forms of answers -/

/-- An answer that is not groups is a verdict. -/
theorem Outcome.exists_verdict_iff (o : Outcome) :
    (∃ holds, o = .verdict holds) ↔ ¬∃ cells, o = .groups cells := by
  cases o with
  | verdict holds => simp
  | groups cells => simp

/-- The kinds of the category of groups, and no others, answer with groups. -/
theorem Kind.exists_meaning_eq_groups_iff (k : Kind) (b : Board) (choice : Nat) (parts : List Meaning)
    (argument : Argument) :
    (∃ cells, k.meaning b choice parts argument = .groups cells) ↔ k.category = .group := by
  cases k <;> simp [Kind.meaning, Kind.category]

/-- So do placeholders of that category. -/
theorem Category.exists_placeholderMeaning_eq_groups_iff (c : Category) (argument : Argument) :
    (∃ cells, c.placeholderMeaning argument = .groups cells) ↔ c = .group := by
  cases c <;> simp [placeholderMeaning]

namespace Fragment

theorem exists_meaning_eq_groups_iff {f : Fragment} (h : ∀ k, f.kind = some k → k.category = f.category)
    (b : Board) (argument : Argument) :
    (∃ cells, f.meaning b argument = .groups cells) ↔ f.category = .group := by
  obtain ⟨l, parts⟩ := f
  rw [meaning]
  cases hkind : l.kind with
  | none => exact l.category.exists_placeholderMeaning_eq_groups_iff argument
  | some k =>
    have hcategory : k.category = l.category := h k hkind
    show _ ↔ l.category = .group
    rw [← hcategory]
    exact k.exists_meaning_eq_groups_iff b l.choice _ argument

/-- Whether a fragment answers on a board as its category says. -/
structure AnswersByCategory (f : Fragment) (b : Board) : Prop where
  /-- Whatever it is asked, it answers with groups exactly if it is of the
  category of groups, -/
  groups_iff : ∀ argument, (∃ cells, f.meaning b argument = .groups cells) ↔ f.category = .group
  /-- and with a verdict exactly if it is of another. -/
  verdict_iff : ∀ argument, (∃ holds, f.meaning b argument = .verdict holds) ↔ f.category ≠ .group
  /-- What is read off an answer is the answer. -/
  holds_eq : f.category ≠ .group → f.meaning b .nothing = .verdict (f.holds b)
  holdsAt_eq : f.category ≠ .group → ∀ i, f.meaning b (.cell i) = .verdict (f.holdsAt b i)
  holdsOn_eq : f.category ≠ .group → ∀ cells, f.meaning b (.group cells) = .verdict (f.holdsOn b cells)
  groups_eq : f.category = .group → f.meaning b .nothing = .groups (f.groups b)

/-- It does if its kind belongs to its category. -/
theorem answersByCategory {f : Fragment} (h : ∀ k, f.kind = some k → k.category = f.category) (b : Board) :
    f.AnswersByCategory b := by
  have hgroups := exists_meaning_eq_groups_iff h b
  have hverdict : ∀ argument, (∃ holds, f.meaning b argument = .verdict holds) ↔ f.category ≠ .group := by
    intro argument
    rw [Outcome.exists_verdict_iff, hgroups]
  -- a verdict that is there is the one that is read
  have hread : f.category ≠ .group → ∀ argument,
      f.meaning b argument = .verdict ((f.meaning b argument).verdict?.getD false) := by
    intro hcategory argument
    obtain ⟨holds, hholds⟩ := (hverdict argument).mpr hcategory
    rw [hholds]
    rfl
  refine ⟨hgroups, hverdict, ?_, ?_, ?_, ?_⟩
  · intro hcategory
    exact hread hcategory .nothing
  · intro hcategory i
    exact hread hcategory (.cell i)
  · intro hcategory cells
    exact hread hcategory (.group cells)
  · intro hcategory
    obtain ⟨cells, hcells⟩ := (hgroups .nothing).mpr hcategory
    rw [groups, Meaning.groups, hcells]
    rfl

/-- **The category of a built fragment tells the form of its answers.** Let a
grammar pass the check, and a fragment be built over it. Node by node it has
what its skeleton names, with children of the categories that the alternative
asks for; and every node, placeholders included, answers with groups if it is of
the category of groups and with a verdict otherwise, on every board and whatever
it is asked. So no verdict and no groups read off it are a default. -/
theorem built_fragments_answer_by_category {g : Grammar} {s : Skeleton} {f : Fragment}
    (hcheck : g.check = .ok ()) (hbuild : build g s = .ok f) :
    List.Forall₂ (fun m n => ∃ a, Instantiates g m a n) s.subtrees f.subtrees ∧
      ∀ n ∈ f.subtrees, ∀ b, n.AnswersByCategory b := by
  have hnodes := instantiates_of_build_eq_ok s hbuild
  refine ⟨hnodes, ?_⟩
  intro n hn b
  obtain ⟨i, hi, rfl⟩ := List.getElem_of_mem hn
  obtain ⟨a, ha⟩ := hnodes.get (hnodes.length_eq.symm ▸ hi) hi
  exact answersByCategory (ha.kind_category_eq hcheck) b

end Fragment

/-- A closed grammar whose group and group predicate are still without a
meaning. -/
def Grammar.unsettled : Grammar :=
  empty.addAll
    [(.rule, ruleOf "every_group" .everyGroup 1 [.group, .groupPred] [] "%1 %2"),
      (.group, .bare "some_groups" none), (.groupPred, .bare "something" none)]

/-- A rule of two placeholders. On the empty board the one answers with groups,
of which there are none, the other with a verdict, and so does the rule. -/
theorem Fragment.placeholders_answer_by_category :
    ∃ f, Grammar.unsettled.check = .ok () ∧
      build Grammar.unsettled (.node .rule 0 [.group 0, .groupPred 0] 0) = .ok f ∧
      f.subtrees.map kind = [some (.rule .everyGroup), none, none] ∧
      (f.subtrees.map fun n => n.meaning .empty (.group [0, 9])) = [.verdict true, .groups [], .verdict true] ∧
      ∀ n ∈ f.subtrees, n.AnswersByCategory .empty := by
  have hcheck : Grammar.unsettled.check = .ok () := by decide
  obtain ⟨f, hbuild, hkinds, hmeanings⟩ : ∃ f,
      build Grammar.unsettled (.node .rule 0 [.group 0, .groupPred 0] 0) = .ok f ∧
        f.subtrees.map kind = [some (.rule .everyGroup), none, none] ∧
        (f.subtrees.map fun n => n.meaning .empty (.group [0, 9])) =
          [.verdict true, .groups [], .verdict true] := ⟨_, rfl, rfl, rfl⟩
  obtain ⟨-, hanswers⟩ := built_fragments_answer_by_category hcheck hbuild
  exact ⟨f, hcheck, hbuild, hkinds, hmeanings, fun n hn => hanswers n hn .empty⟩

end HiddenRule
