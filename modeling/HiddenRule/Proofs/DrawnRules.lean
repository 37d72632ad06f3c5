import HiddenRule.Grammar.Standard
import HiddenRule.Proofs.Building
import HiddenRule.Proofs.TagThreads
import HiddenRule.Session
import HiddenRule.Skeleton.Standard

/-
  Drawn skeletons as rules. What the generator draws is built, with one
  exception: an alternative can list attributes and list none. Such a node is
  drawn with attribute 0, as if it had nothing to choose, and then refused,
  since there is no attribute 0. A check of the grammar does not object.

  What is proved:
    1. `NodeFits.not_listsNothing_iff_builds`: a drawn node can be built
       exactly if its alternative does not list attributes and list none.
    2. `drawn_rules_build_unless_nothing_listed`: a drawn rule is built exactly
       if no node of it names such an alternative; and a random rule, a session
       and a round fail for no other reason than that, or that nothing can be
       chosen.
    3. `checked_drawn_rule_not_built`: a closed grammar of two alternatives
       where a drawn rule is refused.
-/

namespace HiddenRule

namespace Grammar

variable {g : Grammar}

/-- Whether the alternative a node names has a list of attributes without an
attribute in it. -/
def ListsNothing (g : Grammar) (n : Skeleton) : Prop :=
  (g.chosen? n).bind Alternative.attributes = some []

instance (n : Skeleton) : Decidable (g.ListsNothing n) :=
  inferInstanceAs (Decidable ((g.chosen? n).bind Alternative.attributes = some []))

/-- The reasons for not drawing a rule of a grammar, or for refusing one that
was drawn. -/
inductive DrawFault (g : Grammar) : RuleError → Prop where
  | nothingEligible (c : Category) : DrawFault g (.noEligibleAlternative c)
  | nothingListed {c : Category} {i : Nat} {a : Alternative} : g.alternative? c i = some a →
    a.isGenerable = true → 0 < a.weight → a.attributes = some [] →
    DrawFault g (.attributeOutOfRange c i 0 0)

/-! ## One drawn node -/

/-- Of the faults a node can have, a drawn one has only this. -/
theorem NodeFits.eq_of_fault {n : Skeleton} {a : Alternative} {e : RuleError} (h : g.NodeFits n a)
    (hfault : g.Fault n e) :
    a.attributes = some [] ∧ e = .attributeOutOfRange n.category n.index 0 0 := by
  cases hfault with
  | missing hnone =>
    rw [h.named] at hnone
    contradiction
  | mismatch hnamed hne =>
    rw [h.named] at hnamed
    exact absurd (Option.some.inj hnamed ▸ h.slots) hne
  | @outOfRange b texts hnamed htexts hle =>
    rw [h.named] at hnamed
    rw [← Option.some.inj hnamed] at htexts
    -- the count does not tell an empty list from no list, and the draw asks the count
    have hcount : a.attributeCount = texts.length := by simp [Alternative.attributeCount, htexts]
    have hchoice := h.choice
    rw [hcount] at hchoice
    split at hchoice
    · next hzero =>
      rw [hchoice, hzero]
      exact ⟨List.eq_nil_of_length_eq_zero hzero ▸ htexts, rfl⟩
    · omega

theorem NodeFits.listsNothing_iff {n : Skeleton} {a : Alternative} (h : g.NodeFits n a) :
    g.ListsNothing n ↔ a.attributes = some [] := by
  rw [ListsNothing, h.named, Option.bind_some]

/-- A drawn node can be built exactly if there is a list to choose its attribute
from, or no list. -/
theorem NodeFits.not_listsNothing_iff_builds {n : Skeleton} {a : Alternative} (h : g.NodeFits n a) :
    ¬g.ListsNothing n ↔ g.Builds n := by
  rw [h.listsNothing_iff]
  refine ⟨?_, ?_⟩
  · intro hlist
    refine ⟨a, h.named, h.slots, ?_⟩
    intro texts htexts
    by_contra hle
    exact hlist (h.eq_of_fault (.outOfRange h.named htexts (Nat.le_of_not_lt hle))).1
  · intro hbuilds hempty
    exact not_fault_of_builds hbuilds (.outOfRange h.named hempty (Nat.zero_le _))

/-! ## Drawn rules -/

/-- A rule that threads tags is built, unless a node of it lists nothing. -/
theorem exists_build_iff_of_threads {s : Skeleton} {after : TagSet} (hrule : s.category = .rule)
    (h : g.Threads s .empty after) :
    (∃ r, Rule.build g s = .ok r) ↔ ∀ n ∈ s.subtrees, ¬g.ListsNothing n := by
  have hfits := nodeFits_of_threads s h
  calc (∃ r, Rule.build g s = .ok r)
      ↔ ∃ f, Fragment.build g s = .ok f := by
        simp only [Rule.build_eq_ok_iff]
        refine ⟨?_, ?_⟩
        · intro hr
          obtain ⟨r, -, -, hroot⟩ := hr
          exact ⟨r.root, hroot⟩
        · intro hf
          obtain ⟨f, hf⟩ := hf
          exact ⟨⟨s, f⟩, hrule, rfl, hf⟩
    _ ↔ ∀ n ∈ s.subtrees, g.Builds n := Fragment.exists_build_eq_ok_iff
    _ ↔ ∀ n ∈ s.subtrees, ¬g.ListsNothing n := by
        apply forall₂_congr
        intro n hn
        obtain ⟨a, ha⟩ := hfits n hn
        exact ha.not_listsNothing_iff_builds.symm

/-- Where it is refused, a node of it lists nothing. -/
theorem eq_of_build_eq_error_of_threads {s : Skeleton} {after : TagSet} {e : RuleError}
    (hrule : s.category = .rule) (h : g.Threads s .empty after) (he : Rule.build g s = .error e) :
    ∃ n ∈ s.subtrees, ∃ a, g.NodeFits n a ∧ a.attributes = some [] ∧
      e = .attributeOutOfRange n.category n.index 0 0 := by
  rcases Rule.build_eq_error_iff.mp he with ⟨hother, -⟩ | ⟨-, hroot⟩
  · exact absurd hrule hother
  · obtain ⟨n, hn, hfault⟩ := Fragment.fault_of_build_eq_error s hroot
    obtain ⟨a, ha⟩ := nodeFits_of_threads s h n hn
    exact ⟨n, hn, a, ha, ha.eq_of_fault hfault⟩

theorem threads_of_yields_drawRule {depth : Nat} {s : Skeleton} (h : (g.drawRule depth).Yields (.ok s)) :
    s.category = .rule ∧ ∃ after, g.Threads s .empty after := by
  simp only [drawRule, Draw.yields_bind] at h
  obtain ⟨result, hresult, h⟩ := h
  cases result with
  | error e => simp at h
  | ok pair =>
    obtain ⟨s', after⟩ := pair
    simp only [Draw.pure_eq_done, Draw.yields_done, Except.ok.injEq] at h
    obtain ⟨hcategory, hthreads⟩ := threads_of_yields depth _ _ _ _ (h ▸ hresult)
    exact ⟨hcategory, after, hthreads⟩

theorem eq_noEligibleAlternative_of_yields_drawRule {depth : Nat} {e : RuleError}
    (h : (g.drawRule depth).Yields (.error e)) : ∃ c, e = .noEligibleAlternative c := by
  simp only [drawRule, Draw.yields_bind] at h
  obtain ⟨result, hresult, h⟩ := h
  cases result with
  | error e' =>
    simp only [Draw.pure_eq_done, Draw.yields_done, Except.error.injEq] at h
    exact eq_noEligibleAlternative_of_yields depth _ _ (h ▸ hresult)
  | ok pair =>
    obtain ⟨s', after⟩ := pair
    simp at h

/-- A random rule fails for one of the two reasons. -/
theorem drawFault_of_yields {depth : Nat} {e : RuleError} (h : (Rule.draw g depth).Yields (.error e)) :
    g.DrawFault e := by
  simp only [Rule.draw, Draw.yields_bind] at h
  obtain ⟨result, hresult, h⟩ := h
  cases result with
  | error e' =>
    simp only [Draw.pure_eq_done, Draw.yields_done, Except.error.injEq] at h
    obtain ⟨c, rfl⟩ := eq_noEligibleAlternative_of_yields_drawRule (h ▸ hresult)
    exact .nothingEligible c
  | ok s =>
    simp only [Draw.pure_eq_done, Draw.yields_done] at h
    obtain ⟨hrule, after, hthreads⟩ := threads_of_yields_drawRule hresult
    obtain ⟨n, -, a, ha, hempty, rfl⟩ := eq_of_build_eq_error_of_threads hrule hthreads h
    exact .nothingListed ha.named ha.generable ha.weighted hempty

/-! ## Sessions -/

section
variable {σ : Type} [WordSource σ]

/-- A session over a closed grammar fails to start as its first rule does. -/
theorem drawFault_of_start {sampling : Sampling} {source : σ} {e : SessionError} (hcheck : g.check = .ok ())
    (h : Session.start g sampling source = some (.error e)) : ∃ cause, e = .rule cause ∧ g.DrawFault cause := by
  simp only [Session.start, hcheck] at h
  split at h
  · contradiction
  · next cause after hrun =>
    refine ⟨cause, ?_, drawFault_of_yields (Draw.yields_of_run hrun)⟩
    exact (Except.error.inj (Option.some.inj h)).symm
  · simp at h

/-- A new round fails as its rule does. -/
theorem drawFault_of_reset {t after : Session σ} {e : SessionError} (h : t.reset = some (.error e, after)) :
    ∃ cause, e = .rule cause ∧ t.grammar.DrawFault cause := by
  simp only [Session.reset, Session.play] at h
  cases hrun : (Rule.draw t.grammar depth).run Draw.patience t.source with
  | none => simp [hrun] at h
  | some result =>
    obtain ⟨outcome, source⟩ := result
    cases outcome with
    | ok r => simp [hrun] at h
    | error cause =>
      simp only [hrun, Option.some.injEq, Prod.mk.injEq, Except.error.injEq] at h
      exact ⟨cause, h.1.symm, drawFault_of_yields (Draw.yields_of_run hrun)⟩

end

/-- A closed grammar of one rule over one noun, whose list of attributes is
empty. -/
def unlisted : Grammar :=
  (empty.add .rule (ruleOf "row_filled" .rowFilled 1 [.noun] [] "There is a row filled with $1")).add .noun
    (nounOf "blank" .blank 1 (some []) [] "blank cell" "blank cells")

/-- **Drawn rules are built, unless a node lists nothing.** For every grammar
and every source of words: a drawn skeleton becomes a rule exactly if no node
names an alternative with an empty list of attributes; otherwise such a node is
reported. A random rule, the start of a session over a closed grammar and a new
round fail only in this way, or because nothing can be chosen; in a grammar
without empty lists, only because nothing can be chosen. -/
theorem drawn_rules_build_unless_nothing_listed {σ : Type} [WordSource σ] (g : Grammar) :
    (∀ (depth patience : Nat) (source rest : σ) (s : Skeleton),
      (g.drawRule depth).run patience source = some (.ok s, rest) →
      ((∃ r, Rule.build g s = .ok r) ↔ ∀ n ∈ s.subtrees, ¬g.ListsNothing n) ∧
      ∀ e, Rule.build g s = .error e →
        ∃ n ∈ s.subtrees, g.ListsNothing n ∧ e = .attributeOutOfRange n.category n.index 0 0) ∧
    (∀ (depth patience : Nat) (source rest : σ) (e : RuleError),
      (Rule.draw g depth).run patience source = some (.error e, rest) → g.DrawFault e) ∧
    (∀ (sampling : Sampling) (source : σ) (e : SessionError), g.check = .ok () →
      Session.start g sampling source = some (.error e) → ∃ cause, e = .rule cause ∧ g.DrawFault cause) ∧
    (∀ (t after : Session σ) (e : SessionError), t.grammar = g →
      t.reset = some (.error e, after) → ∃ cause, e = .rule cause ∧ g.DrawFault cause) ∧
    ((∀ c, ∀ a ∈ g.alternatives c, a.attributes ≠ some []) →
      ∀ e, g.DrawFault e → ∃ c, e = .noEligibleAlternative c) := by
  refine ⟨?_, ?_, ?_, ?_, ?_⟩
  · intro depth patience source rest s hrun
    obtain ⟨hrule, after, hthreads⟩ := threads_of_yields_drawRule (Draw.yields_of_run hrun)
    refine ⟨exists_build_iff_of_threads hrule hthreads, ?_⟩
    intro e he
    obtain ⟨n, hn, a, ha, hempty, heq⟩ := eq_of_build_eq_error_of_threads hrule hthreads he
    exact ⟨n, hn, ha.listsNothing_iff.mpr hempty, heq⟩
  · intro depth patience source rest e hrun
    exact drawFault_of_yields (Draw.yields_of_run hrun)
  · intro sampling source e hcheck hstart
    exact drawFault_of_start hcheck hstart
  · intro t after e hgrammar hreset
    exact hgrammar ▸ drawFault_of_reset hreset
  · intro hlists e he
    cases he with
    | nothingEligible c => exact ⟨c, rfl⟩
    | @nothingListed c i a hnamed _ _ hempty =>
      exact absurd hempty (hlists c a (List.mem_of_getElem? hnamed))

/-- A rule of the standard grammar, drawn from five words, is built; a session
over a closed grammar whose noun lists nothing is not started. -/
theorem blank_adjacent_rule_builds :
    (standard.drawRule 3).run 1 (Script.mk [0, 4000000000, 3000000000, 4000, 0x8000000000000001]) =
        some (.ok (.every .blank (.adjacentTo (.noun 0 1))), ⟨[]⟩) ∧
      (∃ r, Rule.build standard (.every .blank (.adjacentTo (.noun 0 1))) = .ok r) ∧
      (∀ e, standard.DrawFault e → ∃ c, e = .noEligibleAlternative c) ∧
      unlisted.check = .ok () ∧
      Session.start unlisted {} (Script.mk [0, 0]) =
        some (.error (.rule (.attributeOutOfRange .noun 0 0 0))) ∧
      unlisted.DrawFault (.attributeOutOfRange .noun 0 0 0) := by
  have hrun : (standard.drawRule 3).run 1 (Script.mk [0, 4000000000, 3000000000, 4000, 0x8000000000000001]) =
      some (.ok (.every .blank (.adjacentTo (.noun 0 1))), ⟨[]⟩) := rfl
  have hlists : ∀ n ∈ (Skeleton.every .blank (.adjacentTo (.noun 0 1))).subtrees,
      ¬standard.ListsNothing n := by decide
  obtain ⟨hbuilds, -, -, -, heligible⟩ := drawn_rules_build_unless_nothing_listed (σ := Script) standard
  have htable : ∀ c, ∀ a ∈ standard.alternatives c, a.attributes ≠ some [] := by
    intro c
    cases c <;> decide
  obtain ⟨-, -, hstart, -, -⟩ := drawn_rules_build_unless_nothing_listed (σ := Script) unlisted
  have hcheck : unlisted.check = .ok () := by decide
  have hfailed : Session.start unlisted {} (Script.mk [0, 0]) =
      some (.error (.rule (.attributeOutOfRange .noun 0 0 0))) := rfl
  obtain ⟨cause, hcause, hfault⟩ := hstart {} _ _ hcheck hfailed
  rw [← SessionError.rule.inj hcause] at hfault
  exact ⟨hrun, (hbuilds 3 1 _ _ _ hrun).1.mpr hlists, heligible htable, hcheck, hfailed, hfault⟩

/-- A rule that is drawn from a closed grammar and then refused. -/
theorem checked_drawn_rule_not_built :
    unlisted.check = .ok () ∧
      (unlisted.drawRule 2).run 1 (Script.mk [0, 0]) =
        some (.ok (.node .rule 0 [.leaf .noun 0 0] 0), ⟨[]⟩) ∧
      Rule.build unlisted (.node .rule 0 [.leaf .noun 0 0] 0) =
        .error (.attributeOutOfRange .noun 0 0 0) := by
  refine ⟨by decide, rfl, ?_⟩
  rfl

end Grammar

end HiddenRule
