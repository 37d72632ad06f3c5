import HiddenRule.Proofs.DrawEnds
import HiddenRule.Proofs.DrawnRules
import HiddenRule.Proofs.SessionRuns
import HiddenRule.Proofs.StandardTable
import HiddenRule.Proofs.TagRegions
import HiddenRule.Proofs.Wording

/-
  Drawing rules over the standard grammar. Every category has an alternative
  left unless all three tags are active, and no path through the table makes
  all three active before its last choice; so no draw fails, and three levels
  are as deep as it gets.

  What is proved:
    1. `finds_rule`: a draw of a rule finds one, whatever the answers.
    2. `count_of_threads`: where children chosen apart know of the tag of
       position, a tree carries this tag once at most.
    3. `standard_rules_are_found_and_described`: over every source that answers
       the questions, a rule is drawn, a session starts and every later round
       begins; the rule is fully described.
-/

namespace HiddenRule.Grammar

/-! ## Nothing is exhausted -/

/-- A category of the standard grammar offers an alternative unless all tags
are active. -/
theorem standard_offers (c : Category) {active : TagSet} (h : active ≠ ⟨true, true, true⟩) :
    standard.Offers c active := by
  have htable : ∀ color shape position : Bool, (⟨color, shape, position⟩ : TagSet) ≠ ⟨true, true, true⟩ →
      Draw.weightSum (standard.candidates c ⟨color, shape, position⟩) ≠ 0 := by
    cases c <;> decide
  exact htable active.color active.shape active.position h

variable {active : TagSet} {depth : Nat}

/-- An alternative of the standard grammar that can be chosen, by its kind. -/
theorem exists_kind {c : Category} {i : Nat} {a : Alternative} (h : standard.alternative? c i = some a) :
    ∃ kind : Kind, kind.category = c ∧ a.slots = kind.standardSlots ∧ a.tags = kind.standardTags ∧
      (a.independent = true ↔ kind = .nounPred .adjacentTo) := by
  obtain ⟨kind, hcategory, hstandard⟩ := exists_isStandard h
  exact ⟨kind, hcategory, hstandard.slots_eq, hstandard.tags_eq, by simp [hstandard.independent_eq]⟩

theorem finds_childless {c : Category} (hc : c = .noun ∨ c = .group ∨ c = .groupPred)
    (h : active ≠ ⟨true, true, true⟩) : (standard.draw (depth + 1) c active).Finds := by
  apply finds_draw_succ (standard_offers c h)
  intro i a hnamed _ _
  obtain ⟨kind, hcategory, hslots, -, -⟩ := exists_kind hnamed
  have hnone : kind.standardSlots = [] := by
    rcases hc with rfl | rfl | rfl <;> cases kind <;> first | rfl | contradiction
  rw [hslots, hnone]
  exact finds_drawChildren_nil _ _

theorem yields_noun {s : Skeleton} {after : TagSet} (h : (standard.draw depth .noun active).Yields (.ok (s, after))) :
    ∃ kind : NounKind, after = active.union (Kind.noun kind).standardTags := by
  obtain ⟨hcategory, hthreads⟩ := threads_of_yields _ _ _ _ _ h
  obtain ⟨kind, -, hafter⟩ := noun_of_threads hcategory hthreads
  exact ⟨kind, hafter⟩

theorem yields_group {s : Skeleton} {after : TagSet}
    (h : (standard.draw depth .group active).Yields (.ok (s, after))) :
    ∃ kind : GroupKind, after = active.union (Kind.group kind).standardTags := by
  obtain ⟨hcategory, hthreads⟩ := threads_of_yields _ _ _ _ _ h
  obtain ⟨kind, -, hafter⟩ := group_of_threads hcategory hthreads
  exact ⟨kind, hafter⟩

/-- The noun of an adjacency knows of the tag of position at most. -/
theorem finds_nounPred (h : active ≠ ⟨true, true, true⟩) :
    (standard.draw (depth + 2) .nounPred active).Finds := by
  apply finds_draw_succ (standard_offers _ h)
  intro i a hnamed _ _
  obtain ⟨kind, hcategory, hslots, -, hapart⟩ := exists_kind hnamed
  rw [hslots]
  cases kind with
  | nounPred kind =>
    by_cases hadjacent : kind = .adjacentTo
    · subst hadjacent
      rw [Alternative.reaching_eq_some (hapart.mpr rfl)]
      have hfree : ∀ tags : TagSet, apart tags ≠ ⟨true, true, true⟩ := by
        intro tags
        unfold apart
        split <;> decide
      refine finds_drawChildren_cons (finds_childless (.inl rfl) (hfree _)) ?_
      intro child after _
      exact finds_drawChildren_nil _ _
    · have hnone : (Kind.nounPred kind).standardSlots = [] := by
        cases kind <;> first | rfl | contradiction
      rw [hnone]
      exact finds_drawChildren_nil _ _
  | _ => contradiction

/-- A rule is found, whatever the answers. -/
theorem finds_rule : (standard.draw (depth + 3) .rule .empty).Finds := by
  apply finds_draw_succ (standard_offers _ (by decide))
  intro i a hnamed _ _
  obtain ⟨kind, hcategory, hslots, htags, hapart⟩ := exists_kind hnamed
  cases kind with
  | rule kind =>
    have hshared : a.independent = false := by
      rw [← Bool.not_eq_true, hapart]
      simp
    rw [hslots, htags, Alternative.reaching_eq_none hshared]
    cases kind with
    | every | «exists» | noneIs =>
      refine finds_drawChildren_cons (finds_childless (.inl rfl) (by decide)) ?_
      intro noun after hnoun
      obtain ⟨nounKind, rfl⟩ := yields_noun hnoun
      -- a noun has two tags at most
      refine finds_drawChildren_cons (finds_nounPred (by cases nounKind <;> decide)) ?_
      intro pred last _
      exact finds_drawChildren_nil _ _
    | everyGroup =>
      refine finds_drawChildren_cons (finds_childless (.inr (.inl rfl)) (by decide)) ?_
      intro group after hgroup
      obtain ⟨groupKind, rfl⟩ := yields_group hgroup
      refine finds_drawChildren_cons (finds_childless (.inr (.inr rfl)) (by cases groupKind <;> decide)) ?_
      intro pred last _
      exact finds_drawChildren_nil _ _
    | rowFilled | columnFilled =>
      refine finds_drawChildren_cons (finds_childless (.inl rfl) (by decide)) ?_
      intro noun after _
      exact finds_drawChildren_nil _ _
  | _ => contradiction

/-! ## One position -/

section
variable {g : Grammar} {after : TagSet}

/-- Whether a node carries the tag of position. -/
def isPositional (g : Grammar) (n : Skeleton) : Bool := (g.tagsOf n).contains .position

/-- Whether children are chosen apart only from nodes that carry the tag of
position, so that the tag reaches them. -/
def TellsPosition (g : Grammar) : Prop :=
  ∀ c, ∀ a ∈ g.alternatives c, a.independent = true → a.tags.contains .position = true

/-- A tag carried under active tags is not one of them. -/
theorem toNat_contains_union {tags : TagSet} (h : tags.intersects active = false) :
    (tags.contains .position).toNat + (active.contains .position).toNat =
      ((active.union tags).contains .position).toNat := by
  rw [TagSet.contains_union]
  cases htags : tags.contains .position with
  | false => simp
  | true => simp [TagSet.not_contains_of_not_intersects h htags]

mutual

/-- What a tree carries of the tag of position makes up what is active after
it. -/
theorem count_of_threads (hg : g.TellsPosition) : ∀ (s : Skeleton) {active after : TagSet},
    g.Threads s active after →
    s.subtrees.countP g.isPositional + (active.contains .position).toNat = (after.contains .position).toNat
  | .node c i parts choice, active, after, h => by
    obtain ⟨a, hfits, hfree, hparts⟩ := h
    have hroot : g.isPositional (.node c i parts choice) = a.tags.contains .position := by
      rw [isPositional, hfits.tagsOf_eq]
    have hcount : (Skeleton.node c i parts choice).subtrees.countP g.isPositional =
        (Skeleton.subtreesOfAll parts).countP g.isPositional + (a.tags.contains .position).toNat := by
      rw [Skeleton.subtrees, List.countP_cons, hroot]
      cases a.tags.contains .position <;> rfl
    have hunion := toNat_contains_union hfree
    cases hind : a.independent with
    | true =>
      have hposition := hg c a (List.mem_of_getElem? hfits.named) hind
      have hreach : apart (active.union a.tags) = .single .position := by
        rw [apart, TagSet.contains_union, hposition, Bool.or_true, if_pos rfl]
      rw [Alternative.reaching_eq_some hind, hreach] at hparts
      have hbelow := count_of_threadsAll_apart hg parts hparts
      rw [eq_of_threadsAll_some hparts]
      omega
    | false =>
      rw [Alternative.reaching_eq_none hind] at hparts
      have hbelow := count_of_threadsAll_shared hg parts hparts
      omega

theorem count_of_threadsAll_shared (hg : g.TellsPosition) : ∀ (parts : List Skeleton) {active after : TagSet},
    g.ThreadsAll none parts active after →
    (Skeleton.subtreesOfAll parts).countP g.isPositional + (active.contains .position).toNat =
      (after.contains .position).toNat
  | [], active, after, h => by
    have hafter : after = active := h
    simp [hafter, Skeleton.subtreesOfAll]
  | s :: rest, active, after, h => by
    obtain ⟨between, hs, hrest⟩ := threadsAll_shared.mp h
    have hfirst := count_of_threads hg s hs
    have hlater := count_of_threadsAll_shared hg rest hrest
    rw [Skeleton.subtreesOfAll, List.countP_append]
    omega

theorem count_of_threadsAll_apart (hg : g.TellsPosition) : ∀ (parts : List Skeleton) {active after : TagSet},
    g.ThreadsAll (some (.single .position)) parts active after →
    (Skeleton.subtreesOfAll parts).countP g.isPositional = 0
  | [], _, _, _ => rfl
  | s :: rest, active, after, h => by
    obtain ⟨⟨last, hs⟩, hrest⟩ := threadsAll_apart.mp h
    have hfirst := count_of_threads hg s hs
    have hlater := count_of_threadsAll_apart hg rest hrest
    have hstart : ((TagSet.single .position).contains .position).toNat = 1 := rfl
    have hlast := Bool.toNat_le (last.contains .position)
    rw [Skeleton.subtreesOfAll, List.countP_append]
    omega

end

theorem count_le_one_of_threads (hg : g.TellsPosition) {s : Skeleton} (h : g.Threads s active after) :
    s.subtrees.countP g.isPositional ≤ 1 := by
  have hcount := count_of_threads hg s h
  have hafter := Bool.toNat_le (after.contains .position)
  omega

end

theorem standard_tellsPosition : standard.TellsPosition := by
  intro c
  cases c <;> decide

theorem standardKind?_ne_of_threads {s : Skeleton} {after : TagSet} (h : standard.Threads s active after) :
    ∀ n ∈ s.subtrees, n.standardKind? ≠ some (.groupPred .identical) := by
  intro n hn
  obtain ⟨a, hfits⟩ := nodeFits_of_threads s h n hn
  obtain ⟨kind, -, hstandard⟩ := exists_isStandard hfits.named
  have hne := hstandard.weight_pos_iff.mp hfits.weighted
  rw [Skeleton.standardKind?, hfits.named, Option.bind_some, hstandard.kind_eq]
  simpa using hne

end HiddenRule.Grammar

namespace HiddenRule

/-! ## Rules and rounds -/

/-- What a rule drawn over the standard grammar promises: both texts are
complete, the tag of position stands at one node at most, and no node says that
the symbols of a group are identical. -/
structure Rule.IsStandard (r : Rule) : Prop where
  category : r.skeleton.category = .rule
  description : Text.Complete r.description.toList
  descriptionPlural : Text.Complete r.descriptionPlural.toList
  position : r.skeleton.subtrees.countP Grammar.standard.isPositional ≤ 1
  identical : ∀ n ∈ r.skeleton.subtrees, n.standardKind? ≠ some (.groupPred .identical)

namespace Grammar

variable {depth : Nat}

theorem finds_drawRule : (standard.drawRule (depth + 3)).Finds := by
  constructor
  apply Draw.Ensures.of_bind finds_rule.ensures
  intro result _ hfound
  obtain ⟨⟨s, after⟩, rfl⟩ := hfound
  exact ⟨s, rfl⟩

/-- A drawn rule is built, since no alternative of the standard grammar lists
nothing. -/
theorem exists_build_of_yields {s : Skeleton} (h : (standard.drawRule depth).Yields (.ok s)) :
    ∃ r, Rule.build standard s = .ok r ∧ r.IsStandard := by
  obtain ⟨hrule, after, hthreads⟩ := threads_of_yields_drawRule h
  have hlists : ∀ n ∈ s.subtrees, ¬standard.ListsNothing n := by
    intro n hn
    obtain ⟨a, hfits⟩ := nodeFits_of_threads s hthreads n hn
    have htable : ∀ c, ∀ a ∈ standard.alternatives c, a.attributes ≠ some [] := by
      intro c
      cases c <;> decide
    rw [hfits.listsNothing_iff]
    exact htable _ a (List.mem_of_getElem? hfits.named)
  obtain ⟨r, hr⟩ := (exists_build_iff_of_threads hrule hthreads).mpr hlists
  obtain ⟨-, hskeleton, hroot⟩ := Rule.build_eq_ok_iff.mp hr
  have hdescribed := Fragment.described_of_build standard_worded hroot
  refine ⟨r, hr, ⟨?_, hdescribed.singular, hdescribed.plural, ?_, ?_⟩⟩
  · rw [hskeleton, hrule]
  · rw [hskeleton]
    exact count_le_one_of_threads standard_tellsPosition hthreads
  · rw [hskeleton]
    exact standardKind?_ne_of_threads hthreads

/-- Whatever the answers, a random rule of the standard grammar is found. -/
theorem ensures_draw_rule :
    (Rule.draw standard (depth + 3)).Ensures fun result => ∃ r, result = .ok r ∧ r.IsStandard := by
  apply Draw.Ensures.of_bind finds_drawRule.ensures
  intro result hyields hfound
  obtain ⟨s, rfl⟩ := hfound
  obtain ⟨r, hr, hstandard⟩ := exists_build_of_yields hyields
  exact ⟨r, hr, hstandard⟩

section
variable {σ : Type} [WordSource σ] {source : σ} {patience : Nat}

theorem exists_run_rule (hdepth : 3 ≤ depth) (h : (Rule.draw standard depth).Answered patience source) :
    ∃ r rest, (Rule.draw standard depth).run patience source = some (.ok r, rest) ∧ r.IsStandard := by
  obtain ⟨more, rfl⟩ := Nat.exists_eq_add_of_le' hdepth
  obtain ⟨result, rest, hrun, r, rfl, hstandard⟩ := Draw.exists_run_of_ensures ensures_draw_rule h
  exact ⟨r, rest, hrun, hstandard⟩

theorem three_le_depth : 3 ≤ Grammar.depth := by decide

/-- A session over the standard grammar starts. -/
theorem exists_start (sampling : Sampling)
    (h : (Rule.draw standard Grammar.depth).Answered Draw.patience source) :
    ∃ t : Session σ, Session.start standard sampling source = some (.ok t) ∧ t.rule.IsStandard ∧
      t.grammar = standard := by
  obtain ⟨r, rest, hrun, hstandard⟩ := exists_run_rule three_le_depth h
  have hcheck : standard.check = .ok () := by decide
  refine ⟨⟨rest, standard, sampling, r, 1⟩, ?_, hstandard, rfl⟩
  simp only [Session.start, hcheck, hrun]

/-- A new round of a session over the standard grammar begins. -/
theorem exists_reset {t : Session σ} (hgrammar : t.grammar = standard)
    (h : (Rule.draw standard Grammar.depth).Answered Draw.patience t.source) :
    ∃ u : Session σ, t.reset = some (.ok (), u) ∧ u.rule.IsStandard := by
  obtain ⟨r, rest, hrun, hstandard⟩ := exists_run_rule three_le_depth h
  refine ⟨{ t with source := rest, rule := r, round := t.round + 1 }, ?_, hstandard⟩
  simp only [Session.reset, Session.play, hgrammar, hrun]

end

/-- **Over the standard grammar a rule is always found, and fully described.**
For every source that settles the questions asked of it: a random rule is
drawn and built; a session starts; and in whatever session is reached from
there by rounds and draws, the next round begins. -/
theorem standard_rules_are_found_and_described {σ : Type} [WordSource σ] :
    (∀ (depth patience : Nat) (source : σ), 3 ≤ depth → (Rule.draw standard depth).Answered patience source →
      ∃ r rest, (Rule.draw standard depth).run patience source = some (.ok r, rest) ∧ r.IsStandard) ∧
    (∀ (sampling : Sampling) (source : σ), (Rule.draw standard Grammar.depth).Answered Draw.patience source →
      ∃ t : Session σ, Session.start standard sampling source = some (.ok t) ∧ t.rule.IsStandard ∧
        ∀ u, t.Reaches u → (Rule.draw standard Grammar.depth).Answered Draw.patience u.source →
          ∃ v : Session σ, u.reset = some (.ok (), v) ∧ v.rule.IsStandard) := by
  refine ⟨?_, ?_⟩
  · intro depth patience source hdepth hanswered
    exact exists_run_rule hdepth hanswered
  · intro sampling source hanswered
    obtain ⟨t, hstart, hstandard, hgrammar⟩ := exists_start sampling hanswered
    refine ⟨t, hstart, hstandard, ?_⟩
    intro u hreaches hnext
    exact exists_reset (hreaches.grammar_eq.trans hgrammar) hnext

/-- The rule that every blank cell is adjacent to a yellow symbol, found from
five words; a session that starts with it, and its second round, for which the
source has only zeros left. -/
theorem blank_adjacent_rule_found :
    (∃ r rest, (Rule.draw standard 3).run 1 (Script.mk [0, 4000000000, 3000000000, 4000, 0x8000000000000001]) =
        some (.ok r, rest) ∧ r.IsStandard) ∧
      ∃ t : Session Script,
        Session.start standard {} (Script.mk [0, 4000000000, 3000000000, 4000, 0x8000000000000001]) =
            some (.ok t) ∧
          t.rule.IsStandard ∧ ∃ v : Session Script, t.reset = some (.ok (), v) ∧ v.rule.IsStandard := by
  obtain ⟨hdrawn, hsession⟩ := standard_rules_are_found_and_described (σ := Script)
  obtain ⟨_, _, hrun⟩ : ∃ result after, (Rule.draw standard 3).run 1
      (Script.mk [0, 4000000000, 3000000000, 4000, 0x8000000000000001]) = some (result, after) := ⟨_, _, rfl⟩
  obtain ⟨_, _, hfirst⟩ : ∃ result after, (Rule.draw standard Grammar.depth).run Draw.patience
      (Script.mk [0, 4000000000, 3000000000, 4000, 0x8000000000000001]) = some (result, after) := ⟨_, _, rfl⟩
  obtain ⟨_, _, hsecond⟩ : ∃ result after, (Rule.draw standard Grammar.depth).run Draw.patience
      (Script.mk []) = some (result, after) := ⟨_, _, rfl⟩
  obtain ⟨s, hstarted, hsource⟩ : ∃ s : Session Script, Session.start standard {}
      (Script.mk [0, 4000000000, 3000000000, 4000, 0x8000000000000001]) = some (.ok s) ∧
      s.source = ⟨[]⟩ := ⟨_, rfl, rfl⟩
  obtain ⟨t, ht, hstandard, hlater⟩ := hsession {} _ (Draw.answered_of_run hfirst)
  have hts : t = s := Except.ok.inj (Option.some.inj (ht.symm.trans hstarted))
  refine ⟨hdrawn 3 1 _ (Nat.le_refl 3) (Draw.answered_of_run hrun), t, ht, hstandard, hlater t .refl ?_⟩
  rw [hts, hsource]
  exact Draw.answered_of_run hsecond

end Grammar

end HiddenRule
