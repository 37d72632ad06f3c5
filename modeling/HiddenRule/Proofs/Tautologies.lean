import HiddenRule.Proofs.PaintedBoards
import HiddenRule.Proofs.Verdicts
import HiddenRule.Skeleton.Standard

/-
  Which rules about groups are tautologies. A rule says of every group of some
  kind that a group predicate holds of it, and nine of the pairs of a kind of
  group and a kind of predicate hold on every board: the group has in common
  what the predicate asks for. Each of the others is broken on one of three
  boards: one symbol everywhere, nine symbols of which no two in a line share
  anything, or one symbol in the four corners. The two of a tautology share a
  tag, and where a group is drawn its tags keep such predicates from being
  drawn after it.

  What is proved:
    1. `settledBy_iff_mem`: the nine pairs, by what a kind of group has in
       common.
    2. `trueOn_of_settledBy`, `exists_breaking`: these hold of all classes on all
       boards, and for each other pair some class of some board breaks it.
    3. `not_intersects_of_threads`: what a drawn rule says of its groups shares
       no tag with them.
    4. `group_rules_tautologous_iff`: the rules that are tautologies, and that
       none of them is drawn.
-/

namespace HiddenRule

/-- The kinds of groups with the kinds of group predicates that hold of them on
every board. -/
def tautologies : List (GroupKind × GroupPredKind) :=
  [(.sameColor, .sameColor), (.sameColor, .sameColorOrShape),
    (.sameShape, .sameShape), (.sameShape, .sameColorOrShape),
    (.identical, .sameColor), (.identical, .sameShape), (.identical, .sameColorOrShape),
    (.identical, .identical), (.adjacentPairs, .connected)]

/-- Whether a group predicate asks for what the groups of a kind have in
common. -/
def GroupPredKind.settledBy (groupKind : GroupKind) : GroupPredKind → Bool
  | .sameColor => (Kind.group groupKind).standardTags.color
  | .sameShape => (Kind.group groupKind).standardTags.shape
  | .sameColorOrShape => (Kind.group groupKind).standardTags.color || (Kind.group groupKind).standardTags.shape
  | .identical => (Kind.group groupKind).standardTags.color && (Kind.group groupKind).standardTags.shape
  | .differentColors | .differentShapes => false
  | .connected => groupKind == .adjacentPairs

/-! ## Classes with something in common -/

namespace GroupKind

variable {kind : GroupKind} {b : Board} {S : Set Place}

/-- A class of a kind that is about color is of one color. -/
theorem sameColor_of_isClass (hcolor : (Kind.group kind).standardTags.color = true) (h : kind.IsClass b S) :
    GroupPredKind.sameColor.TrueOn b S := by
  intro p hp q hq
  cases kind with
  | sameColor =>
    obtain ⟨c, rfl⟩ := h
    exact Eq.trans hp (Eq.symm hq)
  | identical =>
    obtain ⟨c, s, rfl⟩ := h
    exact congrArg (Option.map Symbol.color) (Eq.trans hp (Eq.symm hq))
  | _ => contradiction

/-- A class of a kind that is about shape is of one shape. -/
theorem sameShape_of_isClass (hshape : (Kind.group kind).standardTags.shape = true) (h : kind.IsClass b S) :
    GroupPredKind.sameShape.TrueOn b S := by
  intro p hp q hq
  cases kind with
  | sameShape =>
    obtain ⟨s, rfl⟩ := h
    exact Eq.trans hp (Eq.symm hq)
  | identical =>
    obtain ⟨c, s, rfl⟩ := h
    exact congrArg (Option.map Symbol.shape) (Eq.trans hp (Eq.symm hq))
  | _ => contradiction

end GroupKind

/-- Two places one step apart hang together. -/
theorem Place.linked_pair {p q : Place} (h : p.distance q = 1) :
    ∀ r ∈ ({p, q} : Set Place), ∀ t ∈ ({p, q} : Set Place), Linked {p, q} r t := by
  have hback : q.distance p = 1 := by rw [← h, distance, distance]; omega
  rintro r (rfl | rfl) t (rfl | rfl)
  · exact .refl
  · exact .single ⟨.inl rfl, .inr rfl, h⟩
  · exact .single ⟨.inr rfl, .inl rfl, hback⟩
  · exact .refl

namespace GroupPredKind

variable {groupKind : GroupKind} {predKind : GroupPredKind}

theorem settledBy_iff_mem : predKind.settledBy groupKind = true ↔ (groupKind, predKind) ∈ tautologies := by
  cases predKind <;> cases groupKind <;> decide

/-- What asks for what the groups have in common is true of all of them. -/
theorem trueOn_of_settledBy (h : predKind.settledBy groupKind = true) {b : Board} {S : Set Place}
    (hS : groupKind.IsClass b S) : predKind.TrueOn b S := by
  cases predKind with
  | sameColor => exact GroupKind.sameColor_of_isClass h hS
  | sameShape => exact GroupKind.sameShape_of_isClass h hS
  | sameColorOrShape =>
    rcases Bool.or_eq_true_iff.mp h with hcolor | hshape
    · exact .inl (GroupKind.sameColor_of_isClass hcolor hS)
    · exact .inr (GroupKind.sameShape_of_isClass hshape hS)
  | identical =>
    cases groupKind with
    | identical =>
      obtain ⟨c, s, rfl⟩ := hS
      intro p hp q hq
      exact Eq.trans hp (Eq.symm hq)
    | _ => contradiction
  | connected =>
    cases eq_of_beq h
    obtain ⟨p, q, -, -, hstep, rfl⟩ := hS
    exact Place.linked_pair hstep
  | differentColors => contradiction
  | differentShapes => contradiction

/-- Of a kind of groups that are not pairs, some group of corners does not hang
together. -/
theorem exists_unlinked_corners (h : groupKind ≠ .adjacentPairs) :
    ∃ S, groupKind.IsClass .corners S ∧ ∃ q, (0, 0) ∈ S ∧ q ∈ S ∧ ¬Place.Linked S (0, 0) q := by
  obtain ⟨S, hS, q, hfirst, hq, hne⟩ : ∃ S, groupKind.IsClass .corners S ∧
      ∃ q : Place, (0, 0) ∈ S ∧ q ∈ S ∧ (0, 0) ≠ q := by
    cases groupKind with
    | allSymbols => exact ⟨_, rfl, (2, 2), ⟨_, rfl⟩, ⟨_, rfl⟩, by decide⟩
    | rows => exact ⟨_, ⟨0, rfl⟩, (0, 2), ⟨⟨_, rfl⟩, rfl⟩, ⟨⟨_, rfl⟩, rfl⟩, by decide⟩
    | columns => exact ⟨_, ⟨0, rfl⟩, (2, 0), ⟨⟨_, rfl⟩, rfl⟩, ⟨⟨_, rfl⟩, rfl⟩, by decide⟩
    | sameColor => exact ⟨_, ⟨.red, rfl⟩, (2, 2), rfl, rfl, by decide⟩
    | sameShape => exact ⟨_, ⟨.circle, rfl⟩, (2, 2), rfl, rfl, by decide⟩
    | identical => exact ⟨_, ⟨.red, .circle, rfl⟩, (2, 2), rfl, rfl, by decide⟩
    | adjacentPairs => exact absurd rfl h
  exact ⟨S, hS, q, hfirst, hq, Board.not_linked_corners (GroupKind.occupiedAt_of_isClass hS) hne⟩

/-- For every group predicate that asks for something else there is a board of
the standard fill where some class breaks it. -/
theorem exists_breaking (h : predKind.settledBy groupKind = false) :
    ∃ b, FillRange.standard.Allows b ∧
      ∃ S, groupKind.IsClass b S ∧ S.Nonempty ∧ ¬predKind.TrueOn b S := by
  obtain ⟨U, hU, p, hp, q, hq, hpq⟩ := Board.exists_class_of_uniform groupKind ⟨.red, .circle⟩
  obtain ⟨L, hL, r, hr, t, ht, hcolor, hshape⟩ := Board.exists_class_of_latin groupKind
  cases predKind with
  | sameColor =>
    refine ⟨.latin, Board.allows_latin, L, hL, ⟨r, hr⟩, fun hsame => ?_⟩
    exact hcolor h (hsame r hr t ht)
  | sameShape =>
    refine ⟨.latin, Board.allows_latin, L, hL, ⟨r, hr⟩, fun hsame => ?_⟩
    exact hshape h (hsame r hr t ht)
  | sameColorOrShape =>
    obtain ⟨hnocolor, hnoshape⟩ := Bool.or_eq_false_iff.mp h
    refine ⟨.latin, Board.allows_latin, L, hL, ⟨r, hr⟩, fun hsame => ?_⟩
    rcases hsame with hsame | hsame
    · exact hcolor hnocolor (hsame r hr t ht)
    · exact hshape hnoshape (hsame r hr t ht)
  | identical =>
    refine ⟨.latin, Board.allows_latin, L, hL, ⟨r, hr⟩, fun hsame => ?_⟩
    have halike := hsame r hr t ht
    rcases Bool.and_eq_false_iff.mp h with hnocolor | hnoshape
    · exact hcolor hnocolor (congrArg (Option.map Symbol.color) halike)
    · exact hshape hnoshape (congrArg (Option.map Symbol.shape) halike)
  | differentColors =>
    refine ⟨.uniform ⟨.red, .circle⟩, Board.allows_uniform _, U, hU, ⟨p, hp⟩, fun hdifferent => ?_⟩
    exact hdifferent p hp q hq hpq ((Board.trueOn_uniform _ U).1 p hp q hq)
  | differentShapes =>
    refine ⟨.uniform ⟨.red, .circle⟩, Board.allows_uniform _, U, hU, ⟨p, hp⟩, fun hdifferent => ?_⟩
    exact hdifferent p hp q hq hpq ((Board.trueOn_uniform _ U).2 p hp q hq)
  | connected =>
    obtain ⟨S, hS, q, hfirst, hq, hapart⟩ := exists_unlinked_corners (ne_of_beq_false h)
    refine ⟨.corners, Board.allows_corners, S, hS, ⟨_, hfirst⟩, fun hconnected => ?_⟩
    exact hapart (hconnected _ hfirst _ hq)

/-- What asks for what the groups have in common speaks of it. -/
theorem intersects_of_settledBy (h : predKind.settledBy groupKind = true) :
    (Kind.groupPred predKind).standardTags.intersects (Kind.group groupKind).standardTags = true := by
  have htable : ∀ pair ∈ tautologies,
      (Kind.groupPred pair.2).standardTags.intersects (Kind.group pair.1).standardTags = true := by decide
  exact htable _ (settledBy_iff_mem.mp h)

end GroupPredKind

/-! ## Rules about groups -/

namespace Skeleton

/-- Whether a tree says of all groups of a kind that a group predicate of a kind
holds of them. -/
def IsEveryGroup (groupKind : GroupKind) (predKind : GroupPredKind) (s : Skeleton) : Prop :=
  s.standardKind? = some (.rule .everyGroup) ∧
    s.children.map standardKind? = [some (.group groupKind), some (.groupPred predKind)]

variable {groupKind : GroupKind} {predKind : GroupPredKind} {s : Skeleton}

theorem exists_of_isEveryGroup (h : s.IsEveryGroup groupKind predKind) :
    ∃ n m, s.children = [n, m] ∧ n.standardKind? = some (.group groupKind) ∧
      m.standardKind? = some (.groupPred predKind) := by
  obtain ⟨n, rest, hchildren, hn, hrest⟩ := List.map_eq_cons_iff.mp h.2
  obtain ⟨m, rfl, hm⟩ := List.map_eq_singleton_iff.mp hrest
  exact ⟨n, m, hchildren, hn, hm⟩

theorem holds_iff_of_isEveryGroup (h : s.IsEveryGroup groupKind predKind) (b : Board) :
    s.Holds b ↔ ∀ S, groupKind.IsClass b S → S.Nonempty → predKind.TrueOn b S := by
  obtain ⟨n, m, hchildren, hn, hm⟩ := exists_of_isEveryGroup h
  simp only [Holds, h.1, hchildren, isClass_eq hn, trueOn_eq hm]

/-- A rule about groups holds of every board exactly if its two kinds are those
of a tautology. -/
theorem forall_holds_iff (h : s.IsEveryGroup groupKind predKind) :
    (∀ b, s.Holds b) ↔ (groupKind, predKind) ∈ tautologies := by
  simp only [holds_iff_of_isEveryGroup h]
  rw [← GroupPredKind.settledBy_iff_mem]
  refine ⟨?_, ?_⟩
  · intro hall
    by_contra hother
    rw [Bool.not_eq_true] at hother
    obtain ⟨b, -, S, hS, hnonempty, hbreaks⟩ := GroupPredKind.exists_breaking hother
    exact hbreaks (hall b S hS hnonempty)
  · intro hsettled b S hS _
    exact GroupPredKind.trueOn_of_settledBy hsettled hS

theorem exists_group (groupKind : GroupKind) :
    ∃ i, (group i).standardKind? = some (.group groupKind) ∧ Grammar.standard.Builds (group i) := by
  cases groupKind with
  | allSymbols => exact ⟨0, rfl, _, rfl, rfl, nofun⟩
  | rows => exact ⟨1, rfl, _, rfl, rfl, nofun⟩
  | columns => exact ⟨2, rfl, _, rfl, rfl, nofun⟩
  | sameColor => exact ⟨3, rfl, _, rfl, rfl, nofun⟩
  | sameShape => exact ⟨4, rfl, _, rfl, rfl, nofun⟩
  | identical => exact ⟨5, rfl, _, rfl, rfl, nofun⟩
  | adjacentPairs => exact ⟨6, rfl, _, rfl, rfl, nofun⟩

theorem exists_groupPred (predKind : GroupPredKind) :
    ∃ i, (groupPred i).standardKind? = some (.groupPred predKind) ∧ Grammar.standard.Builds (groupPred i) := by
  cases predKind with
  | sameColor => exact ⟨0, rfl, _, rfl, rfl, nofun⟩
  | differentColors => exact ⟨1, rfl, _, rfl, rfl, nofun⟩
  | sameShape => exact ⟨2, rfl, _, rfl, rfl, nofun⟩
  | differentShapes => exact ⟨3, rfl, _, rfl, rfl, nofun⟩
  | sameColorOrShape => exact ⟨4, rfl, _, rfl, rfl, nofun⟩
  | identical => exact ⟨5, rfl, _, rfl, rfl, nofun⟩
  | connected => exact ⟨6, rfl, _, rfl, rfl, nofun⟩

/-- There is a rule for every kind of group and every kind of group predicate. -/
theorem exists_rule (groupKind : GroupKind) (predKind : GroupPredKind) :
    ∃ s r, Rule.build Grammar.standard s = .ok r ∧ s.IsEveryGroup groupKind predKind := by
  obtain ⟨i, hi, hgroup⟩ := exists_group groupKind
  obtain ⟨j, hj, hpred⟩ := exists_groupPred predKind
  have hbuilds : ∀ n ∈ (everyGroup (group i) (groupPred j)).subtrees, Grammar.standard.Builds n := by
    rintro n (_ | ⟨_, _ | ⟨_, _ | ⟨_, hn⟩⟩⟩)
    · exact ⟨_, rfl, rfl, nofun⟩
    · exact hgroup
    · exact hpred
    · cases hn
  obtain ⟨f, hf⟩ := Fragment.exists_build_eq_ok_iff.mpr hbuilds
  refine ⟨_, ⟨_, f⟩, Rule.build_eq_ok_iff.mpr ⟨rfl, rfl, hf⟩, rfl, ?_⟩
  show [(group i).standardKind?, (groupPred j).standardKind?] = _
  rw [hi, hj]

end Skeleton

/-! ## Drawn rules -/

namespace Grammar

variable {groupKind : GroupKind} {predKind : GroupPredKind} {n : Skeleton} {active after : TagSet}

/-- What a drawn rule says of its groups shares no tag with them. -/
theorem not_intersects_of_threads (h : standard.Threads n active after) (hn : n.IsEveryGroup groupKind predKind) :
    (Kind.groupPred predKind).standardTags.intersects (Kind.group groupKind).standardTags = false := by
  obtain ⟨kind, -, -, hdrawn, hslots, hparts⟩ := exists_drawnAs_of_threads h
  obtain ⟨g, p, hchildren, hg, hp⟩ := Skeleton.exists_of_isEveryGroup hn
  have hkind := hdrawn.kind_eq
  rw [hn.1, Option.some.injEq] at hkind
  subst hkind
  rw [hchildren] at hslots
  rw [hchildren, if_neg nofun] at hparts
  have hcategories : g.category = .group ∧ p.category = .groupPred := by
    simpa [Kind.standardSlots] using hslots
  obtain ⟨between, hgroup, last, hpred, -⟩ := hparts
  obtain ⟨groupKind', hdrawnGroup, rfl⟩ := group_of_threads hcategories.1 hgroup
  obtain ⟨predKind', hdrawnPred, -⟩ := groupPred_of_threads hcategories.2 hpred
  obtain rfl : groupKind = groupKind' := by simpa [hg] using hdrawnGroup.kind_eq
  obtain rfl : predKind = predKind' := by simpa [hp] using hdrawnPred.kind_eq
  -- the tags of the group are among those active around the predicate
  rw [← Bool.not_eq_true, TagSet.intersects_eq_true_iff]
  rintro ⟨x, hpredTag, hgroupTag⟩
  have hinactive : ((active.union _).union (Kind.group groupKind).standardTags).contains x = false :=
    TagSet.not_contains_of_not_intersects hdrawnPred.excluded hpredTag
  rw [TagSet.contains_union, hgroupTag, Bool.or_true] at hinactive
  contradiction

/-- No tautology is drawn. -/
theorem not_isEveryGroup_of_yields {depth : Nat} {c : Category} {s : Skeleton}
    (h : (standard.draw depth c active).Yields (.ok (s, after))) (htautology : (groupKind, predKind) ∈ tautologies) :
    ∀ n ∈ s.subtrees, ¬n.IsEveryGroup groupKind predKind := by
  intro n hn hrule
  obtain ⟨-, hthreads⟩ := threads_of_yields depth c active s after h
  obtain ⟨around, last, hbelow⟩ := exists_threads_of_mem_subtrees s hthreads n hn
  have hshared := GroupPredKind.intersects_of_settledBy (GroupPredKind.settledBy_iff_mem.mpr htautology)
  rw [not_intersects_of_threads hbelow hrule] at hshared
  contradiction

/-- The tags of an alternative of the standard grammar are those of its kind. -/
theorem tags_eq_of_kind_eq {c : Category} {i : Nat} {a : Alternative} {kind : Kind}
    (h : standard.alternative? c i = some a) (hkind : a.kind = some kind) : a.tags = kind.standardTags := by
  obtain ⟨kind', -, hstandard⟩ := exists_isStandard h
  rw [hstandard.kind_eq, Option.some.injEq] at hkind
  rw [hstandard.tags_eq, hkind]

/-- **Which rules about groups are tautologies.** For every kind of group and
every kind of group predicate there is a rule of the standard grammar, and such
a rule judges every board true exactly if the pair is one of nine. The
alternatives of these nine share a tag, wherever they stand in the table; and no
draw, from whatever words and under whatever tags, has such a rule in it. -/
theorem group_rules_tautologous_iff (groupKind : GroupKind) (predKind : GroupPredKind) :
    (∃ s r, Rule.build standard s = .ok r ∧ s.IsEveryGroup groupKind predKind) ∧
    (∀ s r, Rule.build standard s = .ok r → s.IsEveryGroup groupKind predKind →
      ((∀ b, r.judge b = true) ↔ (groupKind, predKind) ∈ tautologies)) ∧
    ((groupKind, predKind) ∈ tautologies →
      (∀ i j a p, standard.alternative? .group i = some a → a.kind = some (.group groupKind) →
        standard.alternative? .groupPred j = some p → p.kind = some (.groupPred predKind) →
        p.tags.intersects a.tags = true) ∧
      ∀ (σ : Type) [WordSource σ] (depth patience : Nat) (c : Category) (active after : TagSet) (source rest : σ)
        (s : Skeleton), (standard.draw depth c active).run patience source = some (.ok (s, after), rest) →
        ∀ n ∈ s.subtrees, ¬n.IsEveryGroup groupKind predKind) := by
  refine ⟨Skeleton.exists_rule groupKind predKind, ?_, ?_⟩
  · intro s r hbuild hrule
    simp only [Rule.judge_iff_holds hbuild]
    exact Skeleton.forall_holds_iff hrule
  · intro htautology
    refine ⟨?_, ?_⟩
    · intro i j a p ha hgroup hp hpred
      rw [tags_eq_of_kind_eq ha hgroup, tags_eq_of_kind_eq hp hpred]
      exact GroupPredKind.intersects_of_settledBy (GroupPredKind.settledBy_iff_mem.mpr htautology)
    · intro σ _ depth patience c active after source rest s hrun
      exact not_isEveryGroup_of_yields (Draw.yields_of_run hrun) htautology

/-- Symbols with the same color are always the same color or shape, and are not
always different shapes. The first is kept from being drawn by the tag of color;
three words draw the second. -/
theorem colors_with_two_predicates :
    (∃ r, Rule.build standard (.everyGroup (.group 3) (.groupPred 4)) = .ok r ∧ ∀ b, r.judge b = true) ∧
    (∃ r, Rule.build standard (.everyGroup (.group 3) (.groupPred 3)) = .ok r ∧ ∃ b, r.judge b = false) ∧
    (∃ a p, standard.alternative? .group 3 = some a ∧ standard.alternative? .groupPred 4 = some p ∧
      p.tags.intersects a.tags = true) ∧
    (standard.draw 3 .rule .empty).run 1 (Script.mk [0x80000000, 0x80000000, 0x80000000]) =
      some (.ok (.everyGroup (.group 3) (.groupPred 3), ⟨true, true, false⟩), ⟨[]⟩) ∧
    ∀ n ∈ (Skeleton.everyGroup (.group 3) (.groupPred 3)).subtrees,
      ¬n.IsEveryGroup .sameColor .sameColorOrShape := by
  obtain ⟨r, hbuild⟩ : ∃ r, Rule.build standard (.everyGroup (.group 3) (.groupPred 4)) = .ok r := ⟨_, rfl⟩
  obtain ⟨q, hbuild'⟩ : ∃ q, Rule.build standard (.everyGroup (.group 3) (.groupPred 3)) = .ok q := ⟨_, rfl⟩
  have hrun : (standard.draw 3 .rule .empty).run 1 (Script.mk [0x80000000, 0x80000000, 0x80000000]) =
      some (.ok (.everyGroup (.group 3) (.groupPred 3), ⟨true, true, false⟩), ⟨[]⟩) := rfl
  obtain ⟨-, htautologous, hexcluded⟩ := group_rules_tautologous_iff .sameColor .sameColorOrShape
  obtain ⟨-, hother, -⟩ := group_rules_tautologous_iff .sameColor .differentShapes
  obtain ⟨htags, hdraws⟩ := hexcluded (by decide)
  refine ⟨⟨r, hbuild, ?_⟩, ⟨q, hbuild', ?_⟩, ⟨_, _, rfl, rfl, htags 3 4 _ _ rfl rfl rfl rfl⟩, hrun, ?_⟩
  · exact (htautologous _ r hbuild ⟨rfl, rfl⟩).mpr (by decide)
  · by_contra hnone
    simp only [not_exists, Bool.not_eq_false] at hnone
    exact absurd ((hother _ q hbuild' ⟨rfl, rfl⟩).mp hnone) (by decide)
  · exact hdraws _ 3 1 _ _ _ _ _ _ hrun

end Grammar

end HiddenRule
