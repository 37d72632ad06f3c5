import HiddenRule.Proofs.BoardDraws
import HiddenRule.Proofs.DrawnRules
import HiddenRule.Proofs.Tautologies

/-
  Every rule that can be drawn over the standard grammar is a puzzle: some
  board with a usual number of symbols follows it, and some such board breaks
  it. The tags are what makes it so. A noun and a predicate that share no tag
  are independent, and so are a group and a group predicate.

  What is proved:
    1. `exists_vacant`, `exists_splits`: for a noun there is a board without a
       place of it, and for a noun with its predicate a board where the
       predicate is true of some places of the noun and false of others.
    2. `exists_accepting`, `exists_rejecting`: the same for a group predicate
       and the classes of a group.
    3. `drawn_rules_divide_boards`: every random rule is followed by one board
       and broken by another, both of the standard fill.
-/

namespace HiddenRule

/-- Whether there are boards within a range that have a property, and boards
within it that lack it. -/
def FillRange.Divides (range : FillRange) (property : Board → Prop) : Prop :=
  (∃ b, range.Allows b ∧ property b) ∧ ∃ b, range.Allows b ∧ ¬property b

/-- Whether a predicate is true of some places of a noun and false of others. -/
structure Splits (noun pred : Place → Prop) : Prop where
  met : ∃ p, noun p ∧ pred p
  missed : ∃ p, noun p ∧ ¬pred p

/-! ## Boards that split a noun -/

namespace Board

theorem symbolAt_slanted (x : Option Symbol) (z : Symbol) (d : Fin 3) : (slanted x z).symbolAt (d, d) = x := by
  rw [slanted, symbolAt_paint]
  exact if_pos rfl

theorem symbolAt_slanted_of_ne (x : Option Symbol) (z : Symbol) {p : Place} (h : p.1 ≠ p.2) :
    (slanted x z).symbolAt p = some z := by
  rw [slanted, symbolAt_paint]
  exact if_neg h

/-- A noun told by a content is split by a line, along the diagonal. -/
theorem splits_slanted_of_line {noun : Board → Place → Prop} {x : Option Symbol} {z : Symbol}
    (htells : Tells noun x (some z)) {pred : Place → Prop} (r : Fin 3) (hpred : ∀ d, pred (d, d) ↔ d = r) :
    Splits (noun (slanted x z)) pred := by
  obtain ⟨d, hd⟩ := exists_ne r
  refine ⟨⟨(r, r), ?_, (hpred r).mpr rfl⟩, ⟨(d, d), ?_, fun h => hd ((hpred d).mp h)⟩⟩
  · exact htells.holds _ _ (symbolAt_slanted x z r)
  · exact htells.holds _ _ (symbolAt_slanted x z d)

/-- A predicate told by a symbol splits whatever is named both on the diagonal
and off it. -/
theorem splits_slanted_of_tells {pred : Board → Place → Prop} {x : Option Symbol} {z : Symbol}
    (htells : Tells pred x (some z)) {noun : Place → Prop} {d : Fin 3} {p : Place} (hd : noun (d, d))
    (hp : noun p) (hoff : p.1 ≠ p.2) : Splits noun (pred (slanted x z)) := by
  refine ⟨⟨(d, d), hd, ?_⟩, ⟨p, hp, ?_⟩⟩
  · exact htells.holds _ _ (symbolAt_slanted x z d)
  · exact htells.fails _ _ (symbolAt_slanted_of_ne x z hoff)

/-- A noun told by a content is split by the adjacency to another such noun,
whatever the two have in common. -/
theorem splits_beside {noun nested : Board → Place → Prop} {x y w : Option Symbol} {z : Symbol}
    (hnoun : Tells noun x w) (hnested : Tells nested y (some z)) :
    Splits (noun (beside x y z)) fun p => ∃ q, p.distance q = 1 ∧ nested (beside x y z) q := by
  refine ⟨⟨(0, 0), ?_, (0, 1), rfl, ?_⟩, ⟨(2, 2), ?_, ?_⟩⟩
  · exact hnoun.holds _ _ (symbolAt_paint _ _)
  · exact hnested.holds _ _ (symbolAt_paint _ _)
  · exact hnoun.holds _ _ (symbolAt_paint _ _)
  · intro h
    obtain ⟨q, hstep, hq⟩ := h
    -- no neighbor of the corner is one of the places painted otherwise
    have hfar : ∀ q : Place, Place.distance (2, 2) q = 1 →
        ¬(q.cell = 0 ∨ q.cell = 8) ∧ q.cell ≠ 1 := by decide
    obtain ⟨hcorner, hside⟩ := hfar q hstep
    refine hnested.fails _ _ ?_ hq
    rw [beside, symbolAt_paint, if_neg hcorner, if_neg hside]

end Board

/-! ## Nouns and predicates -/

namespace Skeleton

variable {n m : Skeleton} {active : TagSet}

theorem exists_tells {kind : NounKind} (h : n.DrawnAs (.noun kind) active)
    (hlines : (Kind.noun kind).standardTags.position = false) :
    ∃ x z, Tells (fun b p => n.Names b p) x (some z) := by
  obtain ⟨x, z, htells⟩ := NounKind.exists_tells hlines h.choice_lt
  refine ⟨x, z, ?_⟩
  simpa only [names_eq h.kind_eq] using htells

/-- A noun that is about lines names the symbols of one row or of one column. -/
theorem names_line_iff {kind : NounKind} (h : n.DrawnAs (.noun kind) active)
    (hlines : (Kind.noun kind).standardTags.position = true) :
    ∃ (line : Place → Fin 3) (r : Fin 3), (line = Prod.fst ∨ line = Prod.snd) ∧
      ∀ b p, n.Names b p ↔ b.OccupiedAt p ∧ line p = r := by
  have hchoice := h.choice_lt
  cases kind with
  | row =>
    refine ⟨Prod.fst, ⟨n.choice, hchoice⟩, .inl rfl, ?_⟩
    intro b p
    rw [names_eq h.kind_eq, Fin.ext_iff]
    rfl
  | column =>
    refine ⟨Prod.snd, ⟨n.choice, hchoice⟩, .inr rfl, ?_⟩
    intro b p
    rw [names_eq h.kind_eq, Fin.ext_iff]
    rfl
  | _ => contradiction

/-- For every noun there is a board without a place of it. -/
theorem exists_vacant {kind : NounKind} (h : n.DrawnAs (.noun kind) active) :
    ∃ b, FillRange.standard.Allows b ∧ ∀ p, ¬n.Names b p := by
  cases hlines : (Kind.noun kind).standardTags.position with
  | false =>
    obtain ⟨x, z, htells⟩ := exists_tells h hlines
    exact ⟨.uniform z, Board.allows_uniform z, fun p => htells.fails _ p (Board.symbolAt_paint _ p)⟩
  | true =>
    -- a row or a column is a noun of symbols, so it suffices to keep it empty
    obtain ⟨line, r, hline, hnames⟩ := names_line_iff h hlines
    have hvacant : ∀ p, ¬n.Names (.lineless line r) p := by
      intro p hp
      obtain ⟨hoccupied, hin⟩ := (hnames _ p).mp hp
      exact Board.not_occupiedAt_lineless hin hoccupied
    refine ⟨.lineless line r, ?_, hvacant⟩
    rcases hline with rfl | rfl
    · exact Board.allows_rowless r
    · exact Board.allows_columnless r

/-- What is drawn under the tag of position is not about lines. -/
theorem DrawnAs.lines_eq_false {kind : Kind} (h : n.DrawnAs kind (.single .position)) :
    kind.standardTags.position = false := by
  by_contra hposition
  rw [Bool.not_eq_false] at hposition
  exact absurd (TagSet.not_contains_of_not_intersects (x := .position) h.excluded hposition) (by decide)

/-- For every noun that is not about lines there is a board with a row and a
column of it. -/
theorem exists_filled {kind : NounKind} (h : n.DrawnAs (.noun kind) (.single .position)) :
    ∃ b, FillRange.standard.Allows b ∧ (∃ r, ∀ p : Place, p.1 = r → n.Names b p) ∧
      ∃ c, ∀ p : Place, p.2 = c → n.Names b p := by
  obtain ⟨x, z, htells⟩ := exists_tells h h.lines_eq_false
  refine ⟨.edged x z, Board.allows_edged x z, ⟨2, fun p hp => ?_⟩, ⟨2, fun p hp => ?_⟩⟩
  · exact htells.holds _ _ ((Board.symbolAt_paint _ p).trans (if_pos (.inl (congrArg Fin.val hp))))
  · exact htells.holds _ _ ((Board.symbolAt_paint _ p).trans (if_pos (.inr (congrArg Fin.val hp))))

/-- A noun that is not about lines is split by every row and every column. -/
theorem exists_splits_of_line {kind : NounKind} (h : n.DrawnAs (.noun kind) active)
    (hlines : (Kind.noun kind).standardTags.position = false) {pred : Board → Place → Prop} (r : Fin 3)
    (hpred : ∀ b d, pred b (d, d) ↔ d = r) :
    ∃ b, FillRange.standard.Allows b ∧ Splits (n.Names b) (pred b) := by
  obtain ⟨x, z, htells⟩ := exists_tells h hlines
  exact ⟨.slanted x z, Board.allows_slanted x z, Board.splits_slanted_of_line htells r (hpred _)⟩

/-- A row or a column is split by every predicate that tells symbols. -/
theorem exists_splits_of_tells {kind : NounKind} (h : n.DrawnAs (.noun kind) active)
    (hlines : (Kind.noun kind).standardTags.position = true) {pred : Board → Place → Prop}
    {s t : Symbol} (htells : Tells pred (some s) (some t)) :
    ∃ b, FillRange.standard.Allows b ∧ Splits (n.Names b) (pred b) := by
  obtain ⟨line, r, hline, hnames⟩ := names_line_iff h hlines
  have hin : ∀ p, line p = r → n.Names (.slanted (some s) t) p := by
    intro p hp
    refine (hnames _ p).mpr ⟨?_, hp⟩
    by_cases hdiagonal : p.1 = p.2
    · exact ⟨s, (Board.symbolAt_paint _ p).trans (if_pos hdiagonal)⟩
    · exact ⟨t, Board.symbolAt_slanted_of_ne _ t hdiagonal⟩
  obtain ⟨d, hd⟩ := exists_ne r
  refine ⟨.slanted (some s) t, Board.allows_slanted _ t, ?_⟩
  -- the line meets the diagonal once, and has places off it
  rcases hline with rfl | rfl
  · exact Board.splits_slanted_of_tells htells (hin (r, r) rfl) (hin (r, d) rfl) hd.symm
  · exact Board.splits_slanted_of_tells htells (hin (r, r) rfl) (hin (d, r) rfl) hd

/-- A noun whose two symbols are told by a predicate is split by it. -/
theorem exists_splits_of_both {s t : Symbol} {pred : Board → Place → Prop}
    (hs : ∀ b p, b.symbolAt p = some s → n.Names b p) (ht : ∀ b p, b.symbolAt p = some t → n.Names b p)
    (htells : Tells pred (some s) (some t)) :
    ∃ b, FillRange.standard.Allows b ∧ Splits (n.Names b) (pred b) := by
  have hoff : ((0, 1) : Place).1 ≠ ((0, 1) : Place).2 := by decide
  refine ⟨.slanted (some s) t, Board.allows_slanted _ t, ?_⟩
  refine Board.splits_slanted_of_tells (d := 0) (p := (0, 1)) htells ?_ ?_ hoff
  · exact hs _ _ (Board.symbolAt_slanted _ t 0)
  · exact ht _ _ (Board.symbolAt_slanted_of_ne _ t hoff)

/-- A noun is split by every predicate of color that can be drawn with it. -/
theorem exists_splits_of_color {kind : NounKind} (hn : n.DrawnAs (.noun kind) active)
    (hm : m.DrawnAs (.nounPred .color) (Kind.noun kind).standardTags) :
    ∃ b, FillRange.standard.Allows b ∧ Splits (n.Names b) (m.TrueOf b) := by
  have htrue : ∀ b p, m.TrueOf b p = ∃ c, b.colorAt p = some c ∧ c.index = m.choice :=
    fun b p => trueOf_eq hm.kind_eq p
  obtain ⟨c, d, hc, hd⟩ := Color.exists_index hm.choice_lt
  have htells : ∀ s, Tells (fun b p => m.TrueOf b p) (some ⟨c, s⟩) (some ⟨d, s⟩) := by
    intro s
    simpa only [htrue] using tells_color hc hd s
  -- a noun of color, and the blank one, share the tag and are not drawn here
  have hexcluded := hm.excluded
  cases kind with
  | shape =>
    obtain ⟨s, -, hs, -⟩ := Shape.exists_index hn.choice_lt
    have hnames : ∀ (e : Color) (b : Board) (p : Place), b.symbolAt p = some ⟨e, s⟩ → n.Names b p := by
      intro e b p h
      rw [names_eq hn.kind_eq]
      exact (Board.exists_shapeAt_iff h n.choice).mpr hs
    exact exists_splits_of_both (hnames c) (hnames d) (htells s)
  | row => exact exists_splits_of_tells hn rfl (htells .circle)
  | column => exact exists_splits_of_tells hn rfl (htells .circle)
  | _ => contradiction

/-- A noun is split by every predicate of shape that can be drawn with it. -/
theorem exists_splits_of_shape {kind : NounKind} (hn : n.DrawnAs (.noun kind) active)
    (hm : m.DrawnAs (.nounPred .shape) (Kind.noun kind).standardTags) :
    ∃ b, FillRange.standard.Allows b ∧ Splits (n.Names b) (m.TrueOf b) := by
  have htrue : ∀ b p, m.TrueOf b p = ∃ s, b.shapeAt p = some s ∧ s.index = m.choice :=
    fun b p => trueOf_eq hm.kind_eq p
  obtain ⟨s, t, hs, ht⟩ := Shape.exists_index hm.choice_lt
  have htells : ∀ c, Tells (fun b p => m.TrueOf b p) (some ⟨c, s⟩) (some ⟨c, t⟩) := by
    intro c
    simpa only [htrue] using tells_shape hs ht c
  -- a noun of shape, and the blank one, share the tag and are not drawn here
  have hexcluded := hm.excluded
  cases kind with
  | color =>
    obtain ⟨c, -, hc, -⟩ := Color.exists_index hn.choice_lt
    have hnames : ∀ (u : Shape) (b : Board) (p : Place), b.symbolAt p = some ⟨c, u⟩ → n.Names b p := by
      intro u b p h
      rw [names_eq hn.kind_eq]
      exact (Board.exists_colorAt_iff h n.choice).mpr hc
    exact exists_splits_of_both (hnames s) (hnames t) (htells c)
  | row => exact exists_splits_of_tells hn rfl (htells .red)
  | column => exact exists_splits_of_tells hn rfl (htells .red)
  | _ => contradiction

/-- A noun is split by the adjacency to every noun that can be drawn in it. -/
theorem exists_splits_of_adjacentTo {kind nestedKind : NounKind} {nested : Skeleton}
    (hn : n.DrawnAs (.noun kind) active) (hlines : (Kind.noun kind).standardTags.position = false)
    (hm : m.standardKind? = some (.nounPred .adjacentTo)) (hchildren : m.children = [nested])
    (hnested : nested.DrawnAs (.noun nestedKind) (.single .position)) :
    ∃ b, FillRange.standard.Allows b ∧ Splits (n.Names b) (m.TrueOf b) := by
  -- nothing is asked of how the two nouns relate: they may be the same
  obtain ⟨x, w, hnoun⟩ := exists_tells hn hlines
  obtain ⟨y, z, htold⟩ := exists_tells hnested (hnested.lines_eq_false)
  have htrue : m.TrueOf (.beside x y z) =
      fun p => ∃ q, p.distance q = 1 ∧ nested.Names (.beside x y z) q := by
    funext p
    rw [trueOf_eq hm, hchildren]
    simp [NounPredKind.TrueOf]
  refine ⟨.beside x y z, Board.allows_beside x y z, ?_⟩
  rw [htrue]
  exact Board.splits_beside hnoun htold

/-- For every noun with a predicate that can be drawn with it there is a board
where some places of the noun satisfy the predicate and some do not. -/
theorem exists_splits {nounKind : NounKind} {predKind : NounPredKind} (hn : n.DrawnAs (.noun nounKind) active)
    (hm : m.DrawnPred (Kind.noun nounKind).standardTags predKind) :
    ∃ b, FillRange.standard.Allows b ∧ Splits (n.Names b) (m.TrueOf b) := by
  cases hm with
  | adjacentTo hdrawn hchildren hnested =>
    have hlines := TagSet.not_contains_of_not_intersects (x := .position) hdrawn.excluded rfl
    exact exists_splits_of_adjacentTo hn hlines hdrawn.kind_eq hchildren hnested
  | plain hne hdrawn =>
    have hchoice := hdrawn.choice_lt
    cases predKind with
    | color => exact exists_splits_of_color hn hdrawn
    | shape => exact exists_splits_of_shape hn hdrawn
    | row =>
      have hlines := TagSet.not_contains_of_not_intersects (x := .position) hdrawn.excluded rfl
      refine exists_splits_of_line hn hlines ⟨m.choice, hchoice⟩ fun b d => ?_
      rw [trueOf_eq hdrawn.kind_eq, Fin.ext_iff]
      rfl
    | column =>
      have hlines := TagSet.not_contains_of_not_intersects (x := .position) hdrawn.excluded rfl
      refine exists_splits_of_line hn hlines ⟨m.choice, hchoice⟩ fun b d => ?_
      rw [trueOf_eq hdrawn.kind_eq, Fin.ext_iff]
      rfl
    | adjacentTo => exact absurd rfl hne

end Skeleton

/-! ## Groups and group predicates -/

namespace GroupPredKind

variable {groupKind : GroupKind} {predKind : GroupPredKind}

/-- For every group predicate that can be drawn with a group there is a board
where all classes satisfy it. -/
theorem exists_accepting (z : Symbol) (hne : predKind ≠ .identical)
    (h : (Kind.groupPred predKind).standardTags.intersects (Kind.group groupKind).standardTags = false) :
    ∃ b, FillRange.standard.Allows b ∧
      ∀ S, groupKind.IsClass b S → S.Nonempty → predKind.TrueOn b S := by
  have hrainbow : ∀ S, groupKind.IsClass .rainbow S → ∀ p ∈ S, ∀ q ∈ S, p ≠ q →
      Board.rainbow.colorAt p ≠ Board.rainbow.colorAt q ∧ Board.rainbow.shapeAt p ≠ Board.rainbow.shapeAt q := by
    intro S hS p hp q hq
    have hoccupied := GroupKind.occupiedAt_of_isClass hS
    exact Board.rainbow_differs p q (hoccupied p hp) (hoccupied q hq)
  cases predKind with
  | sameColor => exact ⟨.uniform z, Board.allows_uniform z, fun S _ _ => (Board.trueOn_uniform z S).1⟩
  | sameShape => exact ⟨.uniform z, Board.allows_uniform z, fun S _ _ => (Board.trueOn_uniform z S).2⟩
  | sameColorOrShape => exact ⟨.uniform z, Board.allows_uniform z, fun S _ _ => .inl (Board.trueOn_uniform z S).1⟩
  | differentColors =>
    exact ⟨.rainbow, Board.allows_rainbow, fun S hS _ p hp q hq hpq => (hrainbow S hS p hp q hq hpq).1⟩
  | differentShapes =>
    exact ⟨.rainbow, Board.allows_rainbow, fun S hS _ p hp q hq hpq => (hrainbow S hS p hp q hq hpq).2⟩
  | identical => exact absurd rfl hne
  | connected =>
    have hlines := TagSet.not_contains_of_not_intersects (x := .position) h rfl
    refine ⟨.uniform z, Board.allows_uniform z, ?_⟩
    intro S hS hnonempty
    -- all places look alike, so a class with one of them holds all
    have hall : S = Set.univ := by
      obtain ⟨q, hq⟩ := hnonempty
      apply Set.eq_univ_of_forall
      intro p
      apply GroupKind.mem_of_symbolAt_eq hlines hS hq
      rw [Board.uniform, Board.symbolAt_paint, Board.symbolAt_paint]
    subst hall
    intro p _ q _
    exact Board.linked_univ p q

/-- For every group predicate that can be drawn with a group there is a board
where some class breaks it. -/
theorem exists_rejecting
    (h : (Kind.groupPred predKind).standardTags.intersects (Kind.group groupKind).standardTags = false) :
    ∃ b, FillRange.standard.Allows b ∧
      ∃ S, groupKind.IsClass b S ∧ S.Nonempty ∧ ¬predKind.TrueOn b S := by
  apply exists_breaking
  rw [← Bool.not_eq_true]
  intro hsettled
  rw [intersects_of_settledBy hsettled] at h
  contradiction

end GroupPredKind

/-! ## Rules -/

namespace Skeleton

variable {s n m : Skeleton}

/-- A rule over cells divides the boards if its noun and its predicate do. -/
theorem divides_of_cells {kind : RuleKind} (hcells : kind ∈ [RuleKind.every, .exists, .noneIs])
    (hkind : s.standardKind? = some (.rule kind)) (hchildren : s.children = [n, m])
    (hvacant : ∃ b, FillRange.standard.Allows b ∧ ∀ p, ¬n.Names b p)
    (hsplits : ∃ b, FillRange.standard.Allows b ∧ Splits (n.Names b) (m.TrueOf b)) :
    FillRange.standard.Divides fun b => s.Holds b := by
  obtain ⟨v, hv, hvacant⟩ := hvacant
  obtain ⟨b, hb, ⟨⟨p, hp, hmet⟩, ⟨q, hq, hmissed⟩⟩⟩ := hsplits
  simp only [FillRange.Divides, Holds, hkind, hchildren]
  cases kind with
  | every =>
    refine ⟨⟨v, hv, ?_⟩, ⟨b, hb, ?_⟩⟩
    · intro p hp
      exact absurd hp (hvacant p)
    · intro hall
      exact hmissed (hall q hq)
  | «exists» =>
    refine ⟨⟨b, hb, p, hp, hmet⟩, ⟨v, hv, ?_⟩⟩
    intro hsome
    obtain ⟨p, hp, -⟩ := hsome
    exact hvacant p hp
  | noneIs =>
    refine ⟨⟨v, hv, ?_⟩, ⟨b, hb, ?_⟩⟩
    · intro p hp
      exact absurd hp (hvacant p)
    · intro hnone
      exact hnone p hp hmet
  | _ => contradiction

/-- Every rule that can be drawn divides the boards. -/
theorem Drawable.divides (h : s.Drawable) : FillRange.standard.Divides fun b => s.Holds b := by
  cases h with
  | cells hcells hkind hchildren hn hm =>
    exact divides_of_cells hcells hkind hchildren (exists_vacant hn) (exists_splits hn hm)
  | @groups n m groupKind predKind hkind hchildren hn hm hne =>
    obtain ⟨a, ha, haccept⟩ := GroupPredKind.exists_accepting ⟨.red, .circle⟩ hne hm.excluded
    obtain ⟨b, hb, S, hS, hnonempty, hreject⟩ := GroupPredKind.exists_rejecting hm.excluded
    simp only [FillRange.Divides, Holds, hkind, hchildren, isClass_eq hn.kind_eq, trueOn_eq hm.kind_eq]
    exact ⟨⟨a, ha, haccept⟩, ⟨b, hb, fun hall => hreject (hall S hS hnonempty)⟩⟩
  | @lines kind n nounKind hlines hkind hchildren hn =>
    obtain ⟨a, ha, hrow, hcolumn⟩ := exists_filled hn
    obtain ⟨v, hv, hvacant⟩ := exists_vacant hn
    simp only [FillRange.Divides, Holds, hkind, hchildren]
    cases kind with
    | rowFilled =>
      refine ⟨⟨a, ha, hrow⟩, ⟨v, hv, ?_⟩⟩
      intro hfilled
      obtain ⟨r, hr⟩ := hfilled
      exact hvacant (r, 0) (hr (r, 0) rfl)
    | columnFilled =>
      refine ⟨⟨a, ha, hcolumn⟩, ⟨v, hv, ?_⟩⟩
      intro hfilled
      obtain ⟨c, hc⟩ := hfilled
      exact hvacant (0, c) (hc (0, c) rfl)
    | _ => contradiction

end Skeleton

/-- A random rule is drawn as one that divides the boards, and judges each as it
reads. -/
theorem Grammar.exists_drawable_of_yields {depth : Nat} {r : Rule}
    (h : (Rule.draw standard depth).Yields (.ok r)) :
    ∃ s : Skeleton, s.Drawable ∧ ∀ b, r.judge b = true ↔ s.Holds b := by
  simp only [Rule.draw, Draw.yields_bind] at h
  obtain ⟨result, hresult, h⟩ := h
  cases result with
  | error e => simp at h
  | ok s =>
    simp only [Draw.pure_eq_done, Draw.yields_done] at h
    obtain ⟨hrule, after, hthreads⟩ := threads_of_yields_drawRule hresult
    obtain ⟨-, -, hroot⟩ := Rule.build_eq_ok_iff.mp h
    exact ⟨s, drawable_of_threads hrule hthreads, fun b => Fragment.holds_iff hroot hrule⟩

/-- **Every random rule is a puzzle.** Whatever words a rule of the standard
grammar is drawn from, there is a board of the standard fill that follows it
and one that breaks it, and both of them can be drawn as examples. -/
theorem Grammar.drawn_rules_divide_boards {σ : Type} [WordSource σ] {depth patience : Nat} {source rest : σ}
    {r : Rule} (h : (Rule.draw standard depth).run patience source = some (.ok r, rest)) :
    (∃ b, FillRange.standard.Allows b ∧ (Board.drawIn .standard).Yields b ∧ r.judge b = true) ∧
      ∃ b, FillRange.standard.Allows b ∧ (Board.drawIn .standard).Yields b ∧ r.judge b = false := by
  obtain ⟨s, hdrawable, hjudge⟩ := exists_drawable_of_yields (Draw.yields_of_run h)
  obtain ⟨⟨a, ha, hholds⟩, ⟨b, hb, hbreaks⟩⟩ := hdrawable.divides
  refine ⟨⟨a, ha, Board.yields_drawIn.mpr ha, (hjudge a).mpr hholds⟩,
    ⟨b, hb, Board.yields_drawIn.mpr hb, ?_⟩⟩
  rw [← Bool.not_eq_true, hjudge]
  exact hbreaks

/-- A rule drawn from five words, that every blank cell is adjacent to a yellow
symbol, with a board that follows it and one that breaks it. -/
theorem Grammar.blank_adjacent_rule_divides_boards :
    ∃ r, (Rule.draw standard 3).run 1 (Script.mk [0, 4000000000, 3000000000, 4000, 0x8000000000000001]) =
        some (.ok r, ⟨[]⟩) ∧
      (∃ b, FillRange.standard.Allows b ∧ (Board.drawIn .standard).Yields b ∧ r.judge b = true) ∧
      ∃ b, FillRange.standard.Allows b ∧ (Board.drawIn .standard).Yields b ∧ r.judge b = false := by
  have hbuilt : ∃ r, (Rule.draw standard 3).run 1 (Script.mk [0, 4000000000, 3000000000, 4000, 0x8000000000000001]) =
      some (.ok r, ⟨[]⟩) := ⟨_, rfl⟩
  obtain ⟨r, hrun⟩ := hbuilt
  exact ⟨r, hrun, drawn_rules_divide_boards hrun⟩

end HiddenRule
