import HiddenRule.Fragment.Meaning
import HiddenRule.Proofs.CellMotions

/-
  Two boards that look alike, and two fragments that say alike of them. What a
  rule asks of a board it asks of cells, of what they hold and of the edges
  between them; so for two boards, one the motion of the other with other
  symbols in the places of its own, it is enough to say how each kind of
  meaning behaves on its own. Meanings correspond if their answers do wherever
  the questions do.

  What is proved:
    1. `regrouped_identical`, `regrouped_lines`, `regrouped_adjacentPairs`: the
       groups of boards that look alike.
    2. `satisfies_eq`: what group predicates say of them.
    3. `judge_eq_of_moved`, `filledOf_eq_of_moved`: what rules say.
    4. `moved_meaning_adapt`: if the meanings of all kinds correspond whenever
       those of the parts do, the meanings of all fragments correspond.
-/

namespace HiddenRule

variable {t : Nat → Nat}

/-! ## Boards -/

/-- A list of all values goes to a list of all values. -/
theorem perm_map_of_bijective {α β : Type} {values : List α} {values' : List β} {p : α → β}
    (hp : p.Bijective) (hnodup : values.Nodup) (hall : ∀ a, a ∈ values) (hnodup' : values'.Nodup)
    (hall' : ∀ a, a ∈ values') : (values.map p).Perm values' := by
  rw [List.perm_ext_iff_of_nodup (hnodup.map hp.injective) hnodup']
  intro a
  obtain ⟨c, rfl⟩ := hp.surjective a
  simp only [hall', List.mem_map_of_mem (hall c)]

/-- Whether a board holds, after a motion, what the symbols of another one go
to. -/
def Board.Moved (t : Nat → Nat) (recast : Symbol → Symbol) (b b' : Board) : Prop :=
  ∀ i, b'.get (t i) = (b.get i).map recast

/-- The pairs of cells that share an edge, as lists. -/
def Cell.edges : List (List Nat) := Cell.adjacentPairs.map fun pair => [pair.1, pair.2]

/-- The nine symbols, color by color within a shape. -/
def Symbol.all : List Symbol := Shape.all.flatMap fun s => Color.all.map fun c => ⟨c, s⟩

theorem Symbol.mem_all (s : Symbol) : s ∈ all := by simp [all, Color.mem_all, Shape.mem_all]

namespace Board

variable {b b' : Board} {recast : Symbol → Symbol}

/-- A board listed cell by cell. -/
theorem get_ofCells_map {f : Nat → Option Symbol} {i : Nat} (hout : Cell.count ≤ i → f i = none) :
    (ofCells (Cell.all.map f)).get i = f i := by
  rw [get_ofCells]
  split
  · next hi =>
    have hi9 : i < 9 := hi
    simp [Cell.all, Cell.count, hi9]
  · next hi => rw [hout (Nat.le_of_not_lt hi)]

theorem Moved.isOccupied_eq (h : b.Moved t recast b') (i : Nat) : b'.isOccupied (t i) = b.isOccupied i := by
  rw [isOccupied, h, Option.isSome_map, isOccupied]

/-- What is tested of a symbol is tested of the one it goes to. -/
theorem Moved.translates {α β : Type} [DecidableEq α] [DecidableEq β] {values : List α} {values' : List β}
    {look : Symbol → α} {look' : Symbol → β} {p : α → β} (h : b.Moved t recast b')
    (hvalues : (values.map p).Perm values') (hp : p.Injective) (hlook : ∀ s, look' (recast s) = p (look s)) :
    Translates t p values (fun i a => (b.get i).any fun s => look s == a) values'
      (fun i a => (b'.get i).any fun s => look' s == a) where
  values_perm := hvalues
  has_eq := by
    intro i a
    simp only [h i, Option.any_map, hlook, Bool.beq_eq_decide_eq, hp.eq_iff]

theorem carried_occupied {m : Cell.Motion} (h : b.Moved m.move recast b') :
    Carried m.move b.occupied b'.occupied := m.carried_all.filter h.isOccupied_eq

theorem regrouped_allSymbols {m : Cell.Motion} (h : b.Moved m.move recast b') :
    Regrouped m.move (b.groups .allSymbols) (b'.groups .allSymbols) :=
  ⟨[b'.occupied], .cons (carried_occupied h) .nil, .refl _⟩

theorem cellsOfSymbol_eq (b : Board) (s : Symbol) :
    b.cellsOfSymbol s = b.occupied.filter fun i => (b.get i).any fun z => z == s := by
  rw [cellsOfSymbol]
  congr 1
  funext i
  rw [hasShape, hasColor]
  cases b.get i with
  | none => rfl
  | some z =>
    cases z
    cases s
    rw [Bool.eq_iff_iff]
    simp [and_comm]

/-- The groups of identical symbols are the occupied cells, sorted by symbol. -/
theorem groups_identical_eq (b : Board) : b.groups .identical =
    Symbol.all.map fun s => b.occupied.filter fun i => (b.get i).any fun z => z == s := by
  simp only [← cellsOfSymbol_eq]
  rfl

theorem regrouped_identical {m : Cell.Motion} (h : b.Moved m.move recast b') (hrecast : recast.Bijective) :
    Regrouped m.move (b.groups .identical) (b'.groups .identical) := by
  have hperm : (Symbol.all.map recast).Perm Symbol.all :=
    perm_map_of_bijective hrecast (by decide) Symbol.mem_all (by decide) Symbol.mem_all
  have hself : ∀ s, id (recast s) = recast (id s) := fun _ => rfl
  have hclasses := (h.translates hperm hrecast.injective hself).regrouped (carried_occupied h)
  rw [groups_identical_eq, groups_identical_eq]
  exact hclasses

/-- Lines go to lines, and so do the symbols in them. -/
theorem regrouped_lines (h : b.Moved t recast b') {line line' : Nat → List Nat}
    (hlines : Regrouped t (Cell.lines.map line) (Cell.lines.map line')) :
    Regrouped t (Cell.lines.map fun r => b.occupiedAmong (line r))
      (Cell.lines.map fun r => b'.occupiedAmong (line' r)) := by
  have hoccupied := hlines.map fun _ _ hcells => hcells.filter h.isOccupied_eq
  rwa [List.map_map, List.map_map] at hoccupied

theorem groups_adjacentPairs_eq (b : Board) :
    b.groups .adjacentPairs = Cell.edges.filter fun cells => cells.all b.isOccupied := by
  rw [groups, Cell.edges, List.filter_map]
  congr 2
  funext pair
  simp only [Function.comp, List.all_cons, List.all_nil, Bool.and_true]

theorem regrouped_adjacentPairs (h : b.Moved t recast b') (hedges : Regrouped t Cell.edges Cell.edges) :
    Regrouped t (b.groups .adjacentPairs) (b'.groups .adjacentPairs) := by
  rw [groups_adjacentPairs_eq, groups_adjacentPairs_eq]
  exact hedges.filter fun _ _ hcells => hcells.all_eq h.isOccupied_eq

/-- Group predicates say the same of boards that translate colors to colors
and shapes to shapes. -/
theorem satisfies_eq {m : Cell.Motion} {p : Color → Color} {q : Shape → Shape} {cells cells' : List Nat}
    (hcolor : Translates m.move p Color.all b.hasColor Color.all b'.hasColor)
    (hshape : Translates m.move q Shape.all b.hasShape Shape.all b'.hasShape)
    (hcells : Carried m.move cells cells') (kind : GroupPredKind) :
    b'.satisfies cells' kind = b.satisfies cells kind := by
  have hsameColor : b'.sameColor cells' = b.sameColor cells := hcolor.sameOf_eq hcells
  have hsameShape : b'.sameShape cells' = b.sameShape cells := hshape.sameOf_eq hcells
  cases kind with
  | sameColor => exact hsameColor
  | differentColors => exact hcolor.differentOf_eq hcells
  | sameShape => exact hsameShape
  | differentShapes => exact hshape.differentOf_eq hcells
  | sameColorOrShape => rw [satisfies, satisfies, hsameColor, hsameShape]
  | identical => rw [satisfies, satisfies, hsameColor, hsameShape]
  | connected => exact m.connected_eq hcells

end Board

/-! ## Meanings -/

/-- Whether a question about one board is that about another, after a motion. -/
inductive Argument.Moved (t : Nat → Nat) : Argument → Argument → Prop where
  | nothing : Moved t .nothing .nothing
  | cell (i : Nat) : Moved t (.cell i) (.cell (t i))
  | group {cells cells' : List Nat} : Carried t cells cells' → Moved t (.group cells) (.group cells')

/-- Whether an answer about one board is that about another, after a motion. -/
inductive Outcome.Moved (t : Nat → Nat) : Outcome → Outcome → Prop where
  | verdict (holds : Bool) : Moved t (.verdict holds) (.verdict holds)
  | groups {gs gs' : List (List Nat)} : Regrouped t gs gs' → Moved t (.groups gs) (.groups gs')

/-- Whether corresponding questions have corresponding answers. -/
def Meaning.Moved (t : Nat → Nat) (m m' : Meaning) : Prop :=
  ∀ ⦃a a' : Argument⦄, a.Moved t a' → (m a).Moved t (m' a')

namespace Outcome.Moved

theorem of_eq {v v' : Bool} (h : v' = v) : Outcome.Moved t (.verdict v) (.verdict v') := by
  rw [h]
  exact .verdict v

variable {o o' : Outcome}

theorem verdict?_eq (h : o.Moved t o') : o'.verdict? = o.verdict? := by
  cases h with
  | verdict holds => rfl
  | groups _ => rfl

theorem groups?_regrouped (h : o.Moved t o') : Regrouped t (o.groups?.getD []) (o'.groups?.getD []) := by
  cases h with
  | verdict holds => exact ⟨[], .nil, .refl _⟩
  | groups hgroups => exact hgroups

end Outcome.Moved

namespace Meaning.Moved

variable {m m' : Meaning}

theorem holds_eq (h : m.Moved t m') : m'.holds = m.holds := by
  rw [holds, (h .nothing).verdict?_eq, holds]

theorem holdsAt_eq (h : m.Moved t m') (i : Nat) : m'.holdsAt (t i) = m.holdsAt i := by
  rw [holdsAt, (h (.cell i)).verdict?_eq, holdsAt]

theorem holdsOn_eq (h : m.Moved t m') {cells cells' : List Nat} (hcells : Carried t cells cells') :
    m'.holdsOn cells' = m.holdsOn cells := by
  rw [holdsOn, (h (.group hcells)).verdict?_eq, holdsOn]

theorem groups_regrouped (h : m.Moved t m') : Regrouped t m.groups m'.groups :=
  (h .nothing).groups?_regrouped

end Meaning.Moved

theorem Category.moved_placeholderMeaning (c : Category) : c.placeholderMeaning.Moved t c.placeholderMeaning := by
  intro a a' _
  unfold placeholderMeaning
  split
  · exact .groups ⟨[], .nil, .refl _⟩
  · exact .verdict true

/-! ## Kinds -/

namespace Kind

variable {b b' : Board} {choice choice' : Nat} {parts parts' : List Meaning}

theorem moved_rule {kind kind' : RuleKind} (h : kind'.judge parts' = kind.judge parts) :
    ((Kind.rule kind).meaning b choice parts).Moved t ((Kind.rule kind').meaning b' choice' parts') :=
  fun _ _ _ => .of_eq h

theorem any_cell?_eq {m : Cell.Motion} {a a' : Argument} {f f' : Nat → Bool} (ha : a.Moved m.move a')
    (hf : ∀ i < Cell.count, f' (m.move i) = f i) : a'.cell?.any f' = a.cell?.any f := by
  cases ha with
  | nothing => rfl
  | group _ => rfl
  | cell i =>
    simp only [Argument.cell?, m.move_lt_iff]
    split
    · next hi => exact hf i hi
    · rfl

theorem moved_noun {m : Cell.Motion} {kind kind' : NounKind}
    (h : ∀ i < Cell.count, kind'.judge b' choice' (m.move i) = kind.judge b choice i) :
    ((Kind.noun kind).meaning b choice parts).Moved m.move ((Kind.noun kind').meaning b' choice' parts') :=
  fun _ _ ha => .of_eq (any_cell?_eq ha h)

theorem moved_nounPred {m : Cell.Motion} {kind kind' : NounPredKind}
    (h : ∀ i < Cell.count, kind'.judge b' choice' parts' (m.move i) = kind.judge b choice parts i) :
    ((Kind.nounPred kind).meaning b choice parts).Moved m.move
      ((Kind.nounPred kind').meaning b' choice' parts') :=
  fun _ _ ha => .of_eq (any_cell?_eq ha h)

theorem moved_group {kind kind' : GroupKind} (h : Regrouped t (b.groups kind) (b'.groups kind')) :
    ((Kind.group kind).meaning b choice parts).Moved t ((Kind.group kind').meaning b' choice' parts') :=
  fun _ _ _ => .groups h

theorem moved_groupPred {kind kind' : GroupPredKind}
    (h : ∀ {cells cells'}, Carried t cells cells' → b'.satisfies cells' kind' = b.satisfies cells kind) :
    ((Kind.groupPred kind).meaning b choice parts).Moved t
      ((Kind.groupPred kind').meaning b' choice' parts') := by
  intro a a' ha
  cases ha with
  | nothing => exact .of_eq (h (List.Perm.refl _))
  | cell i => exact .of_eq (h (List.Perm.refl _))
  | group hcells => exact .of_eq (h hcells)

end Kind

/-- An adjacency says the same of a noun that says the same. -/
theorem NounPredKind.judge_adjacentTo_eq {b b' : Board} {choice choice' : Nat} {parts parts' : List Meaning}
    {m : Cell.Motion} (h : List.Forall₂ (Meaning.Moved m.move) parts parts') {i : Nat} (hi : i < Cell.count) :
    NounPredKind.adjacentTo.judge b' choice' parts' (m.move i) =
      NounPredKind.adjacentTo.judge b choice parts i := by
  cases h with
  | nil => rfl
  | cons hnoun _ => exact m.any_neighbors_eq hi hnoun.holdsAt_eq

/-! ## Rules -/

namespace RuleKind

variable {parts parts' : List Meaning}

/-- Rules about cells and groups say the same of parts that say the same. -/
theorem judge_eq_of_moved {m : Cell.Motion} {kind : RuleKind} (hrow : kind ≠ .rowFilled)
    (hcolumn : kind ≠ .columnFilled) (h : List.Forall₂ (Meaning.Moved m.move) parts parts') :
    kind.judge parts' = kind.judge parts := by
  -- the rules that are left have two parts
  rcases h with _ | ⟨hfirst, _ | ⟨hsecond, _ | _⟩⟩
  · cases kind <;> rfl
  · cases kind <;> first | rfl | contradiction
  · have hnoun := hfirst.holdsAt_eq
    have hpred := hsecond.holdsAt_eq
    cases kind with
    | rowFilled => contradiction
    | columnFilled => contradiction
    | every | noneIs =>
      simp only [judge]
      apply m.carried_all.all_eq
      intro i
      rw [hnoun, hpred]
    | «exists» =>
      simp only [judge]
      apply m.carried_all.any_eq
      intro i
      rw [hnoun, hpred]
    | everyGroup =>
      simp only [judge]
      apply hfirst.groups_regrouped.all_eq
      intro cells cells' hcells
      rw [hcells.isEmpty_eq, hsecond.holdsOn_eq hcells]
  · cases kind <;> rfl

/-- Whether some line consists of cells of the only part. -/
def filledOf (line : Nat → List Nat) : List Meaning → Bool
  | [noun] => Cell.lines.any fun r => (line r).all noun.holdsAt
  | _ => false

theorem judge_rowFilled_eq (parts : List Meaning) : rowFilled.judge parts = filledOf Cell.inRow parts := by
  rcases parts with _ | ⟨noun, _ | _⟩ <;> rfl

theorem judge_columnFilled_eq (parts : List Meaning) :
    columnFilled.judge parts = filledOf Cell.inColumn parts := by
  rcases parts with _ | ⟨noun, _ | _⟩ <;> rfl

theorem filledOf_eq_of_moved {line line' : Nat → List Nat}
    (hlines : Regrouped t (Cell.lines.map line) (Cell.lines.map line'))
    (h : List.Forall₂ (Meaning.Moved t) parts parts') : filledOf line' parts' = filledOf line parts := by
  rcases h with _ | ⟨hnoun, _ | _⟩
  · rfl
  · have hany := hlines.any_eq fun _ _ hcells => hcells.all_eq hnoun.holdsAt_eq
    rwa [List.any_map, List.any_map] at hany
  · rfl

end RuleKind

/-! ## Whole fragments -/

namespace Fragment

/-- The label with another kind and another attribute. -/
def Label.adapt (kind : Kind → Kind) (choice : Kind → Nat → Nat) (l : Label) : Label :=
  { l with
    kind := l.kind.map kind
    choice := (l.kind.map fun k => choice k l.choice).getD l.choice }

mutual

/-- The fragment with the kinds and attributes of all its nodes replaced. -/
def adapt (kind : Kind → Kind) (choice : Kind → Nat → Nat) : Fragment → Fragment
  | node l parts => node (l.adapt kind choice) (adaptAll kind choice parts)

/-- The fragments with the kinds and attributes of all their nodes replaced. -/
def adaptAll (kind : Kind → Kind) (choice : Kind → Nat → Nat) : List Fragment → List Fragment
  | [] => []
  | f :: rest => adapt kind choice f :: adaptAll kind choice rest

end

variable {b b' : Board} {kind : Kind → Kind} {choice : Kind → Nat → Nat}

mutual

/-- If the meanings of all kinds correspond whenever those of the parts do,
the meanings of all fragments correspond. -/
theorem moved_meaning_adapt (hstep : ∀ (k : Kind) (a : Nat) {parts parts' : List Meaning},
      List.Forall₂ (Meaning.Moved t) parts parts' →
      (k.meaning b a parts).Moved t ((kind k).meaning b' (choice k a) parts')) :
    ∀ f : Fragment, (f.meaning b).Moved t ((f.adapt kind choice).meaning b')
  | node l parts => by
    have hparts := moved_meanings_adaptAll hstep parts
    rw [adapt, meaning, meaning]
    cases hkind : l.kind with
    | none =>
      simp only [Label.adapt, hkind, Option.map_none]
      exact l.category.moved_placeholderMeaning
    | some k =>
      simp only [Label.adapt, hkind, Option.map_some, Option.getD_some]
      exact hstep k l.choice hparts

theorem moved_meanings_adaptAll (hstep : ∀ (k : Kind) (a : Nat) {parts parts' : List Meaning},
      List.Forall₂ (Meaning.Moved t) parts parts' →
      (k.meaning b a parts).Moved t ((kind k).meaning b' (choice k a) parts')) :
    ∀ parts : List Fragment,
      List.Forall₂ (Meaning.Moved t) (meanings b parts) (meanings b' (adaptAll kind choice parts))
  | [] => .nil
  | f :: rest => .cons (moved_meaning_adapt hstep f) (moved_meanings_adaptAll hstep rest)

end

end Fragment

end HiddenRule
