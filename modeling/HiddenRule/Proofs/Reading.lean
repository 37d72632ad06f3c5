import HiddenRule.Fragment.Meaning
import HiddenRule.Proofs.Building
import HiddenRule.Proofs.Places
import HiddenRule.Proofs.StandardTable

/-
  What the rules of the standard grammar say, read over rows and columns. A
  noun names places, a noun predicate is true of places, a group splits the
  occupied places into classes, a group predicate is true of a class, and a
  rule quantifies over places or classes. None of it goes through cell numbers,
  lists of cells, counts or a search.

  What is proved:
    1. `NounKind.judge_cell`: a noun is judged at a cell as it reads at the
       place.
    2. `NounPredKind.judge_cell`: a noun predicate is judged so, if its noun is.
    3. `judge_every`, `judge_exists`, `judge_noneIs`, `judge_rowFilled`,
       `judge_columnFilled`: a rule over cells quantifies over places.
-/

namespace HiddenRule

/-! ## Boards by places -/

namespace Board

/-- The symbol at a place, if there is one. -/
def symbolAt (b : Board) (p : Place) : Option Symbol := b.get p.cell

/-- The color of the symbol at a place. -/
def colorAt (b : Board) (p : Place) : Option Color := (b.symbolAt p).map Symbol.color

/-- The shape of the symbol at a place. -/
def shapeAt (b : Board) (p : Place) : Option Shape := (b.symbolAt p).map Symbol.shape

/-- Whether there is a symbol at a place. -/
def OccupiedAt (b : Board) (p : Place) : Prop := ∃ s, b.symbolAt p = some s

end Board

/-! ## Readings of kinds -/

/-- Whether a noun of a kind, with its attribute, names a place. -/
def NounKind.Names (b : Board) (choice : Nat) (p : Place) : NounKind → Prop
  | .color => ∃ c, b.colorAt p = some c ∧ c.index = choice
  | .shape => ∃ s, b.shapeAt p = some s ∧ s.index = choice
  | .row => b.OccupiedAt p ∧ p.1 = choice
  | .column => b.OccupiedAt p ∧ p.2 = choice
  | .blank => ¬b.OccupiedAt p

/-- Whether a noun predicate of a kind, with its attribute and its nouns, is
true of a place. -/
def NounPredKind.TrueOf (b : Board) (choice : Nat) (nouns : List (Place → Prop)) (p : Place) :
    NounPredKind → Prop
  | .color => ∃ c, b.colorAt p = some c ∧ c.index = choice
  | .shape => ∃ s, b.shapeAt p = some s ∧ s.index = choice
  | .row => p.1 = choice
  | .column => p.2 = choice
  | .adjacentTo => ∃ noun ∈ nouns, ∃ q, p.distance q = 1 ∧ noun q

/-- Whether a set of places is one of the classes of a kind. -/
def GroupKind.IsClass (b : Board) (S : Set Place) : GroupKind → Prop
  | .allSymbols => S = {p | b.OccupiedAt p}
  | .rows => ∃ r, S = {p | b.OccupiedAt p ∧ p.1 = r}
  | .columns => ∃ c, S = {p | b.OccupiedAt p ∧ p.2 = c}
  | .sameColor => ∃ c, S = {p | b.colorAt p = some c}
  | .sameShape => ∃ s, S = {p | b.shapeAt p = some s}
  | .identical => ∃ c s, S = {p | b.symbolAt p = some ⟨c, s⟩}
  | .adjacentPairs => ∃ p q, b.OccupiedAt p ∧ b.OccupiedAt q ∧ p.distance q = 1 ∧ S = {p, q}

/-- Whether a group predicate of a kind is true of a class. -/
def GroupPredKind.TrueOn (b : Board) (S : Set Place) : GroupPredKind → Prop
  | .sameColor => ∀ p ∈ S, ∀ q ∈ S, b.colorAt p = b.colorAt q
  | .differentColors => ∀ p ∈ S, ∀ q ∈ S, p ≠ q → b.colorAt p ≠ b.colorAt q
  | .sameShape => ∀ p ∈ S, ∀ q ∈ S, b.shapeAt p = b.shapeAt q
  | .differentShapes => ∀ p ∈ S, ∀ q ∈ S, p ≠ q → b.shapeAt p ≠ b.shapeAt q
  | .sameColorOrShape =>
    (∀ p ∈ S, ∀ q ∈ S, b.colorAt p = b.colorAt q) ∨ ∀ p ∈ S, ∀ q ∈ S, b.shapeAt p = b.shapeAt q
  | .identical => ∀ p ∈ S, ∀ q ∈ S, b.symbolAt p = b.symbolAt q
  | .connected => ∀ p ∈ S, ∀ q ∈ S, Place.Linked S p q

/-! ## Readings of skeletons -/

namespace Skeleton

/-- Whether a noun names a place. -/
def Names (b : Board) (n : Skeleton) (p : Place) : Prop :=
  match n.standardKind? with
  | some (.noun kind) => kind.Names b n.choice p
  | _ => False

/-- Whether a noun predicate is true of a place. -/
def TrueOf (b : Board) (n : Skeleton) (p : Place) : Prop :=
  match n.standardKind? with
  | some (.nounPred kind) => kind.TrueOf b n.choice (n.children.map (Names b)) p
  | _ => False

/-- Whether a set of places is one of the classes of a group. -/
def IsClass (b : Board) (n : Skeleton) (S : Set Place) : Prop :=
  match n.standardKind? with
  | some (.group kind) => kind.IsClass b S
  | _ => False

/-- Whether a group predicate is true of a class. -/
def TrueOn (b : Board) (n : Skeleton) (S : Set Place) : Prop :=
  match n.standardKind? with
  | some (.groupPred kind) => kind.TrueOn b S
  | _ => False

/-- Whether a rule holds of a board. -/
def Holds (b : Board) (s : Skeleton) : Prop :=
  match s.standardKind?, s.children with
  | some (.rule .every), [noun, pred] => ∀ p, noun.Names b p → pred.TrueOf b p
  | some (.rule .exists), [noun, pred] => ∃ p, noun.Names b p ∧ pred.TrueOf b p
  | some (.rule .noneIs), [noun, pred] => ∀ p, noun.Names b p → ¬pred.TrueOf b p
  | some (.rule .everyGroup), [group, pred] => ∀ S, group.IsClass b S → S.Nonempty → pred.TrueOn b S
  | some (.rule .rowFilled), [noun] => ∃ r, ∀ p : Place, p.1 = r → noun.Names b p
  | some (.rule .columnFilled), [noun] => ∃ c, ∀ p : Place, p.2 = c → noun.Names b p
  | _, _ => False

end Skeleton

/-! ## Judging cells -/

theorem Color.ofIndex?_eq_some_iff {i : Nat} {c : Color} : ofIndex? i = some c ↔ c.index = i := by
  refine ⟨?_, ?_⟩
  · intro h
    match i with
    | 0 | 1 | 2 => cases h; rfl
    | n + 3 => simp [ofIndex?, all] at h
  · intro h
    rw [← h, ofIndex?_index]

theorem Shape.ofIndex?_eq_some_iff {i : Nat} {s : Shape} : ofIndex? i = some s ↔ s.index = i := by
  refine ⟨?_, ?_⟩
  · intro h
    match i with
    | 0 | 1 | 2 => cases h; rfl
    | n + 3 => simp [ofIndex?, all] at h
  · intro h
    rw [← h, ofIndex?_index]

namespace Board

variable {b : Board}

theorem isOccupied_cell (p : Place) : b.isOccupied p.cell = true ↔ b.OccupiedAt p :=
  Option.isSome_iff_exists

theorem isBlank_cell (p : Place) : b.isBlank p.cell = true ↔ ¬b.OccupiedAt p := by
  rw [isBlank, Bool.not_eq_true', ← Bool.not_eq_true, isOccupied_cell]

theorem hasColor_cell (p : Place) (c : Color) : b.hasColor p.cell c = true ↔ b.colorAt p = some c := by
  rw [colorAt, symbolAt, hasColor]
  cases b.get p.cell with
  | none => simp
  | some s => simp

theorem hasShape_cell (p : Place) (s : Shape) : b.hasShape p.cell s = true ↔ b.shapeAt p = some s := by
  rw [shapeAt, symbolAt, hasShape]
  cases b.get p.cell with
  | none => simp
  | some t => simp

theorem hasColorAt_cell (p : Place) (choice : Nat) :
    b.hasColorAt choice p.cell = true ↔ ∃ c, b.colorAt p = some c ∧ c.index = choice := by
  rw [hasColorAt, Option.any_eq_true]
  simp only [hasColor_cell, Color.ofIndex?_eq_some_iff]
  exact exists_congr fun c => and_comm

theorem hasShapeAt_cell (p : Place) (choice : Nat) :
    b.hasShapeAt choice p.cell = true ↔ ∃ s, b.shapeAt p = some s ∧ s.index = choice := by
  rw [hasShapeAt, Option.any_eq_true]
  simp only [hasShape_cell, Shape.ofIndex?_eq_some_iff]
  exact exists_congr fun s => and_comm

end Board

/-- A noun is judged at a cell as it reads at the place. -/
theorem NounKind.judge_cell {b : Board} {choice : Nat} (kind : NounKind) (p : Place) :
    kind.judge b choice p.cell = true ↔ kind.Names b choice p := by
  cases kind with
  | color => exact Board.hasColorAt_cell p choice
  | shape => exact Board.hasShapeAt_cell p choice
  | row => rw [judge, Names, Bool.and_eq_true, Board.isOccupied_cell, beq_iff_eq, Place.row_cell]
  | column => rw [judge, Names, Bool.and_eq_true, Board.isOccupied_cell, beq_iff_eq, Place.column_cell]
  | blank => exact Board.isBlank_cell p

/-- Whether a meaning answers for the cell of every place as a reading does. -/
def Meaning.Reads (m : Meaning) (reading : Place → Prop) : Prop :=
  ∀ p : Place, m.holdsAt p.cell = true ↔ reading p

/-- A noun predicate is judged at a cell as it reads at the place, if its first
part is. -/
theorem NounPredKind.judge_cell {b : Board} {choice : Nat} {parts : List Meaning}
    {nouns : List (Place → Prop)} (kind : NounPredKind) (hlength : nouns.length ≤ 1)
    (hparts : List.Forall₂ Meaning.Reads parts nouns) (p : Place) :
    kind.judge b choice parts p.cell = true ↔ kind.TrueOf b choice nouns p := by
  cases kind with
  | color => exact Board.hasColorAt_cell p choice
  | shape => exact Board.hasShapeAt_cell p choice
  | row => rw [judge, TrueOf, beq_iff_eq, Place.row_cell]
  | column => rw [judge, TrueOf, beq_iff_eq, Place.column_cell]
  | adjacentTo =>
    rw [judge, TrueOf]
    cases hparts with
    | nil => simp
    | @cons m noun _ others hm hrest =>
      have hnone : others = [] := List.eq_nil_of_length_eq_zero (by simpa using hlength)
      subst hnone
      rw [List.head?_cons, Option.any_some, Place.any_neighbors_iff]
      simp only [hm _, List.mem_singleton, exists_eq_left]

/-! ## Judging boards -/

namespace RuleKind

variable {noun pred : Meaning} {N P : Place → Prop}

theorem judge_every (hnoun : noun.Reads N) (hpred : pred.Reads P) :
    RuleKind.every.judge [noun, pred] = true ↔ ∀ p, N p → P p := by
  rw [judge, Place.all_eq_true_iff]
  apply forall_congr'
  intro p
  rw [← hnoun p, ← hpred p, imp_iff_not_or, Bool.or_eq_true, Bool.not_eq_true', Bool.not_eq_true]

theorem judge_exists (hnoun : noun.Reads N) (hpred : pred.Reads P) :
    RuleKind.exists.judge [noun, pred] = true ↔ ∃ p, N p ∧ P p := by
  rw [judge, Place.any_eq_true_iff]
  apply exists_congr
  intro p
  rw [← hnoun p, ← hpred p, Bool.and_eq_true]

theorem judge_noneIs (hnoun : noun.Reads N) (hpred : pred.Reads P) :
    RuleKind.noneIs.judge [noun, pred] = true ↔ ∀ p, N p → ¬P p := by
  rw [judge, Place.all_eq_true_iff]
  apply forall_congr'
  intro p
  rw [← hnoun p, ← hpred p, imp_iff_not_or, Bool.or_eq_true, Bool.not_eq_true', Bool.not_eq_true',
    Bool.not_eq_true, Bool.not_eq_true]

theorem judge_rowFilled (hnoun : noun.Reads N) :
    RuleKind.rowFilled.judge [noun] = true ↔ ∃ r, ∀ p : Place, p.1 = r → N p := by
  rw [judge, List.any_eq_true, Place.exists_line_iff]
  apply exists_congr
  intro r
  rw [List.all_eq_true, Place.forall_mem_iff (Place.inRow_lt r)]
  apply forall_congr'
  intro p
  rw [Place.mem_ofCells, Place.mem_inRow, hnoun p]

theorem judge_columnFilled (hnoun : noun.Reads N) :
    RuleKind.columnFilled.judge [noun] = true ↔ ∃ c, ∀ p : Place, p.2 = c → N p := by
  rw [judge, List.any_eq_true, Place.exists_line_iff]
  apply exists_congr
  intro c
  rw [List.all_eq_true, Place.forall_mem_iff (Place.inColumn_lt c)]
  apply forall_congr'
  intro p
  rw [Place.mem_ofCells, Place.mem_inColumn, hnoun p]

end RuleKind

/-! ## Nodes by their kinds -/

namespace Skeleton

variable {b : Board} {n : Skeleton}

theorem names_eq {kind : NounKind} (h : n.standardKind? = some (.noun kind)) (p : Place) :
    n.Names b p = kind.Names b n.choice p := by
  rw [Names, h]

theorem trueOf_eq {kind : NounPredKind} (h : n.standardKind? = some (.nounPred kind)) (p : Place) :
    n.TrueOf b p = kind.TrueOf b n.choice (n.children.map (Names b)) p := by
  rw [TrueOf, h]

theorem isClass_eq {kind : GroupKind} (h : n.standardKind? = some (.group kind)) (S : Set Place) :
    n.IsClass b S = kind.IsClass b S := by
  rw [IsClass, h]

theorem trueOn_eq {kind : GroupPredKind} (h : n.standardKind? = some (.groupPred kind)) (S : Set Place) :
    n.TrueOn b S = kind.TrueOn b S := by
  rw [TrueOn, h]

end Skeleton

end HiddenRule
