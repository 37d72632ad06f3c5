import HiddenRule.Proofs.Symmetry
import Mathlib.Logic.Equiv.Basic

/-
  Relabeling the symbols. A rule says the same of a board and of the board with
  other symbols, once the rule is relabeled, too: where the colors are
  permuted, so are those that its nodes name, and where colors and shapes
  exchange their roles, so do the kinds that speak of them. Identity of symbols
  and lines stay what they are. Nothing is asked of the fragment: it may be of
  any category, of any depth and from any grammar, and name colors that do not
  exist.

  What is proved:
    1. `translates_recolor_color` and the like: what a test for a color or a
       shape becomes.
    2. `moved_kind`: each kind of meaning is relabeled with the board, if the
       parts are.
    3. `verdicts_relabeled`: a relabeled fragment says of the relabeled board
       what the fragment says of the board, of the same cells and lists of
       cells.
-/

namespace HiddenRule

/-- The shape with the position of a color. -/
def Color.asShape : Color → Shape
  | red => .circle
  | yellow => .triangle
  | blue => .square

/-- The color with the position of a shape. -/
def Shape.asColor : Shape → Color
  | circle => .red
  | triangle => .yellow
  | square => .blue

theorem Color.asColor_asShape (c : Color) : c.asShape.asColor = c := by cases c <;> rfl

theorem Shape.asShape_asColor (s : Shape) : s.asColor.asShape = s := by cases s <;> rfl

theorem Color.asShape_bijective : asShape.Bijective :=
  Function.bijective_iff_has_inverse.mpr ⟨Shape.asColor, asColor_asShape, Shape.asShape_asColor⟩

theorem Shape.asColor_bijective : asColor.Bijective :=
  Function.bijective_iff_has_inverse.mpr ⟨Color.asShape, asShape_asColor, Color.asColor_asShape⟩

/-- A way to relabel the symbols: permuting the colors and permuting the
shapes, or exchanging the roles of color and shape. -/
inductive Relabeling where
  | recolor (colors : Equiv.Perm Color) (shapes : Equiv.Perm Shape)
  | exchange

namespace Relabeling

/-- The symbol that a symbol becomes. -/
def symbol : Relabeling → Symbol → Symbol
  | recolor colors shapes, s => ⟨colors s.color, shapes s.shape⟩
  | exchange, s => ⟨s.shape.asColor, s.color.asShape⟩

/-- The board relabeled: every symbol in its place becomes another. -/
def board (r : Relabeling) (b : Board) : Board := .ofCells (Cell.all.map fun i => (b.get i).map r.symbol)

/-- The second of two where colors and shapes exchange their roles, and the
first where they keep them. -/
def either {α : Type} (r : Relabeling) (kept exchanged : α) : α :=
  match r with
  | recolor _ _ => kept
  | exchange => exchanged

def noun (r : Relabeling) : NounKind → NounKind
  | .color => r.either .color .shape
  | .shape => r.either .shape .color
  | kind => kind

def nounPred (r : Relabeling) : NounPredKind → NounPredKind
  | .color => r.either .color .shape
  | .shape => r.either .shape .color
  | kind => kind

def group (r : Relabeling) : GroupKind → GroupKind
  | .sameColor => r.either .sameColor .sameShape
  | .sameShape => r.either .sameShape .sameColor
  | kind => kind

def groupPred (r : Relabeling) : GroupPredKind → GroupPredKind
  | .sameColor => r.either .sameColor .sameShape
  | .sameShape => r.either .sameShape .sameColor
  | .differentColors => r.either .differentColors .differentShapes
  | .differentShapes => r.either .differentShapes .differentColors
  | kind => kind

/-- What a kind becomes. -/
def kind (r : Relabeling) : Kind → Kind
  | .rule kind => .rule kind
  | .noun kind => .noun (r.noun kind)
  | .nounPred kind => .nounPred (r.nounPred kind)
  | .group kind => .group (r.group kind)
  | .groupPred kind => .groupPred (r.groupPred kind)

/-- What the position of a color becomes; a position that no color has stays. -/
def colorChoice : Relabeling → Nat → Nat
  | recolor colors _, a => ((Color.ofIndex? a).map fun c => (colors c).index).getD a
  | exchange, a => a

/-- What the position of a shape becomes; a position that no shape has stays. -/
def shapeChoice : Relabeling → Nat → Nat
  | recolor _ shapes, a => ((Shape.ofIndex? a).map fun s => (shapes s).index).getD a
  | exchange, a => a

/-- What an attribute becomes. -/
def choice (r : Relabeling) : Kind → Nat → Nat
  | .noun .color, a | .nounPred .color, a => r.colorChoice a
  | .noun .shape, a | .nounPred .shape, a => r.shapeChoice a
  | _, a => a

/-- The fragment relabeled. -/
def fragment (r : Relabeling) (f : Fragment) : Fragment := f.adapt r.kind r.choice

variable {parts parts' : List Meaning}

theorem get_board (r : Relabeling) (b : Board) (i : Nat) : (r.board b).get i = (b.get i).map r.symbol := by
  apply Board.get_ofCells_map
  intro hi
  rw [Board.get_eq_none hi, Option.map_none]

theorem moved_board (r : Relabeling) (b : Board) : b.Moved id r.symbol (r.board b) := r.get_board b

theorem symbol_bijective (r : Relabeling) : r.symbol.Bijective := by
  cases r with
  | recolor colors shapes =>
    refine Function.bijective_iff_has_inverse.mpr ⟨(recolor colors.symm shapes.symm).symbol, ?_, ?_⟩
    · intro s
      simp only [symbol, Equiv.symm_apply_apply]
    · intro s
      simp only [symbol, Equiv.apply_symm_apply]
  | exchange =>
    have hback : ∀ s, exchange.symbol (exchange.symbol s) = s := by
      intro s
      simp only [symbol, Color.asColor_asShape, Shape.asShape_asColor]
    exact Function.bijective_iff_has_inverse.mpr ⟨exchange.symbol, hback, hback⟩

/-! ## Tests for colors and shapes -/

section
variable (colors : Equiv.Perm Color) (shapes : Equiv.Perm Shape) (b : Board)

theorem translates_recolor_color :
    Translates id colors Color.all b.hasColor Color.all ((recolor colors shapes).board b).hasColor :=
  ((recolor colors shapes).moved_board b).translates
    (perm_map_of_bijective colors.bijective (by decide) Color.mem_all (by decide) Color.mem_all)
    colors.injective fun _ => rfl

theorem translates_recolor_shape :
    Translates id shapes Shape.all b.hasShape Shape.all ((recolor colors shapes).board b).hasShape :=
  ((recolor colors shapes).moved_board b).translates
    (perm_map_of_bijective shapes.bijective (by decide) Shape.mem_all (by decide) Shape.mem_all)
    shapes.injective fun _ => rfl

theorem translates_exchange_color :
    Translates id Color.asShape Color.all b.hasColor Shape.all (exchange.board b).hasShape :=
  (exchange.moved_board b).translates (by decide) Color.asShape_bijective.injective fun _ => rfl

theorem translates_exchange_shape :
    Translates id Shape.asColor Shape.all b.hasShape Color.all (exchange.board b).hasColor :=
  (exchange.moved_board b).translates (by decide) Shape.asColor_bijective.injective fun _ => rfl

theorem ofIndex?_colorChoice (a : Nat) :
    Color.ofIndex? ((recolor colors shapes).colorChoice a) = (Color.ofIndex? a).map colors := by
  cases h : Color.ofIndex? a with
  | none => simp only [colorChoice, h, Option.map_none, Option.getD_none]
  | some c => simp only [colorChoice, h, Option.map_some, Option.getD_some, Color.ofIndex?_index]

theorem ofIndex?_shapeChoice (a : Nat) :
    Shape.ofIndex? ((recolor colors shapes).shapeChoice a) = (Shape.ofIndex? a).map shapes := by
  cases h : Shape.ofIndex? a with
  | none => simp only [shapeChoice, h, Option.map_none, Option.getD_none]
  | some s => simp only [shapeChoice, h, Option.map_some, Option.getD_some, Shape.ofIndex?_index]

end

/-- Colors and shapes are listed alike. -/
theorem ofIndex?_asShape (a : Nat) : Shape.ofIndex? a = (Color.ofIndex? a).map Color.asShape := by
  rw [Color.ofIndex?, ← List.getElem?_map]
  rfl

theorem ofIndex?_asColor (a : Nat) : Color.ofIndex? a = (Shape.ofIndex? a).map Shape.asColor := by
  rw [Shape.ofIndex?, ← List.getElem?_map]
  rfl

theorem hasColorAt_relabeled (r : Relabeling) (b : Board) (a i : Nat) :
    r.either Board.hasColorAt Board.hasShapeAt (r.board b) (r.colorChoice a) i = b.hasColorAt a i := by
  cases r with
  | recolor colors shapes =>
    rw [either, Board.hasColorAt, ofIndex?_colorChoice]
    exact (translates_recolor_color colors shapes b).any_eq _ i
  | exchange =>
    rw [either, Board.hasShapeAt, colorChoice, ofIndex?_asShape]
    exact (translates_exchange_color b).any_eq _ i

theorem hasShapeAt_relabeled (r : Relabeling) (b : Board) (a i : Nat) :
    r.either Board.hasShapeAt Board.hasColorAt (r.board b) (r.shapeChoice a) i = b.hasShapeAt a i := by
  cases r with
  | recolor colors shapes =>
    rw [either, Board.hasShapeAt, ofIndex?_shapeChoice]
    exact (translates_recolor_shape colors shapes b).any_eq _ i
  | exchange =>
    rw [either, Board.hasColorAt, shapeChoice, ofIndex?_asColor]
    exact (translates_exchange_shape b).any_eq _ i

/-! ## Kinds of meaning -/

/-- No cell moves. -/
def still : Cell.Motion where
  move := id
  move_move := fun _ => rfl
  move_lt := fun _ hi => hi
  move_neighbors := fun _ _ _ hj => hj

theorem judge_rule (kind : RuleKind) (h : List.Forall₂ (Meaning.Moved id) parts parts') :
    kind.judge parts' = kind.judge parts := by
  by_cases hrow : kind = .rowFilled
  · subst hrow
    rw [RuleKind.judge_rowFilled_eq, RuleKind.judge_rowFilled_eq]
    exact RuleKind.filledOf_eq_of_moved (regrouped_id _) h
  by_cases hcolumn : kind = .columnFilled
  · subst hcolumn
    rw [RuleKind.judge_columnFilled_eq, RuleKind.judge_columnFilled_eq]
    exact RuleKind.filledOf_eq_of_moved (regrouped_id _) h
  · exact RuleKind.judge_eq_of_moved (m := still) hrow hcolumn h

theorem judge_noun (r : Relabeling) (b : Board) (kind : NounKind) (a i : Nat) :
    (r.noun kind).judge (r.board b) (r.choice (.noun kind) a) i = kind.judge b a i := by
  have hoccupied := (r.moved_board b).isOccupied_eq i
  cases kind with
  | color =>
    have hcolor := r.hasColorAt_relabeled b a i
    cases r <;> exact hcolor
  | shape =>
    have hshape := r.hasShapeAt_relabeled b a i
    cases r <;> exact hshape
  | row | column => exact congrArg₂ and hoccupied rfl
  | blank => exact congrArg not hoccupied

theorem judge_nounPred (r : Relabeling) (b : Board) (kind : NounPredKind) (a : Nat)
    (h : List.Forall₂ (Meaning.Moved id) parts parts') {i : Nat} (hi : i < Cell.count) :
    (r.nounPred kind).judge (r.board b) (r.choice (.nounPred kind) a) parts' i = kind.judge b a parts i := by
  cases kind with
  | color =>
    have hcolor := r.hasColorAt_relabeled b a i
    cases r <;> exact hcolor
  | shape =>
    have hshape := r.hasShapeAt_relabeled b a i
    cases r <;> exact hshape
  | row | column => rfl
  | adjacentTo => exact NounPredKind.judge_adjacentTo_eq (m := still) h hi

theorem regrouped_groups (r : Relabeling) (b : Board) (kind : GroupKind) :
    Regrouped id (b.groups kind) ((r.board b).groups (r.group kind)) := by
  have hmoved : b.Moved still.move r.symbol (r.board b) := r.moved_board b
  have hoccupied := Board.carried_occupied hmoved
  cases kind with
  | allSymbols => exact Board.regrouped_allSymbols hmoved
  | rows | columns => exact Board.regrouped_lines hmoved (regrouped_id _)
  | sameColor =>
    cases r with
    | recolor colors shapes => exact (translates_recolor_color colors shapes b).regrouped hoccupied
    | exchange => exact (translates_exchange_color b).regrouped hoccupied
  | sameShape =>
    cases r with
    | recolor colors shapes => exact (translates_recolor_shape colors shapes b).regrouped hoccupied
    | exchange => exact (translates_exchange_shape b).regrouped hoccupied
  | identical => exact Board.regrouped_identical hmoved r.symbol_bijective
  | adjacentPairs => exact Board.regrouped_adjacentPairs hmoved (regrouped_id _)

theorem satisfies_relabeled (r : Relabeling) (b : Board) (kind : GroupPredKind) {cells cells' : List Nat}
    (hcells : Carried id cells cells') :
    (r.board b).satisfies cells' (r.groupPred kind) = b.satisfies cells kind := by
  cases r with
  | recolor colors shapes =>
    have hkept : (recolor colors shapes).groupPred kind = kind := by cases kind <;> rfl
    rw [hkept]
    exact Board.satisfies_eq (m := still) (translates_recolor_color colors shapes b)
      (translates_recolor_shape colors shapes b) hcells kind
  | exchange =>
    have hcolor := translates_exchange_color b
    have hshape := translates_exchange_shape b
    have hsameColor : (exchange.board b).sameShape cells' = b.sameColor cells := hcolor.sameOf_eq hcells
    have hsameShape : (exchange.board b).sameColor cells' = b.sameShape cells := hshape.sameOf_eq hcells
    cases kind with
    | sameColor => exact hsameColor
    | differentColors => exact hcolor.differentOf_eq hcells
    | sameShape => exact hsameShape
    | differentShapes => exact hshape.differentOf_eq hcells
    | sameColorOrShape =>
      show ((exchange.board b).sameColor cells' || (exchange.board b).sameShape cells') = _
      rw [hsameColor, hsameShape, Bool.or_comm]
      rfl
    | identical =>
      show ((exchange.board b).sameColor cells' && (exchange.board b).sameShape cells') = _
      rw [hsameColor, hsameShape, Bool.and_comm]
      rfl
    | connected => exact still.connected_eq hcells

/-- Each kind of meaning is relabeled with the board, if the parts are. -/
theorem moved_kind (r : Relabeling) (b : Board) (k : Kind) (a : Nat) {parts parts' : List Meaning}
    (h : List.Forall₂ (Meaning.Moved id) parts parts') :
    (k.meaning b a parts).Moved id ((r.kind k).meaning (r.board b) (r.choice k a) parts') := by
  cases k with
  | rule kind => exact Kind.moved_rule (judge_rule kind h)
  | noun kind => exact Kind.moved_noun (m := still) fun i _ => r.judge_noun b kind a i
  | nounPred kind => exact Kind.moved_nounPred (m := still) fun i hi => r.judge_nounPred b kind a h hi
  | group kind => exact Kind.moved_group (r.regrouped_groups b kind)
  | groupPred kind => exact Kind.moved_groupPred fun hcells => r.satisfies_relabeled b kind hcells

theorem moved_meaning (r : Relabeling) (f : Fragment) (b : Board) :
    (f.meaning b).Moved id ((r.fragment f).meaning (r.board b)) :=
  Fragment.moved_meaning_adapt (r.moved_kind b) f

/-- **Judging does not depend on what the colors and shapes are called.** For
every fragment and every board: whatever the fragment says of the board, of a
cell or of a list of cells, and whatever groups it picks, the relabeled
fragment says of the relabeled board. -/
theorem verdicts_relabeled (r : Relabeling) (f : Fragment) (b : Board) :
    (r.fragment f).holds (r.board b) = f.holds b ∧
      (∀ i, (r.fragment f).holdsAt (r.board b) i = f.holdsAt b i) ∧
      (∀ cells, (r.fragment f).holdsOn (r.board b) cells = f.holdsOn b cells) ∧
      Regrouped id (f.groups b) ((r.fragment f).groups (r.board b)) := by
  have hmoved := r.moved_meaning f b
  exact ⟨hmoved.holds_eq, hmoved.holdsAt_eq, fun cells => hmoved.holdsOn_eq (carried_id cells),
    hmoved.groups_regrouped⟩

end Relabeling

end HiddenRule
