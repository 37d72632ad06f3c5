import HiddenRule.Grammar.Standard
import HiddenRule.Rule
import HiddenRule.Skeleton.Standard

/-
  What a rule looks at. A cell shows whether it holds a symbol, and a symbol
  shows its color and its shape. Each kind of meaning names the aspects of
  symbols that it looks at, and a fragment sees nothing but what the kinds of
  its nodes name: two boards that differ elsewhere are the same to it. Nothing
  is asked of the fragment. Its nodes may stand at any depth, lack a kind, or
  have parts that do not fit.

  What is proved:
    1. `Board.Alike.groups_eq`, `Board.Alike.satisfies_eq`: the groups of boards
       that are alike, and what group predicates say of them.
    2. `Kind.meaning_eq`: a kind of meaning does not tell apart boards that are
       alike in the aspects it names, if its parts do not.
    3. `verdicts_eq_of_alike`: neither does a fragment, whatever it is asked.
-/

namespace HiddenRule

/-- What a symbol shows. -/
inductive Aspect where
  | color
  | shape
  deriving DecidableEq, Repr

/-- The aspects of symbols that a kind of meaning looks at. All others ask at
most whether a cell holds a symbol. -/
def Kind.aspects : Kind → List Aspect
  | .noun .color | .nounPred .color | .group .sameColor => [.color]
  | .groupPred .sameColor | .groupPred .differentColors => [.color]
  | .noun .shape | .nounPred .shape | .group .sameShape => [.shape]
  | .groupPred .sameShape | .groupPred .differentShapes => [.shape]
  | .group .identical | .groupPred .identical | .groupPred .sameColorOrShape => [.color, .shape]
  | _ => []

namespace Fragment

mutual

/-- The kinds of meaning at the nodes of a fragment. -/
def kinds : Fragment → List Kind
  | node l parts => l.kind.toList ++ kindsOfAll parts

/-- The kinds of meaning at the nodes of fragments. -/
def kindsOfAll : List Fragment → List Kind
  | [] => []
  | f :: rest => kinds f ++ kindsOfAll rest

end

end Fragment

/-! ## Boards -/

namespace Board

/-- Whether two boards hold symbols in the same cells, and whether the symbols
show the same of what is seen. -/
structure Alike (seen : List Aspect) (b b' : Board) : Prop where
  occupied : ∀ i < Cell.count, b.isOccupied i = b'.isOccupied i
  color : .color ∈ seen → ∀ i < Cell.count, (b.get i).map Symbol.color = (b'.get i).map Symbol.color
  shape : .shape ∈ seen → ∀ i < Cell.count, (b.get i).map Symbol.shape = (b'.get i).map Symbol.shape

variable {seen : List Aspect} {b b' : Board}

/-- What agrees on the board agrees everywhere, since there is nothing beyond. -/
theorem look_get_eq {α : Type} (look : Option Symbol → α)
    (h : ∀ i < Cell.count, look (b.get i) = look (b'.get i)) (i : Nat) :
    look (b.get i) = look (b'.get i) := by
  by_cases hi : i < Cell.count
  · exact h i hi
  · rw [get_eq_none (Nat.le_of_not_lt hi), get_eq_none (Nat.le_of_not_lt hi)]

namespace Alike

theorem isOccupied_eq (h : Alike seen b b') : b.isOccupied = b'.isOccupied :=
  funext (look_get_eq Option.isSome h.occupied)

theorem hasColor_eq (h : Alike seen b b') (hcolor : .color ∈ seen) : b.hasColor = b'.hasColor := by
  funext i c
  have hmap := look_get_eq (Option.map Symbol.color) (h.color hcolor) i
  have hany := congrArg (Option.any fun d => d == c) hmap
  rwa [Option.any_map, Option.any_map] at hany

theorem hasShape_eq (h : Alike seen b b') (hshape : .shape ∈ seen) : b.hasShape = b'.hasShape := by
  funext i s
  have hmap := look_get_eq (Option.map Symbol.shape) (h.shape hshape) i
  have hany := congrArg (Option.any fun d => d == s) hmap
  rwa [Option.any_map, Option.any_map] at hany

theorem groups_eq (h : Alike seen b b') {kind : GroupKind} (hseen : (Kind.group kind).aspects ⊆ seen) :
    b.groups kind = b'.groups kind := by
  have hoccupied := h.isOccupied_eq
  have hall : b.occupied = b'.occupied := by rw [Board.occupied, hoccupied, Board.occupied]
  cases kind with
  | allSymbols => rw [groups, hall, groups]
  | rows | columns | adjacentPairs => simp only [groups, occupiedAmong, hoccupied]
  | sameColor =>
    have hcolor := h.hasColor_eq (hseen (by decide))
    have hcells : b.cellsOfColor = b'.cellsOfColor := by
      funext c
      rw [cellsOfColor, hall, hcolor, cellsOfColor]
    rw [groups, hcells, groups]
  | sameShape =>
    have hshape := h.hasShape_eq (hseen (by decide))
    have hcells : b.cellsOfShape = b'.cellsOfShape := by
      funext s
      rw [cellsOfShape, hall, hshape, cellsOfShape]
    rw [groups, hcells, groups]
  | identical =>
    have hcolor := h.hasColor_eq (hseen (by decide))
    have hshape := h.hasShape_eq (hseen (by decide))
    have hcells : b.cellsOfSymbol = b'.cellsOfSymbol := by
      funext s
      rw [cellsOfSymbol, hall, hcolor, hshape, cellsOfSymbol]
    rw [groups, hcells, groups]

theorem satisfies_eq (h : Alike seen b b') (cells : List Nat) {kind : GroupPredKind}
    (hseen : (Kind.groupPred kind).aspects ⊆ seen) : b.satisfies cells kind = b'.satisfies cells kind := by
  have hsameColor : .color ∈ seen → b.sameColor cells = b'.sameColor cells := by
    intro hcolor
    rw [sameColor, h.hasColor_eq hcolor, sameColor]
  have hsameShape : .shape ∈ seen → b.sameShape cells = b'.sameShape cells := by
    intro hshape
    rw [sameShape, h.hasShape_eq hshape, sameShape]
  cases kind with
  | sameColor => exact hsameColor (hseen (by decide))
  | differentColors =>
    rw [satisfies, differentColors, h.hasColor_eq (hseen (by decide)), satisfies, differentColors]
  | sameShape => exact hsameShape (hseen (by decide))
  | differentShapes =>
    rw [satisfies, differentShapes, h.hasShape_eq (hseen (by decide)), satisfies, differentShapes]
  | sameColorOrShape | identical =>
    rw [satisfies, hsameColor (hseen (by decide)), hsameShape (hseen (by decide)), satisfies]
  | connected => rfl

end Alike

end Board

/-! ## Kinds of meaning -/

section
variable {seen : List Aspect} {b b' : Board}

theorem NounKind.judge_eq (h : b.Alike seen b') {kind : NounKind} (hseen : (Kind.noun kind).aspects ⊆ seen)
    (choice i : Nat) : kind.judge b choice i = kind.judge b' choice i := by
  cases kind with
  | color => simp only [judge, Board.hasColorAt, h.hasColor_eq (hseen (by decide))]
  | shape => simp only [judge, Board.hasShapeAt, h.hasShape_eq (hseen (by decide))]
  | row | column => simp only [judge, h.isOccupied_eq]
  | blank => simp only [judge, Board.isBlank, h.isOccupied_eq]

theorem NounPredKind.judge_eq (h : b.Alike seen b') {kind : NounPredKind}
    (hseen : (Kind.nounPred kind).aspects ⊆ seen) (choice : Nat) (parts : List Meaning) (i : Nat) :
    kind.judge b choice parts i = kind.judge b' choice parts i := by
  cases kind with
  | color => simp only [judge, Board.hasColorAt, h.hasColor_eq (hseen (by decide))]
  | shape => simp only [judge, Board.hasShapeAt, h.hasShape_eq (hseen (by decide))]
  | row | column | adjacentTo => rfl

/-- Boards that are alike in what a kind of meaning names are the same to it. -/
theorem Kind.meaning_eq (h : b.Alike seen b') {kind : Kind} (hseen : kind.aspects ⊆ seen) (choice : Nat)
    (parts : List Meaning) : kind.meaning b choice parts = kind.meaning b' choice parts := by
  funext argument
  cases kind with
  | rule kind => rfl
  | noun kind => simp only [meaning, NounKind.judge_eq h hseen]
  | nounPred kind => simp only [meaning, NounPredKind.judge_eq h hseen]
  | group kind => rw [meaning, h.groups_eq hseen, meaning]
  | groupPred kind => rw [meaning, h.satisfies_eq _ hseen, meaning]

end

/-! ## Fragments -/

namespace Fragment

variable {seen : List Aspect} {b b' : Board}

mutual

theorem meaning_eq_of_alike (h : b.Alike seen b') : ∀ f : Fragment, (∀ k ∈ f.kinds, k.aspects ⊆ seen) →
    f.meaning b = f.meaning b'
  | node l parts, hseen => by
    simp only [kinds, List.forall_mem_append] at hseen
    obtain ⟨hroot, hbelow⟩ := hseen
    rw [meaning, meanings_eq_of_alike h parts hbelow, meaning]
    cases hkind : l.kind with
    | none => rfl
    | some kind => exact Kind.meaning_eq h (hroot kind (by simp [hkind])) _ _

theorem meanings_eq_of_alike (h : b.Alike seen b') : ∀ parts : List Fragment,
    (∀ k ∈ kindsOfAll parts, k.aspects ⊆ seen) → meanings b parts = meanings b' parts
  | [], _ => rfl
  | f :: rest, hseen => by
    simp only [kindsOfAll, List.forall_mem_append] at hseen
    obtain ⟨hfirst, hrest⟩ := hseen
    rw [meanings, meaning_eq_of_alike h f hfirst, meanings_eq_of_alike h rest hrest, meanings]

end

/-- **A fragment looks at nothing but what its kinds name.** If the kinds at its
nodes name only what is seen, and two boards hold symbols in the same cells that
are alike in what is seen, the fragment says the same of both: of the board, of
every cell, in its groups, and of every list of cells. With the color alone seen
this is about fragments that name no shape, with the shape alone about those
that name no color, and with nothing seen about those that ask only which cells
are occupied. -/
theorem verdicts_eq_of_alike {f : Fragment} (hseen : ∀ k ∈ f.kinds, k.aspects ⊆ seen)
    (h : b.Alike seen b') :
    f.holds b = f.holds b' ∧ (∀ i, f.holdsAt b i = f.holdsAt b' i) ∧ f.groups b = f.groups b' ∧
      ∀ cells, f.holdsOn b cells = f.holdsOn b' cells := by
  have hmeaning := meaning_eq_of_alike h f hseen
  refine ⟨congrArg Meaning.holds hmeaning, ?_, congrArg Meaning.groups hmeaning, ?_⟩
  · intro i
    rw [holdsAt, hmeaning, holdsAt]
  · intro cells
    rw [holdsOn, hmeaning, holdsOn]

/-- That every blank cell is adjacent to a yellow symbol is seen by the colors
alone, so a triangle may become a square; whether a row is filled with blank
cells is seen from the blank cells, so the symbol may become any other. -/
theorem blank_adjacent_looks_at_color :
    ∃ f g : Fragment, build Grammar.standard (.every .blank (.adjacentTo (.noun 0 1))) = .ok f ∧
      build Grammar.standard (.rowFilled .blank) = .ok g ∧
      f.holds (.ofCells [none, some ⟨.yellow, .triangle⟩]) =
        f.holds (.ofCells [none, some ⟨.yellow, .square⟩]) ∧
      g.holds (.ofCells [none, some ⟨.yellow, .triangle⟩]) =
        g.holds (.ofCells [none, some ⟨.blue, .circle⟩]) := by
  obtain ⟨f, hf, hcolor⟩ : ∃ f : Fragment,
      build Grammar.standard (.every .blank (.adjacentTo (.noun 0 1))) = .ok f ∧
        ∀ k ∈ f.kinds, k.aspects ⊆ [.color] := ⟨_, rfl, by decide⟩
  obtain ⟨g, hg, hnothing⟩ : ∃ g : Fragment, build Grammar.standard (.rowFilled .blank) = .ok g ∧
      ∀ k ∈ g.kinds, k.aspects ⊆ [] := ⟨_, rfl, by decide⟩
  have hyellow : Board.Alike [.color] (.ofCells [none, some ⟨.yellow, .triangle⟩])
      (.ofCells [none, some ⟨.yellow, .square⟩]) := ⟨by decide, by decide, by decide⟩
  have hplace : Board.Alike [] (.ofCells [none, some ⟨.yellow, .triangle⟩])
      (.ofCells [none, some ⟨.blue, .circle⟩]) := ⟨by decide, by decide, by decide⟩
  exact ⟨f, g, hf, hg, (verdicts_eq_of_alike hcolor hyellow).1, (verdicts_eq_of_alike hnothing hplace).1⟩

end Fragment

end HiddenRule
