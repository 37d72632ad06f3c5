import HiddenRule.Proofs.Relabelings
import HiddenRule.Grammar.Standard
import HiddenRule.Rule
import HiddenRule.Skeleton.Standard
import Mathlib.Data.List.Count
import Mathlib.Data.List.Nodup

/-
  Group predicates on any list of cells. The groups that a board picks list
  occupied cells, each once; but a group predicate can be asked about any list,
  with cells more than once, with empty cells and with numbers that name no
  cell. It tests the list for one color after the other, or counts the cells of
  each color, and the same for shapes. What it decides compares entries of the
  list in pairs. An entry that holds nothing is never the same as another, and
  never different from being different.

  What is proved:
    1. `sameOf_iff_sameOn`: one value passes for all entries exactly if there
       are none, or all of them hold something, and the same.
    2. `differentOf_iff_nodup`, `nodup_holding_iff`: no value is counted twice
       exactly if no two entries hold it.
    3. `countP_isOccupied_le_of_nodup`: there are no more such entries than
       values.
    4. `group_predicates_compare_entries`: every group predicate compares
       entries, in whatever order they are listed.
-/

namespace HiddenRule

/-! ## Comparing entries -/

namespace Board

/-- Whether the listed cells hold symbols that look the same, if any are
listed. -/
def SameOn {α : Type} (b : Board) (look : Symbol → α) (cells : List Nat) : Prop :=
  cells = [] ∨ (∀ i ∈ cells, b.isOccupied i = true) ∧
    ∀ i ∈ cells, ∀ j ∈ cells, (b.get i).map look = (b.get j).map look

/-- Whether no two entries of the list are cells with symbols that look the
same. A cell listed twice is two entries. -/
def DifferOn {α : Type} (b : Board) (look : Symbol → α) (cells : List Nat) : Prop :=
  ∀ (p q i j : Nat), p ≠ q → cells[p]? = some i → cells[q]? = some j →
    ∀ s t, b.get i = some s → b.get j = some t → look s ≠ look t

/-- What the symbols in the listed cells look like, entry by entry. -/
def holding {α : Type} (b : Board) (look : Symbol → α) (cells : List Nat) : List α :=
  cells.filterMap fun i => (b.get i).map look

section
variable {α : Type} {values : List α} {look : Symbol → α} {b : Board} {cells : List Nat}

theorem any_look_eq_true_iff [DecidableEq α] {i : Nat} {a : α} :
    ((b.get i).any fun s => look s == a) = true ↔ (b.get i).map look = some a := by
  cases b.get i with
  | none => simp
  | some s => simp

/-- One value passes for all entries exactly if they look the same. -/
theorem sameOf_iff_sameOn [DecidableEq α] [Nonempty α] (hall : ∀ a, a ∈ values) :
    (values.any fun a => cells.all fun i => (b.get i).any fun s => look s == a) = true ↔
      b.SameOn look cells := by
  simp only [List.any_eq_true, hall, true_and, List.all_eq_true, any_look_eq_true_iff, SameOn]
  refine ⟨?_, ?_⟩
  · intro h
    obtain ⟨a, ha⟩ := h
    refine .inr ⟨?_, ?_⟩
    · intro i hi
      rw [isOccupied, ← Option.isSome_map, ha i hi, Option.isSome_some]
    · intro i hi j hj
      rw [ha i hi, ha j hj]
  · intro h
    rcases h with rfl | ⟨hoccupied, hsame⟩
    · exact ⟨Classical.arbitrary α, fun i hi => absurd hi List.not_mem_nil⟩
    · cases cells with
      | nil => exact ⟨Classical.arbitrary α, fun i hi => absurd hi List.not_mem_nil⟩
      | cons k rest =>
        -- the first entry gives the value for all
        obtain ⟨s, hs⟩ := Option.isSome_iff_exists.mp (hoccupied k List.mem_cons_self)
        refine ⟨look s, fun i hi => ?_⟩
        rw [hsame i hi k List.mem_cons_self, hs, Option.map_some]

/-- No value is counted twice exactly if none is held twice. -/
theorem differentOf_iff_nodup [DecidableEq α] (hall : ∀ a, a ∈ values) :
    (values.all fun a => cells.countP (fun i => (b.get i).any fun s => look s == a) ≤ 1) = true ↔
      (b.holding look cells).Nodup := by
  have hcount : ∀ a, cells.countP (fun i => (b.get i).any fun s => look s == a) =
      (b.holding look cells).count a := by
    intro a
    rw [holding, List.count_filterMap]
    apply List.countP_congr
    intro i _
    rw [any_look_eq_true_iff, beq_iff_eq]
  simp only [List.all_eq_true, hall, true_implies, decide_eq_true_eq, hcount]
  exact List.nodup_iff_count_le_one.symm

/-- None is held twice exactly if no two entries hold the same. -/
theorem nodup_holding_iff : (b.holding look cells).Nodup ↔ b.DifferOn look cells := by
  rw [holding, List.Nodup, List.pairwise_filterMap, List.pairwise_iff_getElem]
  simp only [Option.map_eq_some_iff]
  refine ⟨?_, ?_⟩
  · intro h p q i j hne hp hq s t hs ht heq
    obtain ⟨hplt, rfl⟩ := List.getElem?_eq_some_iff.mp hp
    obtain ⟨hqlt, rfl⟩ := List.getElem?_eq_some_iff.mp hq
    -- of the two entries, either may come first
    rcases Nat.lt_or_gt_of_ne hne with hlt | hgt
    · exact h p q hplt hqlt hlt _ ⟨s, hs, rfl⟩ _ ⟨t, ht, rfl⟩ heq
    · exact h q p hqlt hplt hgt _ ⟨t, ht, rfl⟩ _ ⟨s, hs, rfl⟩ heq.symm
  · rintro h p q hp hq hlt _ ⟨s, hs, rfl⟩ _ ⟨t, ht, rfl⟩
    exact h p q _ _ (Nat.ne_of_lt hlt) (List.getElem?_eq_getElem hp) (List.getElem?_eq_getElem hq) s t hs ht

/-- If none is held twice, no more entries hold something than there are
values. -/
theorem countP_isOccupied_le_of_nodup (hall : ∀ a, a ∈ values) (h : (b.holding look cells).Nodup) :
    cells.countP b.isOccupied ≤ values.length := by
  have hlength : cells.countP b.isOccupied = (b.holding look cells).length := by
    rw [holding, List.length_filterMap_eq_countP]
    apply List.countP_congr
    intro i _
    rw [Option.isSome_map, isOccupied]
  rw [hlength]
  exact (List.subperm_of_subset h fun a _ => hall a).length_le

end

end Board

/-! ## Group predicates -/

/-- What a group predicate of a kind says of the entries of a list. -/
def GroupPredKind.Compares (b : Board) (cells : List Nat) : GroupPredKind → Prop
  | .sameColor => b.SameOn Symbol.color cells
  | .differentColors => b.DifferOn Symbol.color cells
  | .sameShape => b.SameOn Symbol.shape cells
  | .differentShapes => b.DifferOn Symbol.shape cells
  | .sameColorOrShape => b.SameOn Symbol.color cells ∨ b.SameOn Symbol.shape cells
  | .identical => cells = [] ∨ ∃ s, ∀ i ∈ cells, b.get i = some s
  | .connected => (∀ i ∈ cells, i < Cell.count) ∧ ∀ i ∈ cells, ∀ j ∈ cells, Cell.Joined cells i j

namespace Board

variable {b : Board} {cells : List Nat}

theorem sameColor_iff_sameOn : b.sameColor cells = true ↔ b.SameOn Symbol.color cells :=
  have : Nonempty Color := ⟨.red⟩
  sameOf_iff_sameOn Color.mem_all

theorem sameShape_iff_sameOn : b.sameShape cells = true ↔ b.SameOn Symbol.shape cells :=
  have : Nonempty Shape := ⟨.circle⟩
  sameOf_iff_sameOn Shape.mem_all

theorem differentColors_iff_nodup : b.differentColors cells = true ↔ (b.holding Symbol.color cells).Nodup :=
  differentOf_iff_nodup Color.mem_all

theorem differentShapes_iff_nodup : b.differentShapes cells = true ↔ (b.holding Symbol.shape cells).Nodup :=
  differentOf_iff_nodup Shape.mem_all

/-- Symbols of one color and of one shape are one symbol. -/
theorem sameOn_color_and_shape_iff : b.SameOn Symbol.color cells ∧ b.SameOn Symbol.shape cells ↔
    cells = [] ∨ ∃ s, ∀ i ∈ cells, b.get i = some s := by
  refine ⟨?_, ?_⟩
  · rintro ⟨rfl | ⟨hoccupied, hcolor⟩, hshape⟩
    · exact .inl rfl
    rcases hshape with rfl | ⟨-, hshape⟩
    · exact .inl rfl
    cases cells with
    | nil => exact .inl rfl
    | cons k rest =>
      obtain ⟨s, hs⟩ := Option.isSome_iff_exists.mp (hoccupied k List.mem_cons_self)
      refine .inr ⟨s, fun i hi => ?_⟩
      obtain ⟨t, ht⟩ := Option.isSome_iff_exists.mp (hoccupied i hi)
      have htcolor := hcolor i hi k List.mem_cons_self
      have htshape := hshape i hi k List.mem_cons_self
      rw [hs, ht, Option.map_some, Option.map_some, Option.some.injEq] at htcolor htshape
      cases s
      cases t
      cases htcolor
      cases htshape
      exact ht
  · rintro (rfl | ⟨s, hs⟩)
    · exact ⟨.inl rfl, .inl rfl⟩
    · have hoccupied : ∀ i ∈ cells, b.isOccupied i = true := by
        intro i hi
        rw [isOccupied, hs i hi, Option.isSome_some]
      exact ⟨.inr ⟨hoccupied, fun i hi j hj => by rw [hs i hi, hs j hj]⟩,
        .inr ⟨hoccupied, fun i hi j hj => by rw [hs i hi, hs j hj]⟩⟩

/-- Every group predicate compares entries. -/
theorem satisfies_iff_compares (kind : GroupPredKind) :
    b.satisfies cells kind = true ↔ kind.Compares b cells := by
  cases kind with
  | sameColor => exact sameColor_iff_sameOn
  | differentColors => exact differentColors_iff_nodup.trans nodup_holding_iff
  | sameShape => exact sameShape_iff_sameOn
  | differentShapes => exact differentShapes_iff_nodup.trans nodup_holding_iff
  | sameColorOrShape =>
    rw [satisfies, GroupPredKind.Compares, Bool.or_eq_true, sameColor_iff_sameOn, sameShape_iff_sameOn]
  | identical =>
    rw [satisfies, GroupPredKind.Compares, Bool.and_eq_true, sameColor_iff_sameOn, sameShape_iff_sameOn]
    exact sameOn_color_and_shape_iff
  | connected => exact Cell.connected_iff

/-- A list in another order is the list carried along where no cell moves. -/
theorem satisfies_eq_of_perm {cells' : List Nat} (h : cells.Perm cells') (kind : GroupPredKind) :
    b.satisfies cells' kind = b.satisfies cells kind := by
  have hcolor : Translates id id Color.all b.hasColor Color.all b.hasColor :=
    ⟨by rw [List.map_id], fun _ _ => rfl⟩
  have hshape : Translates id id Shape.all b.hasShape Shape.all b.hasShape :=
    ⟨by rw [List.map_id], fun _ _ => rfl⟩
  have hcells : Carried Relabeling.still.move cells cells' := by
    show cells'.Perm (cells.map id)
    rw [List.map_id]
    exact h.symm
  exact satisfies_eq (m := Relabeling.still) hcolor hshape hcells kind

/-- Four symbols cannot all differ in color, nor in shape. -/
theorem satisfies_different_eq_false {kind : GroupPredKind}
    (hkind : kind = .differentColors ∨ kind = .differentShapes) (h : 3 < cells.countP b.isOccupied) :
    b.satisfies cells kind = false := by
  rw [← Bool.not_eq_true]
  intro hdifferent
  have hle : cells.countP b.isOccupied ≤ 3 := by
    rcases hkind with rfl | rfl
    · exact countP_isOccupied_le_of_nodup Color.mem_all (differentColors_iff_nodup.mp hdifferent)
    · exact countP_isOccupied_le_of_nodup Shape.mem_all (differentShapes_iff_nodup.mp hdifferent)
  omega

end Board

namespace Fragment

/-- A group predicate of a kind judges lists as the kind does. -/
theorem holdsOn_eq {f : Fragment} {kind : GroupPredKind} (h : f.kind = some (.groupPred kind)) (b : Board)
    (cells : List Nat) : f.holdsOn b cells = b.satisfies cells kind := by
  cases f with
  | node l parts =>
    have hkind : l.kind = some (.groupPred kind) := h
    rw [holdsOn, meaning, hkind]
    rfl

end Fragment

/-- **Group predicates compare the entries of a list.** Whatever board and
whatever list a group predicate is asked about, with entries of any number, more
than once, and in any order: it says what its kind says of the entries, and it
says the same of the list in another order. Of more than three entries with
symbols, it never says that they are different colors or different shapes. -/
theorem Fragment.group_predicates_compare_entries {f : Fragment} {kind : GroupPredKind}
    (h : f.kind = some (.groupPred kind)) (b : Board) (cells : List Nat) :
    (f.holdsOn b cells = true ↔ kind.Compares b cells) ∧
    (∀ cells', cells.Perm cells' → f.holdsOn b cells' = f.holdsOn b cells) ∧
    (kind = .differentColors ∨ kind = .differentShapes → 3 < cells.countP b.isOccupied →
      f.holdsOn b cells = false) := by
  refine ⟨?_, ?_, ?_⟩
  · rw [holdsOn_eq h]
    exact Board.satisfies_iff_compares kind
  · intro cells' hperm
    rw [holdsOn_eq h, holdsOn_eq h]
    exact Board.satisfies_eq_of_perm hperm kind
  · intro hkind hmany
    rw [holdsOn_eq h]
    exact Board.satisfies_different_eq_false hkind hmany

/-- A red and a blue circle in the first row, and an empty cell between them. -/
def Board.twoCircles : Board := .ofCells [some ⟨.red, .circle⟩, none, some ⟨.blue, .circle⟩]

/-- A red and a blue circle, listed with an empty cell and a number that names no
cell, are different colors, in any order; with one of them listed twice they are
not, and neither are four entries. With the empty cell they are not even the
same shape. -/
theorem Fragment.two_circles_compared :
    ∃ f g, build Grammar.standard (.groupPred 1) = .ok f ∧ build Grammar.standard (.groupPred 2) = .ok g ∧
      f.holdsOn .twoCircles [0, 1, 9, 2] = true ∧ f.holdsOn .twoCircles [9, 2, 0, 1] = true ∧
      f.holdsOn .twoCircles [0, 2, 0] = false ∧ f.holdsOn .twoCircles [0, 2, 1, 2, 0] = false ∧
      g.holdsOn .twoCircles [0, 2] = true ∧ g.holdsOn .twoCircles [0, 1, 2] = false := by
  obtain ⟨f, hf, hcolors⟩ : ∃ f, build Grammar.standard (.groupPred 1) = .ok f ∧
      f.kind = some (.groupPred .differentColors) := ⟨_, rfl, rfl⟩
  obtain ⟨g, hg, hshape⟩ : ∃ g, build Grammar.standard (.groupPred 2) = .ok g ∧
      g.kind = some (.groupPred .sameShape) := ⟨_, rfl, rfl⟩
  obtain ⟨hmean, hperm, -⟩ := group_predicates_compare_entries hcolors .twoCircles [0, 1, 9, 2]
  obtain ⟨htwice, -, -⟩ := group_predicates_compare_entries hcolors .twoCircles [0, 2, 0]
  obtain ⟨-, -, hmany⟩ := group_predicates_compare_entries hcolors .twoCircles [0, 2, 1, 2, 0]
  obtain ⟨hcircles, -, -⟩ := group_predicates_compare_entries hshape .twoCircles [0, 2]
  obtain ⟨hblank, -, -⟩ := group_predicates_compare_entries hshape .twoCircles [0, 1, 2]
  have hdiffer : f.holdsOn .twoCircles [0, 1, 9, 2] = true :=
    hmean.mpr (Board.nodup_holding_iff.mp (by decide))
  refine ⟨f, g, hf, hg, hdiffer, (hperm _ (by decide)).trans hdiffer, ?_, hmany (.inl rfl) (by decide), ?_, ?_⟩
  · rw [← Bool.not_eq_true, htwice]
    intro h
    exact h 0 2 0 0 (by decide) rfl rfl _ _ rfl rfl rfl
  · exact hcircles.mpr (.inr (by decide))
  · rw [← Bool.not_eq_true, hblank]
    rintro (h | ⟨hoccupied, -⟩)
    · cases h
    · exact absurd (hoccupied 1 (by decide)) (by decide)

end HiddenRule
