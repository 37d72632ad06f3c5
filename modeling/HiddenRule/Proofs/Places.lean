import HiddenRule.Fragment.Group
import HiddenRule.Proofs.CellClusters
import Mathlib.Data.Fintype.Prod
import Mathlib.Data.Set.Basic

/-
  Places: the nine cells by row and column. What the board computes with cell
  numbers is restated over places: sharing an edge is being one step apart, and
  a list of cells is the set of its places.

  What is proved:
    1. `all_eq_true_iff`, `any_eq_true_iff`: going through the cells is going
       through the places.
    2. `adjacent_cell`: two cells share an edge exactly if their places are
       one step apart.
    3. `connected_iff_linked`: listed cells of a board form one cluster exactly
       if steps through their places lead from each to each.
-/

namespace HiddenRule

/-- A place on the board: a row and a column. -/
abbrev Place := Fin 3 × Fin 3

namespace Place

/-- The number of the cell at a place. -/
def cell (p : Place) : Nat := 3 * p.1 + p.2

/-- The steps from one place to another, along the row and along the column. -/
def distance (p q : Place) : Nat := ((p.1 : Int) - q.1).natAbs + ((p.2 : Int) - q.2).natAbs

/-- The place of a cell. -/
def ofCell (i : Nat) : Place := (Fin.ofNat 3 (i / 3), Fin.ofNat 3 (i % 3))

/-- The places of listed cells. -/
def ofCells (cells : List Nat) : Set Place := {p | p.cell ∈ cells}

theorem cell_lt (p : Place) : p.cell < Cell.count := by
  show 3 * p.1.val + p.2.val < 9
  omega

theorem row_cell (p : Place) : Cell.row p.cell = p.1 := by
  show (3 * p.1.val + p.2.val) / 3 = p.1.val
  omega

theorem column_cell (p : Place) : Cell.column p.cell = p.2 := by
  show (3 * p.1.val + p.2.val) % 3 = p.2.val
  omega

theorem ofCell_cell (p : Place) : ofCell p.cell = p := by
  revert p
  decide

theorem cell_ofCell {i : Nat} (h : i < Cell.count) : (ofCell i).cell = i := by
  have h9 : i < 9 := h
  show 3 * (i / 3 % 3) + i % 3 % 3 = i
  omega

theorem cell_injective {p q : Place} (h : p.cell = q.cell) : p = q := by
  rw [← ofCell_cell p, h, ofCell_cell]

theorem mem_ofCells {p : Place} {cells : List Nat} : p ∈ ofCells cells ↔ p.cell ∈ cells := Iff.rfl

/-! ## Going through the cells -/

theorem forall_cell_iff {P : Nat → Prop} : (∀ i < Cell.count, P i) ↔ ∀ p : Place, P p.cell := by
  refine ⟨?_, ?_⟩
  · intro h p
    exact h p.cell p.cell_lt
  · intro h i hi
    exact cell_ofCell hi ▸ h (ofCell i)

theorem exists_cell_iff {P : Nat → Prop} : (∃ i < Cell.count, P i) ↔ ∃ p : Place, P p.cell := by
  refine ⟨?_, ?_⟩
  · intro h
    obtain ⟨i, hi, hP⟩ := h
    exact ⟨ofCell i, (cell_ofCell hi).symm ▸ hP⟩
  · intro h
    obtain ⟨p, hP⟩ := h
    exact ⟨p.cell, p.cell_lt, hP⟩

theorem all_eq_true_iff {f : Nat → Bool} : Cell.all.all f = true ↔ ∀ p : Place, f p.cell = true := by
  rw [List.all_eq_true]
  simp only [Cell.mem_all]
  exact forall_cell_iff

theorem any_eq_true_iff {f : Nat → Bool} : Cell.all.any f = true ↔ ∃ p : Place, f p.cell = true := by
  rw [List.any_eq_true]
  simp only [Cell.mem_all]
  exact exists_cell_iff

theorem ofCell_mem_ofCells {cells : List Nat} {i : Nat} (hi : i ∈ cells) (h : i < Cell.count) :
    ofCell i ∈ ofCells cells := by
  rw [mem_ofCells, cell_ofCell h]
  exact hi

/-- The listed cells, by their places. -/
theorem forall_mem_iff {cells : List Nat} (hboard : ∀ i ∈ cells, i < Cell.count) {P : Nat → Prop} :
    (∀ i ∈ cells, P i) ↔ ∀ p ∈ ofCells cells, P p.cell := by
  refine ⟨?_, ?_⟩
  · intro h p hp
    exact h p.cell hp
  · intro h i hi
    exact cell_ofCell (hboard i hi) ▸ h (ofCell i) (ofCell_mem_ofCells hi (hboard i hi))

/-- There are listed cells exactly if there are places of them. -/
theorem ofCells_nonempty_iff {cells : List Nat} (hboard : ∀ i ∈ cells, i < Cell.count) :
    (ofCells cells).Nonempty ↔ cells ≠ [] := by
  refine ⟨?_, ?_⟩
  · intro h hnil
    obtain ⟨p, hp⟩ := h
    rw [mem_ofCells, hnil] at hp
    exact absurd hp List.not_mem_nil
  · intro h
    obtain ⟨i, hi⟩ := List.exists_mem_of_ne_nil cells h
    exact ⟨ofCell i, ofCell_mem_ofCells hi (hboard i hi)⟩

theorem ofCells_pair (p q : Place) : ofCells [p.cell, q.cell] = {p, q} := by
  ext r
  have hcell : ∀ {a c : Place}, a.cell = c.cell ↔ a = c := ⟨cell_injective, congrArg cell⟩
  simp [mem_ofCells, hcell]

theorem mem_inRow {p : Place} {r : Fin 3} : p.cell ∈ Cell.inRow r ↔ p.1 = r := by
  revert p r
  decide

theorem mem_inColumn {p : Place} {c : Fin 3} : p.cell ∈ Cell.inColumn c ↔ p.2 = c := by
  revert p c
  decide

/-- The lines of the board, by the numbers of the places. -/
theorem exists_line_iff {P : Nat → Prop} : (∃ r ∈ Cell.lines, P r) ↔ ∃ r : Fin 3, P r := by
  simp [Cell.lines, Fin.exists_fin_succ]

theorem inRow_lt : ∀ r : Fin 3, ∀ i ∈ Cell.inRow r, i < Cell.count := by decide

theorem inColumn_lt : ∀ c : Fin 3, ∀ i ∈ Cell.inColumn c, i < Cell.count := by decide

/-! ## Steps -/

/-- Two cells share an edge exactly if their places are one step apart. -/
theorem adjacent_cell (p q : Place) : Cell.adjacent p.cell q.cell = true ↔ p.distance q = 1 := by
  revert p q
  decide

theorem neighbors_lt : ∀ i < Cell.count, ∀ j ∈ Cell.neighbors i, j < Cell.count := by decide

theorem any_neighbors_iff {f : Nat → Bool} (p : Place) :
    (Cell.neighbors p.cell).any f = true ↔ ∃ q : Place, p.distance q = 1 ∧ f q.cell = true := by
  have hmem : ∀ j, j ∈ Cell.neighbors p.cell ↔ Cell.adjacent p.cell j = true := fun j =>
    List.contains_iff_mem.symm
  rw [List.any_eq_true]
  refine ⟨?_, ?_⟩
  · intro h
    obtain ⟨j, hj, hf⟩ := h
    have hcell := cell_ofCell (neighbors_lt _ p.cell_lt j hj)
    refine ⟨ofCell j, ?_, hcell.symm ▸ hf⟩
    rw [← adjacent_cell, hcell, ← hmem]
    exact hj
  · intro h
    obtain ⟨q, hq, hf⟩ := h
    exact ⟨q.cell, (hmem _).mpr ((adjacent_cell p q).mpr hq), hf⟩

/-- Whether steps within a set of places lead from one place to another. -/
def Linked (S : Set Place) : Place → Place → Prop :=
  Relation.ReflTransGen fun p q => p ∈ S ∧ q ∈ S ∧ p.distance q = 1

theorem linked_ofCells_iff {cells : List Nat} (hboard : ∀ i ∈ cells, i < Cell.count) (p q : Place) :
    Linked (ofCells cells) p q ↔ Cell.Joined cells p.cell q.cell := by
  refine ⟨?_, ?_⟩
  · intro h
    apply Relation.ReflTransGen.lift cell _ _ _ h
    intro a b hstep
    exact ⟨hstep.1, hstep.2.1, (adjacent_cell a b).mpr hstep.2.2⟩
  · intro h
    have hlift : Linked (ofCells cells) (ofCell p.cell) (ofCell q.cell) := by
      refine Relation.ReflTransGen.lift ofCell ?_ _ _ h
      intro i j hstep
      have hi := cell_ofCell (hboard i hstep.1)
      have hj := cell_ofCell (hboard j hstep.2.1)
      refine ⟨?_, ?_, ?_⟩
      · rw [mem_ofCells, hi]
        exact hstep.1
      · rw [mem_ofCells, hj]
        exact hstep.2.1
      · rw [← adjacent_cell, hi, hj]
        exact hstep.2.2
    rwa [ofCell_cell, ofCell_cell] at hlift

/-- Listed cells of a board form one cluster exactly if steps through their
places lead from each to each. -/
theorem connected_iff_linked {cells : List Nat} (hboard : ∀ i ∈ cells, i < Cell.count) :
    Cell.connected cells = true ↔
      ∀ p ∈ ofCells cells, ∀ q ∈ ofCells cells, Linked (ofCells cells) p q := by
  rw [Cell.connected_iff, and_iff_right hboard]
  refine ⟨?_, ?_⟩
  · intro h p hp q hq
    exact (linked_ofCells_iff hboard p q).mpr (h p.cell hp q.cell hq)
  · intro h i hi j hj
    have hicell := cell_ofCell (hboard i hi)
    have hjcell := cell_ofCell (hboard j hj)
    have hlinked := h (ofCell i) (ofCell_mem_ofCells hi (hboard i hi)) (ofCell j)
      (ofCell_mem_ofCells hj (hboard j hj))
    rw [linked_ofCells_iff hboard, hicell, hjcell] at hlinked
    exact hlinked

end Place

end HiddenRule
