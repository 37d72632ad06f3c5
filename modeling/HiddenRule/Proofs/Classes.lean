import HiddenRule.Proofs.ListedCells
import HiddenRule.Proofs.Reading

/-
  Groups of cells as classes of places. The board lists the groups of a kind,
  cell by cell; every class of the kind is one of them. A group predicate compares
  the entries of a list, and as no cell of a group is listed twice, it compares
  places.

  What is proved:
    1. `isClass_iff`: the classes of a kind are the groups of it.
    2. `Lists.sameOn_iff`, `Lists.differOn_iff`: comparing the entries of a list
       of occupied cells is comparing its places.
    3. `trueOn_iff`: a group is judged as its class reads.
    4. `judge_everyGroup`: a rule over groups quantifies over classes.
-/

namespace HiddenRule

/-! ## Lists of occupied cells -/

namespace Board

variable {b : Board} {cells : List Nat}

/-- A list of occupied cells, none of them twice. -/
structure Lists (b : Board) (cells : List Nat) : Prop where
  nodup : cells.Nodup
  occupied : ∀ i ∈ cells, b.isOccupied i = true

theorem lt_of_isOccupied {i : Nat} (h : b.isOccupied i = true) : i < Cell.count := by
  by_contra hge
  rw [isOccupied, get_eq_none (Nat.le_of_not_lt hge)] at h
  contradiction

/-- Listed cells lie on the board. -/
theorem Lists.lt_count (h : b.Lists cells) : ∀ i ∈ cells, i < Cell.count :=
  fun i hi => lt_of_isOccupied (h.occupied i hi)

theorem Lists.occupiedAt (h : b.Lists cells) : ∀ p ∈ Place.ofCells cells, b.OccupiedAt p :=
  fun p hp => (isOccupied_cell p).mp (h.occupied p.cell hp)

theorem lists_occupiedAmong (h : cells.Nodup) : b.Lists (b.occupiedAmong cells) where
  nodup := h.filter _
  occupied := fun _ hi => (List.mem_filter.mp hi).2

theorem lists_occupied : b.Lists b.occupied := lists_occupiedAmong List.nodup_range

theorem Lists.filter (h : b.Lists cells) (f : Nat → Bool) : b.Lists (cells.filter f) where
  nodup := h.nodup.filter f
  occupied := fun i hi => h.occupied i (List.mem_filter.mp hi).1

/-- Whatever group is picked, it lists occupied cells. -/
theorem lists_of_mem_groups (kind : GroupKind) (h : cells ∈ b.groups kind) : b.Lists cells := by
  cases kind with
  | allSymbols =>
    rw [groups, List.mem_singleton] at h
    exact h ▸ lists_occupied
  | rows =>
    obtain ⟨r, -, rfl⟩ := List.mem_map.mp h
    exact lists_occupiedAmong (by simp [Cell.inRow])
  | columns =>
    obtain ⟨c, -, rfl⟩ := List.mem_map.mp h
    exact lists_occupiedAmong (by simp [Cell.inColumn])
  | sameColor =>
    obtain ⟨c, -, rfl⟩ := List.mem_map.mp h
    exact lists_occupied.filter _
  | sameShape =>
    obtain ⟨s, -, rfl⟩ := List.mem_map.mp h
    exact lists_occupied.filter _
  | identical =>
    obtain ⟨s, -, hs⟩ := List.mem_flatMap.mp h
    obtain ⟨c, -, rfl⟩ := List.mem_map.mp hs
    exact lists_occupied.filter _
  | adjacentPairs =>
    obtain ⟨pair, hpair, rfl⟩ := List.mem_map.mp h
    obtain ⟨hadjacent, hoccupied⟩ := List.mem_filter.mp hpair
    rw [Bool.and_eq_true] at hoccupied
    have hne : ∀ pair ∈ Cell.adjacentPairs, pair.1 ≠ pair.2 := by decide
    -- a pair is listed twice nowhere, since no cell is next to itself
    refine ⟨?_, ?_⟩
    · simpa using hne pair hadjacent
    · simpa using hoccupied

/-! ## The places of a group -/

theorem ofCells_occupied : Place.ofCells b.occupied = {p | b.OccupiedAt p} := by
  ext p
  rw [Place.mem_ofCells, occupied, List.mem_filter, isOccupied_cell, Cell.mem_all]
  exact and_iff_right p.cell_lt

theorem ofCells_filter_occupied (f : Nat → Bool) :
    Place.ofCells (b.occupied.filter f) = {p | b.OccupiedAt p ∧ f p.cell = true} := by
  ext p
  rw [Place.mem_ofCells, List.mem_filter, ← Place.mem_ofCells, ofCells_occupied]
  rfl

theorem occupiedAt_of_colorAt {p : Place} {c : Color} (h : b.colorAt p = some c) : b.OccupiedAt p := by
  obtain ⟨s, hs, -⟩ := Option.map_eq_some_iff.mp h
  exact ⟨s, hs⟩

theorem occupiedAt_of_shapeAt {p : Place} {s : Shape} (h : b.shapeAt p = some s) : b.OccupiedAt p := by
  obtain ⟨t, ht, -⟩ := Option.map_eq_some_iff.mp h
  exact ⟨t, ht⟩

theorem ofCells_inRow (r : Fin 3) :
    Place.ofCells (b.occupiedAmong (Cell.inRow r)) = {p | b.OccupiedAt p ∧ p.1 = r} := by
  ext p
  rw [Place.mem_ofCells, occupiedAmong, List.mem_filter, isOccupied_cell, Place.mem_inRow]
  exact and_comm

theorem ofCells_inColumn (c : Fin 3) :
    Place.ofCells (b.occupiedAmong (Cell.inColumn c)) = {p | b.OccupiedAt p ∧ p.2 = c} := by
  ext p
  rw [Place.mem_ofCells, occupiedAmong, List.mem_filter, isOccupied_cell, Place.mem_inColumn]
  exact and_comm

theorem ofCells_cellsOfColor (c : Color) : Place.ofCells (b.cellsOfColor c) = {p | b.colorAt p = some c} := by
  rw [cellsOfColor, ofCells_filter_occupied]
  ext p
  rw [Set.mem_ofPred_eq, hasColor_cell]
  exact and_iff_right_of_imp occupiedAt_of_colorAt

theorem ofCells_cellsOfShape (s : Shape) : Place.ofCells (b.cellsOfShape s) = {p | b.shapeAt p = some s} := by
  rw [cellsOfShape, ofCells_filter_occupied]
  ext p
  rw [Set.mem_ofPred_eq, hasShape_cell]
  exact and_iff_right_of_imp occupiedAt_of_shapeAt

/-- A symbol is its color and its shape. -/
theorem symbolAt_eq_some_iff {p : Place} {s : Symbol} :
    b.symbolAt p = some s ↔ b.shapeAt p = some s.shape ∧ b.colorAt p = some s.color := by
  rw [shapeAt, colorAt]
  cases b.symbolAt p with
  | none => simp
  | some t =>
    cases s
    cases t
    simp [and_comm]

theorem ofCells_cellsOfSymbol (s : Symbol) : Place.ofCells (b.cellsOfSymbol s) = {p | b.symbolAt p = some s} := by
  rw [cellsOfSymbol, ofCells_filter_occupied]
  ext p
  rw [Set.mem_ofPred_eq, Bool.and_eq_true, hasShape_cell, hasColor_cell, ← symbolAt_eq_some_iff]
  exact and_iff_right_of_imp fun h => ⟨s, h⟩

end Board

/-! ## Classes -/

/-- Of two places one step apart, one of the two orders is listed. -/
theorem Place.mem_adjacentPairs_or {p q : Place} (h : p.distance q = 1) :
    (p.cell, q.cell) ∈ Cell.adjacentPairs ∨ (q.cell, p.cell) ∈ Cell.adjacentPairs :=
  (Cell.adjacent_iff_mem_adjacentPairs _ p.cell_lt _ q.cell_lt).mp ((adjacent_cell p q).mpr h)

/-- The classes of a kind are the groups that the board lists. -/
theorem GroupKind.isClass_iff {b : Board} {S : Set Place} (kind : GroupKind) :
    kind.IsClass b S ↔ ∃ cells ∈ b.groups kind, Place.ofCells cells = S := by
  cases kind with
  | allSymbols => simp [IsClass, Board.groups, Board.ofCells_occupied, eq_comm]
  | rows =>
    simp only [IsClass, Board.groups, List.mem_map, exists_exists_and_eq_and]
    rw [Place.exists_line_iff]
    simp only [Board.ofCells_inRow, eq_comm]
  | columns =>
    simp only [IsClass, Board.groups, List.mem_map, exists_exists_and_eq_and]
    rw [Place.exists_line_iff]
    simp only [Board.ofCells_inColumn, eq_comm]
  | sameColor => simp [IsClass, Board.groups, Board.ofCells_cellsOfColor, Color.mem_all, eq_comm]
  | sameShape => simp [IsClass, Board.groups, Board.ofCells_cellsOfShape, Shape.mem_all, eq_comm]
  | identical =>
    simp only [IsClass, Board.groups, List.mem_flatMap, List.mem_map, Color.mem_all, Shape.mem_all]
    refine ⟨?_, ?_⟩
    · intro h
      obtain ⟨c, s, rfl⟩ := h
      exact ⟨_, ⟨s, trivial, c, trivial, rfl⟩, Board.ofCells_cellsOfSymbol ⟨c, s⟩⟩
    · intro h
      obtain ⟨cells, ⟨s, -, c, -, rfl⟩, rfl⟩ := h
      exact ⟨c, s, Board.ofCells_cellsOfSymbol ⟨c, s⟩⟩
  | adjacentPairs =>
    simp only [IsClass, Board.groups, List.mem_map, exists_exists_and_eq_and, List.mem_filter, Bool.and_eq_true]
    refine ⟨?_, ?_⟩
    · intro h
      obtain ⟨p, q, hp, hq, hstep, rfl⟩ := h
      rw [← Board.isOccupied_cell] at hp hq
      -- the table lists a pair once, the smaller cell first
      rcases Place.mem_adjacentPairs_or hstep with hpq | hqp
      · exact ⟨(p.cell, q.cell), ⟨hpq, hp, hq⟩, Place.ofCells_pair p q⟩
      · refine ⟨(q.cell, p.cell), ⟨hqp, hq, hp⟩, ?_⟩
        rw [Place.ofCells_pair, Set.pair_comm]
    · intro h
      obtain ⟨⟨i, j⟩, ⟨hpair, hi, hj⟩, rfl⟩ := h
      have hicell := Place.cell_ofCell (Board.lt_of_isOccupied hi)
      have hjcell := Place.cell_ofCell (Board.lt_of_isOccupied hj)
      refine ⟨Place.ofCell i, Place.ofCell j, ?_, ?_, ?_, ?_⟩
      · rw [← Board.isOccupied_cell, hicell]
        exact hi
      · rw [← Board.isOccupied_cell, hjcell]
        exact hj
      · rw [← Place.adjacent_cell, hicell, hjcell, Cell.adjacent_iff_mem_adjacentPairs _
          (Board.lt_of_isOccupied hi) _ (Board.lt_of_isOccupied hj)]
        exact .inl hpair
      · rw [← Place.ofCells_pair, hicell, hjcell]

/-! ## Judging groups -/

namespace Board

variable {b : Board} {cells : List Nat}

/-- Listed occupied cells look the same exactly if every two of their places
do. -/
theorem Lists.sameOn_iff {α : Type} {look : Symbol → α} (h : b.Lists cells) : b.SameOn look cells ↔
    ∀ p ∈ Place.ofCells cells, ∀ q ∈ Place.ofCells cells,
      (b.symbolAt p).map look = (b.symbolAt q).map look := by
  have hpairs : (∀ i ∈ cells, ∀ j ∈ cells, (b.get i).map look = (b.get j).map look) ↔
      ∀ p ∈ Place.ofCells cells, ∀ q ∈ Place.ofCells cells,
        (b.symbolAt p).map look = (b.symbolAt q).map look := by
    rw [Place.forall_mem_iff h.lt_count]
    apply forall₂_congr
    intro p _
    exact Place.forall_mem_iff h.lt_count
  rw [← hpairs]
  refine ⟨?_, ?_⟩
  · rintro (rfl | ⟨-, hsame⟩)
    · intro i hi
      exact absurd hi List.not_mem_nil
    · exact hsame
  · intro hsame
    exact .inr ⟨h.occupied, hsame⟩

/-- They look different exactly if every two different places do. -/
theorem Lists.differOn_iff {α : Type} {look : Symbol → α} (h : b.Lists cells) : b.DifferOn look cells ↔
    ∀ p ∈ Place.ofCells cells, ∀ q ∈ Place.ofCells cells, p ≠ q →
      (b.symbolAt p).map look ≠ (b.symbolAt q).map look := by
  refine ⟨?_, ?_⟩
  · intro hdiffer p hp q hq hne heq
    obtain ⟨m, hm⟩ := List.mem_iff_getElem?.mp hp
    obtain ⟨n, hn⟩ := List.mem_iff_getElem?.mp hq
    have hmn : m ≠ n := by
      rintro rfl
      exact hne (Place.cell_injective (Option.some.inj (hm.symm.trans hn)))
    obtain ⟨s, hs⟩ := h.occupiedAt p hp
    obtain ⟨t, ht⟩ := h.occupiedAt q hq
    rw [hs, ht] at heq
    exact hdiffer m n _ _ hmn hm hn s t hs ht (Option.some.inj heq)
  · intro hdiffer m n i j hmn hm hn s t hs ht heq
    have hi := List.mem_of_getElem? hm
    have hj := List.mem_of_getElem? hn
    have hicell := Place.cell_ofCell (h.lt_count i hi)
    have hjcell := Place.cell_ofCell (h.lt_count j hj)
    refine hdiffer (Place.ofCell i) (Place.ofCell_mem_ofCells hi (h.lt_count i hi)) (Place.ofCell j)
      (Place.ofCell_mem_ofCells hj (h.lt_count j hj)) ?_ ?_
    · -- no cell is listed twice, so different entries are different places
      intro hplace
      have hij : i = j := by rw [← hicell, hplace, hjcell]
      obtain ⟨hlt, -⟩ := List.getElem?_eq_some_iff.mp hm
      exact hmn ((List.getElem?_inj hlt h.nodup).mp (hm.trans (hij ▸ hn.symm)))
    · rw [symbolAt, symbolAt, hicell, hjcell, hs, ht, Option.map_some, Option.map_some, heq]

/-- Two occupied places hold one symbol exactly if they share color and shape. -/
theorem symbolAt_eq_iff {p q : Place} :
    b.symbolAt p = b.symbolAt q ↔ b.colorAt p = b.colorAt q ∧ b.shapeAt p = b.shapeAt q := by
  rw [colorAt, colorAt, shapeAt, shapeAt]
  cases b.symbolAt p with
  | none => cases b.symbolAt q <;> simp
  | some s =>
    cases b.symbolAt q with
    | none => simp
    | some t =>
      cases s
      cases t
      simp

end Board

/-- A group is judged as its class reads. -/
theorem GroupPredKind.trueOn_iff {b : Board} {cells : List Nat} (kind : GroupPredKind)
    (h : b.Lists cells) : b.satisfies cells kind = true ↔ kind.TrueOn b (Place.ofCells cells) := by
  cases kind with
  | sameColor => exact Board.sameColor_iff_sameOn.trans h.sameOn_iff
  | differentColors => exact (Board.satisfies_iff_compares .differentColors).trans h.differOn_iff
  | sameShape => exact Board.sameShape_iff_sameOn.trans h.sameOn_iff
  | differentShapes => exact (Board.satisfies_iff_compares .differentShapes).trans h.differOn_iff
  | sameColorOrShape =>
    exact (Board.satisfies_iff_compares .sameColorOrShape).trans (or_congr h.sameOn_iff h.sameOn_iff)
  | identical =>
    rw [Board.satisfies_iff_compares, Compares, ← Board.sameOn_color_and_shape_iff, h.sameOn_iff, h.sameOn_iff]
    simp only [TrueOn, Board.symbolAt_eq_iff, forall_and]
    rfl
  | connected => exact Place.connected_iff_linked h.lt_count

/-- A rule over groups quantifies over the classes that are not empty. -/
theorem RuleKind.judge_everyGroup {b : Board} {group pred : Meaning} {C P : Set Place → Prop}
    (hlists : ∀ cells ∈ group.groups, b.Lists cells)
    (hgroup : ∀ S, C S ↔ ∃ cells ∈ group.groups, Place.ofCells cells = S)
    (hpred : ∀ cells, b.Lists cells → (pred.holdsOn cells = true ↔ P (Place.ofCells cells))) :
    RuleKind.everyGroup.judge [group, pred] = true ↔ ∀ S, C S → S.Nonempty → P S := by
  have hnonempty : ∀ cells ∈ group.groups, ((Place.ofCells cells).Nonempty ↔ cells ≠ []) :=
    fun cells hcells => Place.ofCells_nonempty_iff (hlists cells hcells).lt_count
  rw [judge, List.all_eq_true]
  refine ⟨?_, ?_⟩
  · intro hall S hS hne
    obtain ⟨cells, hcells, rfl⟩ := (hgroup S).mp hS
    have hone := hall cells hcells
    rw [Bool.or_eq_true, List.isEmpty_iff, or_iff_right ((hnonempty cells hcells).mp hne)] at hone
    exact (hpred cells (hlists cells hcells)).mp hone
  · intro hall cells hcells
    rw [Bool.or_eq_true, List.isEmpty_iff, or_iff_not_imp_left]
    intro hne
    have hclass : C (Place.ofCells cells) := (hgroup _).mpr ⟨cells, hcells, rfl⟩
    exact (hpred cells (hlists cells hcells)).mpr (hall _ hclass ((hnonempty cells hcells).mpr hne))

end HiddenRule
