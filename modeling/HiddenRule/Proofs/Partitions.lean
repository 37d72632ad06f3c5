import HiddenRule.Proofs.Classes
import HiddenRule.Proofs.Symmetry
import HiddenRule.Skeleton.Standard
import Mathlib.Data.List.Lattice

/-
  Groups as partitions. All kinds of groups but one sort the occupied cells by
  something that each of them has exactly one of: the whole board, a row, a
  column, a color, a shape, or a symbol. The board does not compute them so:
  it picks the occupied cells from fixed lists, or goes through the colors
  within the shapes. Pairs of neighbors come from a table.

  What is proved:
    1. `partitioned_of_keyed`: cells sorted by what each has exactly one of are
       partitioned.
    2. `exists_keyed`: the groups of every kind but that of the pairs are cells
       sorted so.
    3. `cellsOfSymbol_eq_inter`, `mem_groups_adjacentPairs`: the cells of a
       symbol, and the pairs of neighbors.
    4. `groups_partition_occupied`: all of it, for every board.
-/

namespace HiddenRule

namespace Board

variable {b : Board}

/-- Whether groups partition the occupied cells: they list them in order, each
cell once, and together they have as many as there are. -/
structure Partitioned (b : Board) (gs : List (List Nat)) : Prop where
  increasing : ∀ cells ∈ gs, cells.Pairwise (· < ·)
  occupied : ∀ cells ∈ gs, ∀ i ∈ cells, b.isOccupied i = true
  flatten_perm : gs.flatten.Perm b.occupied
  /-- An occupied cell is in one group, and any other number in none. -/
  count_eq : ∀ i, gs.countP (fun cells => decide (i ∈ cells)) = if b.isOccupied i then 1 else 0

/-- Whether two cells are in one group of a kind. -/
def Together (b : Board) (kind : GroupKind) (i j : Nat) : Prop :=
  ∃ cells ∈ b.groups kind, i ∈ cells ∧ j ∈ cells

/-! ## Sorting cells -/

/-- Whether every occupied cell has exactly one of the listed values. -/
structure Keyed {α : Type} (b : Board) (values : List α) (has : Nat → α → Bool) : Prop where
  nodup : values.Nodup
  exists_has : ∀ i, b.isOccupied i = true → ∃ a ∈ values, has i a = true
  eq_of_has : ∀ {i a a'}, has i a = true → has i a' = true → a = a'

theorem occupied_pairwise_lt (b : Board) : b.occupied.Pairwise (· < ·) := List.pairwise_lt_range.filter _

theorem mem_occupied {i : Nat} : i ∈ b.occupied ↔ b.isOccupied i = true := by
  rw [Board.occupied, List.mem_filter, Cell.mem_all]
  exact and_iff_right_of_imp lt_of_isOccupied

section
variable {α : Type} {values : List α} {has : Nat → α → Bool}

/-- An occupied cell has one of the values, and so is in the group of one. -/
theorem Keyed.countP_eq_one (h : b.Keyed values has) {i : Nat} (hi : b.isOccupied i = true) :
    values.countP (has i) = 1 := by
  obtain ⟨a, ha, hhas⟩ := h.exists_has i hi
  classical
  have honly : ∀ c ∈ values, has i c = true ↔ (c == a) = true := by
    intro c _
    rw [beq_iff_eq]
    refine ⟨fun hc => h.eq_of_has hc hhas, ?_⟩
    rintro rfl
    exact hhas
  rw [List.countP_congr honly]
  exact List.count_eq_one_of_mem h.nodup ha

/-- Cells sorted by what each has exactly one of are partitioned. -/
theorem partitioned_of_keyed (h : b.Keyed values has) :
    b.Partitioned (values.map fun a => b.occupied.filter fun i => has i a) where
  increasing := by
    intro cells hcells
    obtain ⟨a, -, rfl⟩ := List.mem_map.mp hcells
    exact b.occupied_pairwise_lt.filter _
  occupied := by
    intro cells hcells i hi
    obtain ⟨a, -, rfl⟩ := List.mem_map.mp hcells
    exact mem_occupied.mp (List.mem_filter.mp hi).1
  flatten_perm := by
    have hnodup : b.occupied.Nodup := lists_occupied.nodup
    -- a cell in two of the groups would have two values
    have hdisjoint : (values.map fun a => b.occupied.filter fun i => has i a).Pairwise List.Disjoint := by
      refine List.pairwise_map.mpr (h.nodup.imp ?_)
      intro a a' hne i hi hi'
      exact hne (h.eq_of_has (List.mem_filter.mp hi).2 (List.mem_filter.mp hi').2)
    have hflatten : (values.map fun a => b.occupied.filter fun i => has i a).flatten.Nodup := by
      refine List.nodup_flatten.mpr ⟨?_, hdisjoint⟩
      intro cells hcells
      obtain ⟨a, -, rfl⟩ := List.mem_map.mp hcells
      exact hnodup.filter _
    rw [List.perm_ext_iff_of_nodup hflatten hnodup]
    intro i
    simp only [List.mem_flatten, List.mem_map, exists_exists_and_eq_and, List.mem_filter]
    refine ⟨fun ⟨_, _, hi, _⟩ => hi, ?_⟩
    intro hi
    obtain ⟨a, ha, hhas⟩ := h.exists_has i (mem_occupied.mp hi)
    exact ⟨a, ha, hi, hhas⟩
  count_eq := by
    intro i
    rw [List.countP_map]
    split
    · next hi =>
      rw [← h.countP_eq_one hi]
      apply List.countP_congr
      intro a _
      simp [mem_occupied, hi]
    · next hi => simp [List.countP_eq_zero, mem_occupied, hi]

end

/-! ## What the groups are sorted by -/

/-- A symbol has exactly one color, one shape, and is one symbol. -/
theorem keyed_of_look {α : Type} [DecidableEq α] {values : List α} (hnodup : values.Nodup)
    (hall : ∀ a, a ∈ values) (look : Symbol → α) :
    b.Keyed values fun i a => (b.get i).any fun s => look s == a where
  nodup := hnodup
  exists_has := by
    intro i hi
    obtain ⟨s, hs⟩ := Option.isSome_iff_exists.mp hi
    exact ⟨look s, hall _, by simp [hs]⟩
  eq_of_has := by
    intro i a a' ha ha'
    cases hs : b.get i with
    | none => simp [hs] at ha
    | some s =>
      simp only [hs, Option.any_some, beq_iff_eq] at ha ha'
      exact ha.symm.trans ha'

/-- A cell of the board lies in exactly one line of a direction. -/
theorem keyed_of_line {line : Nat → Nat} (hline : ∀ i < Cell.count, line i ∈ Cell.lines) :
    b.Keyed Cell.lines fun i r => line i == r where
  nodup := by decide
  exists_has := by
    intro i hi
    exact ⟨line i, hline i (lt_of_isOccupied hi), beq_self_eq_true _⟩
  eq_of_has := by
    intro i r r' hr hr'
    rw [beq_iff_eq] at hr hr'
    exact hr.symm.trans hr'

/-- The occupied cells among those of a line are the occupied cells that lie in
it. -/
theorem occupiedAmong_eq_filter (b : Board) {cells : List Nat} {f : Nat → Bool}
    (hcells : Cell.all.filter f = cells) : b.occupiedAmong cells = b.occupied.filter f := by
  rw [occupiedAmong, ← hcells, Board.occupied, List.filter_comm]

/-- Going through the colors within the shapes is going through the symbols. -/
theorem groups_identical (b : Board) : b.groups .identical = Symbol.all.map b.cellsOfSymbol := rfl

/-- The groups of every kind but that of the pairs are cells sorted by what each
has exactly one of. -/
theorem exists_keyed (b : Board) {kind : GroupKind} (hkind : kind ≠ .adjacentPairs) :
    ∃ (α : Type) (values : List α) (has : Nat → α → Bool), b.Keyed values has ∧
      b.groups kind = values.map fun a => b.occupied.filter fun i => has i a := by
  cases kind with
  | allSymbols =>
    refine ⟨Unit, [()], fun _ _ => true, ⟨by decide, fun _ _ => ⟨(), by decide⟩, fun _ _ => rfl⟩, ?_⟩
    simp [groups]
  | rows =>
    have hline : ∀ i < Cell.count, Cell.row i ∈ Cell.lines := by decide
    have hcells : ∀ r ∈ Cell.lines, Cell.all.filter (fun i => Cell.row i == r) = Cell.inRow r := by decide
    exact ⟨Nat, _, _, keyed_of_line hline,
      List.map_congr_left fun r hr => b.occupiedAmong_eq_filter (hcells r hr)⟩
  | columns =>
    have hline : ∀ i < Cell.count, Cell.column i ∈ Cell.lines := by decide
    have hcells : ∀ c ∈ Cell.lines, Cell.all.filter (fun i => Cell.column i == c) = Cell.inColumn c := by decide
    exact ⟨Nat, _, _, keyed_of_line hline,
      List.map_congr_left fun c hc => b.occupiedAmong_eq_filter (hcells c hc)⟩
  | sameColor => exact ⟨Color, _, _, keyed_of_look (by decide) Color.mem_all Symbol.color, rfl⟩
  | sameShape => exact ⟨Shape, _, _, keyed_of_look (by decide) Shape.mem_all Symbol.shape, rfl⟩
  | identical => exact ⟨Symbol, _, _, keyed_of_look (by decide) Symbol.mem_all id, b.groups_identical_eq⟩
  | adjacentPairs => contradiction

theorem partitioned_groups (b : Board) {kind : GroupKind} (hkind : kind ≠ .adjacentPairs) :
    b.Partitioned (b.groups kind) := by
  obtain ⟨α, values, has, hkeyed, hgroups⟩ := b.exists_keyed hkind
  rw [hgroups]
  exact partitioned_of_keyed hkeyed

/-! ## Identical symbols -/

/-- The cells of a symbol are those of its shape that are also of its color. -/
theorem cellsOfSymbol_eq_inter (b : Board) (s : Symbol) :
    b.cellsOfSymbol s = b.cellsOfShape s.shape ∩ b.cellsOfColor s.color := by
  show _ = (b.cellsOfShape s.shape).filter fun i => (b.cellsOfColor s.color).elem i
  rw [cellsOfSymbol, cellsOfShape, List.filter_filter]
  apply List.filter_congr
  intro i hi
  rw [Bool.and_comm]
  congr 1
  rw [Bool.eq_iff_iff, List.elem_iff, cellsOfColor, List.mem_filter]
  exact (and_iff_right hi).symm

theorem together_identical_iff {i j : Nat} :
    b.Together .identical i j ↔ b.Together .sameColor i j ∧ b.Together .sameShape i j := by
  have hcells : ∀ (s : Symbol) k, k ∈ b.cellsOfSymbol s ↔
      k ∈ b.cellsOfShape s.shape ∧ k ∈ b.cellsOfColor s.color := by
    intro s k
    rw [cellsOfSymbol_eq_inter, List.mem_inter_iff]
  refine ⟨?_, ?_⟩
  · intro h
    obtain ⟨cells, hmem, hi, hj⟩ := h
    rw [groups_identical] at hmem
    obtain ⟨s, -, rfl⟩ := List.mem_map.mp hmem
    obtain ⟨hishape, hicolor⟩ := (hcells s i).mp hi
    obtain ⟨hjshape, hjcolor⟩ := (hcells s j).mp hj
    exact ⟨⟨_, List.mem_map_of_mem (Color.mem_all s.color), hicolor, hjcolor⟩,
      ⟨_, List.mem_map_of_mem (Shape.mem_all s.shape), hishape, hjshape⟩⟩
  · intro h
    obtain ⟨⟨colored, hcolored, hicolor, hjcolor⟩, ⟨shaped, hshaped, hishape, hjshape⟩⟩ := h
    obtain ⟨c, -, rfl⟩ := List.mem_map.mp hcolored
    obtain ⟨s, -, rfl⟩ := List.mem_map.mp hshaped
    refine ⟨b.cellsOfSymbol ⟨c, s⟩, ?_, (hcells ⟨c, s⟩ i).mpr ⟨hishape, hicolor⟩,
      (hcells ⟨c, s⟩ j).mpr ⟨hjshape, hjcolor⟩⟩
    rw [groups_identical]
    exact List.mem_map_of_mem (Symbol.mem_all _)

/-- The groups of identical symbols go through the colors within the shapes. -/
theorem groups_identical_getElem? (b : Board) : ∀ v < 9, ∃ shapes ∈ (b.groups .sameShape)[v / 3]?,
    ∃ colors ∈ (b.groups .sameColor)[v % 3]?, (b.groups .identical)[v]? = some (shapes ∩ colors) := by
  have hplaces : ∀ v < 9, ∃ s ∈ Symbol.all[v]?,
      s.shape ∈ Shape.all[v / 3]? ∧ s.color ∈ Color.all[v % 3]? := by
    decide
  intro v hv
  obtain ⟨s, hs, hshape, hcolor⟩ := hplaces v hv
  refine ⟨b.cellsOfShape s.shape, ?_, b.cellsOfColor s.color, ?_, ?_⟩
  · rw [groups, List.getElem?_map, Option.mem_def.mp hshape]
    rfl
  · rw [groups, List.getElem?_map, Option.mem_def.mp hcolor]
    rfl
  · rw [groups_identical, List.getElem?_map, Option.mem_def.mp hs, ← cellsOfSymbol_eq_inter]
    rfl

/-! ## Pairs of neighbors -/

theorem nodup_groups_adjacentPairs (b : Board) : (b.groups .adjacentPairs).Nodup := by
  have htable : Cell.adjacentPairs.Nodup := by decide
  refine (htable.filter _).map ?_
  intro pair pair' heq
  simp only [List.cons.injEq, and_true] at heq
  exact Prod.ext heq.1 heq.2

/-- The pairs are those of occupied neighbors, the smaller cell first. -/
theorem mem_groups_adjacentPairs {cells : List Nat} :
    cells ∈ b.groups .adjacentPairs ↔ ∃ i j, cells = [i, j] ∧ i < j ∧ b.isOccupied i = true ∧
      b.isOccupied j = true ∧ j ∈ Cell.neighbors i ∧ i ∈ Cell.neighbors j := by
  have htable : ∀ pair ∈ Cell.adjacentPairs, pair.1 < pair.2 ∧ pair.2 ∈ Cell.neighbors pair.1 ∧
      pair.1 ∈ Cell.neighbors pair.2 := by decide
  simp only [groups, List.mem_map, List.mem_filter, Bool.and_eq_true]
  refine ⟨?_, ?_⟩
  · intro h
    obtain ⟨⟨i, j⟩, ⟨hpair, hi, hj⟩, rfl⟩ := h
    obtain ⟨hlt, hright, hleft⟩ := htable _ hpair
    exact ⟨i, j, rfl, hlt, hi, hj, hright, hleft⟩
  · intro h
    obtain ⟨i, j, rfl, hlt, hi, hj, hright, -⟩ := h
    have hadjacent : Cell.adjacent i j = true := List.contains_iff_mem.mpr hright
    rw [Cell.adjacent_iff_mem_adjacentPairs i (lt_of_isOccupied hi) j (lt_of_isOccupied hj)] at hadjacent
    -- the table has the two in one order only
    rcases hadjacent with hpair | hpair
    · exact ⟨(i, j), ⟨hpair, hi, hj⟩, rfl⟩
    · have hgt := (htable _ hpair).1
      omega

end Board

/-- A group of a kind picks the groups of the kind. -/
theorem Fragment.groups_eq {f : Fragment} {kind : GroupKind} (h : f.kind = some (.group kind)) (b : Board) :
    f.groups b = b.groups kind := by
  cases f with
  | node l parts =>
    have hkind : l.kind = some (.group kind) := h
    rw [Fragment.groups, meaning, hkind]
    rfl

/-- **Groups lose nothing and duplicate nothing.** On every board, the groups of
every kind but that of the pairs partition the occupied cells. Two cells are
together in a group of identical symbols exactly if they are together in one of
a color and in one of a shape; of the nine groups of identical symbols, each is
what a group of a shape and a group of a color have in common. The pairs are
those of occupied neighbors, each pair once, with the smaller cell first. -/
theorem Board.groups_partition_occupied (b : Board) :
    (∀ (f : Fragment) kind, f.kind = some (.group kind) → f.groups b = b.groups kind) ∧
    (∀ kind, kind ≠ .adjacentPairs → b.Partitioned (b.groups kind)) ∧
    (∀ i j, b.Together .identical i j ↔ b.Together .sameColor i j ∧ b.Together .sameShape i j) ∧
    ((b.groups .identical).length = 9 ∧ ∀ v < 9, ∃ shapes ∈ (b.groups .sameShape)[v / 3]?,
      ∃ colors ∈ (b.groups .sameColor)[v % 3]?, (b.groups .identical)[v]? = some (shapes ∩ colors)) ∧
    (b.groups .adjacentPairs).Nodup ∧
    ∀ cells, cells ∈ b.groups .adjacentPairs ↔ ∃ i j, cells = [i, j] ∧ i < j ∧ b.isOccupied i = true ∧
      b.isOccupied j = true ∧ j ∈ Cell.neighbors i ∧ i ∈ Cell.neighbors j := by
  refine ⟨?_, ?_, ?_, ⟨rfl, b.groups_identical_getElem?⟩, b.nodup_groups_adjacentPairs, ?_⟩
  · intro f kind h
    exact Fragment.groups_eq h b
  · intro kind hkind
    exact b.partitioned_groups hkind
  · intro i j
    exact together_identical_iff
  · intro cells
    exact mem_groups_adjacentPairs

/-- Two red circles in opposite corners, with a red square beside the one and a
blue circle beside the other. -/
def Board.cornerCircles : Board :=
  .ofCells [some ⟨.red, .circle⟩, some ⟨.red, .square⟩, none, none, none, some ⟨.blue, .circle⟩, none, none,
    some ⟨.red, .circle⟩]

/-- The corners are one group of identical symbols, and the last of them has a
neighbor. -/
theorem Board.corner_circles_partitioned :
    ∃ f, Fragment.build Grammar.standard (.group 5) = .ok f ∧
      f.groups cornerCircles = cornerCircles.groups .identical ∧
      cornerCircles.Partitioned (cornerCircles.groups .identical) ∧
      cornerCircles.Together .identical 0 8 ∧ ¬cornerCircles.Together .identical 0 5 ∧
      (∃ shapes ∈ (cornerCircles.groups .sameShape)[0]?, ∃ colors ∈ (cornerCircles.groups .sameColor)[2]?,
        (cornerCircles.groups .identical)[2]? = some (shapes ∩ colors)) ∧
      [5, 8] ∈ cornerCircles.groups .adjacentPairs ∧ [2, 5] ∉ cornerCircles.groups .adjacentPairs := by
  obtain ⟨f, hbuild, hkind⟩ : ∃ f, Fragment.build Grammar.standard (.group 5) = .ok f ∧
      f.kind = some (.group .identical) := ⟨_, rfl, rfl⟩
  obtain ⟨hgroups, hpartitioned, htogether, ⟨-, hcommon⟩, -, hpairs⟩ := cornerCircles.groups_partition_occupied
  refine ⟨f, hbuild, hgroups f .identical hkind, hpartitioned .identical (by decide), ?_, ?_,
    hcommon 2 (by decide), ?_, ?_⟩
  · exact (htogether 0 8).mpr ⟨⟨[0, 1, 8], by decide, by decide, by decide⟩,
      ⟨[0, 5, 8], by decide, by decide, by decide⟩⟩
  · intro h
    obtain ⟨⟨cells, hcells, h0, h5⟩, -⟩ := (htogether 0 5).mp h
    have hcolors : ∀ cells ∈ cornerCircles.groups .sameColor, 0 ∈ cells → 5 ∉ cells := by decide
    exact hcolors cells hcells h0 h5
  · exact (hpairs [5, 8]).mpr ⟨5, 8, rfl, by decide, by decide, by decide, by decide, by decide⟩
  · intro h
    obtain ⟨i, j, hij, -, hi, -⟩ := (hpairs [2, 5]).mp h
    cases hij
    exact absurd hi (by decide)

end HiddenRule
