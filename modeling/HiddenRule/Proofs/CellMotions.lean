import HiddenRule.Proofs.CellClusters
import Mathlib.Data.List.Forall2
import Mathlib.Data.List.Nodup
import Mathlib.Data.List.Perm.Basic

/-
  Motions of the cells. A motion takes every cell to one, along edges where
  there are edges, and is undone by repeating it. Two lists of cells correspond
  if one is the motion of the other in any order, and two lists of groups if
  their groups do, in any order.

  What is proved:
    1. `Carried.all_eq`, `Carried.any_eq`, `Carried.countP_eq`: tests of
       corresponding lists agree where the tests of cells do.
    2. `Translates.sameOf_eq`, `Translates.differentOf_eq`,
       `Translates.regrouped`: so do comparisons by what the cells hold, and the
       classes of cells that hold the same.
    3. `connected_eq`: clusters go to clusters.
-/

namespace HiddenRule

/-! ## Lists of cells -/

/-- Whether a list has the cells that another one has after a motion, in any
order. -/
def Carried (t : Nat → Nat) (cells cells' : List Nat) : Prop := cells'.Perm (cells.map t)

instance (t : Nat → Nat) (cells cells' : List Nat) : Decidable (Carried t cells cells') :=
  inferInstanceAs (Decidable (cells'.Perm (cells.map t)))

/-- Whether the groups of a list are those of another one after a motion, in
any order. -/
def Regrouped (t : Nat → Nat) : List (List Nat) → List (List Nat) → Prop :=
  Relation.Comp (List.Forall₂ (Carried t)) List.Perm

variable {t : Nat → Nat}

namespace Carried

variable {cells cells' : List Nat} {f f' : Nat → Bool}

theorem perm (h : Carried t cells cells') : cells'.Perm (cells.map t) := h

theorem all_eq (h : Carried t cells cells') (hf : ∀ i, f' (t i) = f i) : cells'.all f' = cells.all f := by
  have hcomp : f' ∘ t = f := funext hf
  rw [h.perm.all_eq, List.all_map, hcomp]

theorem any_eq (h : Carried t cells cells') (hf : ∀ i, f' (t i) = f i) : cells'.any f' = cells.any f := by
  have hcomp : f' ∘ t = f := funext hf
  rw [h.perm.any_eq, List.any_map, hcomp]

theorem countP_eq (h : Carried t cells cells') (hf : ∀ i, f' (t i) = f i) :
    cells'.countP f' = cells.countP f := by
  have hcomp : f' ∘ t = f := funext hf
  rw [h.perm.countP_eq, List.countP_map, hcomp]

theorem isEmpty_eq (h : Carried t cells cells') : cells'.isEmpty = cells.isEmpty := by
  rw [h.perm.isEmpty_eq, List.isEmpty_map]

theorem filter (h : Carried t cells cells') (hf : ∀ i, f' (t i) = f i) :
    Carried t (cells.filter f) (cells'.filter f') := by
  have hcomp : f' ∘ t = f := funext hf
  have hfilter := h.perm.filter f'
  rwa [List.filter_map, hcomp] at hfilter

theorem mem_of_mem (h : Carried t cells cells') {i : Nat} (hi : i ∈ cells) : t i ∈ cells' :=
  h.perm.mem_iff.mpr (List.mem_map_of_mem hi)

end Carried

/-! ## Lists of groups -/

namespace Regrouped

variable {gs gs' : List (List Nat)} {f f' : List Nat → Bool}

theorem all_eq (h : Regrouped t gs gs') (hf : ∀ cells cells', Carried t cells cells' → f' cells' = f cells) :
    gs'.all f' = gs.all f := by
  obtain ⟨mid, hmid, hperm⟩ := h
  rw [← hperm.all_eq]
  induction hmid generalizing gs' with
  | nil => rfl
  | cons hfirst _ ih => rw [List.all_cons, List.all_cons, hf _ _ hfirst, ih (List.Perm.refl _)]

theorem any_eq (h : Regrouped t gs gs') (hf : ∀ cells cells', Carried t cells cells' → f' cells' = f cells) :
    gs'.any f' = gs.any f := by
  have hall : gs'.all (fun cells => !f' cells) = gs.all fun cells => !f cells :=
    h.all_eq fun cells cells' hcells => congrArg not (hf cells cells' hcells)
  rw [List.any_eq_not_all_not, hall, ← List.any_eq_not_all_not]

theorem filter (h : Regrouped t gs gs') (hf : ∀ cells cells', Carried t cells cells' → f' cells' = f cells) :
    Regrouped t (gs.filter f) (gs'.filter f') := by
  obtain ⟨mid, hmid, hperm⟩ := h
  refine ⟨mid.filter f', ?_, hperm.filter f'⟩
  apply List.rel_filter _ hmid
  intro cells cells' hcells
  simp only [hf cells cells' hcells]

theorem map {k k' : List Nat → List Nat} (h : Regrouped t gs gs')
    (hk : ∀ cells cells', Carried t cells cells' → Carried t (k cells) (k' cells')) :
    Regrouped t (gs.map k) (gs'.map k') := by
  obtain ⟨mid, hmid, hperm⟩ := h
  refine ⟨mid.map k', ?_, hperm.map k'⟩
  exact List.rel_map (fun cells cells' hcells => hk cells cells' hcells) hmid

end Regrouped

/-- Groups listed along values correspond if the values do, in any order, and
the groups of each value do. -/
theorem regrouped_map {α β : Type} {values : List α} {values' : List β} {p : α → β}
    {k : α → List Nat} {k' : β → List Nat} (hvalues : (values.map p).Perm values')
    (hk : ∀ a, Carried t (k a) (k' (p a))) : Regrouped t (values.map k) (values'.map k') := by
  refine ⟨(values.map p).map k', ?_, hvalues.map k'⟩
  rw [List.map_map, List.forall₂_map_left_iff, List.forall₂_map_right_iff, List.forall₂_same]
  intro a _
  exact hk a

theorem carried_id (cells : List Nat) : Carried id cells cells := by
  rw [Carried, List.map_id]

theorem regrouped_id (gs : List (List Nat)) : Regrouped id gs gs :=
  ⟨gs, List.forall₂_same.mpr fun cells _ => carried_id cells, .refl _⟩

/-! ## Tests for a color or a shape -/

/-- Whether two tests of cells agree: one for each of some values, the other
for the values they go to, each on the cell that the first one's goes to. -/
structure Translates {α β : Type} (t : Nat → Nat) (p : α → β) (values : List α) (has : Nat → α → Bool)
    (values' : List β) (has' : Nat → β → Bool) : Prop where
  values_perm : (values.map p).Perm values'
  has_eq : ∀ i a, has' (t i) (p a) = has i a

namespace Translates

variable {α β : Type} {p : α → β} {values : List α} {has : Nat → α → Bool} {values' : List β}
  {has' : Nat → β → Bool} {cells cells' : List Nat}

theorem sameOf_eq (h : Translates t p values has values' has') (hcells : Carried t cells cells') :
    (values'.any fun a => cells'.all fun i => has' i a) = values.any fun a => cells.all fun i => has i a := by
  rw [← h.values_perm.any_eq, List.any_map]
  congr 1
  funext a
  exact hcells.all_eq fun i => h.has_eq i a

theorem differentOf_eq (h : Translates t p values has values' has') (hcells : Carried t cells cells') :
    (values'.all fun a => cells'.countP (fun i => has' i a) ≤ 1) =
      values.all fun a => cells.countP (fun i => has i a) ≤ 1 := by
  rw [← h.values_perm.all_eq, List.all_map]
  congr 1
  funext a
  have hcount : cells'.countP (fun i => has' i (p a)) = cells.countP fun i => has i a :=
    hcells.countP_eq fun i => h.has_eq i a
  simp only [Function.comp, hcount]

/-- A value that may be missing. -/
theorem any_eq (h : Translates t p values has values' has') (o : Option α) (i : Nat) :
    (o.map p).any (has' (t i)) = o.any (has i) := by
  rw [Option.any_map]
  congr 1
  funext a
  exact h.has_eq i a

/-- The classes of cells that share a value. -/
theorem regrouped (h : Translates t p values has values' has') (hcells : Carried t cells cells') :
    Regrouped t (values.map fun a => cells.filter fun i => has i a)
      (values'.map fun a => cells'.filter fun i => has' i a) :=
  regrouped_map h.values_perm fun a => hcells.filter fun i => h.has_eq i a

end Translates

/-! ## Motions -/

/-- A motion of the cells that is undone by repeating it. It stays on the
board, and goes along edges where there are edges. -/
structure Cell.Motion where
  move : Nat → Nat
  move_move : ∀ i, move (move i) = i
  move_lt : ∀ i < Cell.count, move i < Cell.count
  move_neighbors : ∀ i < Cell.count, ∀ j ∈ Cell.neighbors i, move j ∈ Cell.neighbors (move i)

namespace Cell.Motion

variable (m : Cell.Motion) {cells cells' : List Nat}

theorem move_lt_iff (i : Nat) : m.move i < count ↔ i < count := by
  refine ⟨?_, m.move_lt i⟩
  intro h
  have hback := m.move_lt _ h
  rwa [m.move_move] at hback

theorem move_injective {i j : Nat} (h : m.move i = m.move j) : i = j := by
  rw [← m.move_move i, h, m.move_move]

/-- Every cell is where some cell goes. -/
theorem carried_all : Carried m.move all all := by
  have hall : all.Nodup := List.nodup_range
  have hmoved : (all.map m.move).Nodup := hall.map fun _ _ => m.move_injective
  rw [Carried, List.perm_ext_iff_of_nodup hall hmoved]
  intro i
  simp only [List.mem_map, mem_all]
  refine ⟨?_, ?_⟩
  · intro hi
    exact ⟨m.move i, m.move_lt i hi, m.move_move i⟩
  · intro h
    obtain ⟨j, hj, rfl⟩ := h
    exact m.move_lt j hj

theorem any_neighbors_eq {f f' : Nat → Bool} {i : Nat} (hi : i < count) (hf : ∀ j, f' (m.move j) = f j) :
    (neighbors (m.move i)).any f' = (neighbors i).any f := by
  rw [Bool.eq_iff_iff, List.any_eq_true, List.any_eq_true]
  refine ⟨?_, ?_⟩
  · intro h
    obtain ⟨j, hj, htrue⟩ := h
    have hback := m.move_neighbors _ (m.move_lt i hi) j hj
    rw [m.move_move] at hback
    refine ⟨m.move j, hback, ?_⟩
    rw [← hf, m.move_move]
    exact htrue
  · intro h
    obtain ⟨j, hj, htrue⟩ := h
    exact ⟨m.move j, m.move_neighbors i hi j hj, (hf j).trans htrue⟩

theorem adjacent_move {i j : Nat} (hi : i < count) (h : adjacent i j = true) :
    adjacent (m.move i) (m.move j) = true := by
  rw [adjacent, List.contains_iff_mem] at h ⊢
  exact m.move_neighbors i hi j h

theorem connected_of_carried (h : Carried m.move cells cells') (hconnected : connected cells = true) :
    connected cells' = true := by
  rw [connected_iff] at hconnected ⊢
  obtain ⟨hboard, hjoined⟩ := hconnected
  -- a path goes to a path, edge by edge
  have hpath : ∀ {i j : Nat}, Joined cells i j → Joined cells' (m.move i) (m.move j) := by
    intro i j hij
    apply Relation.ReflTransGen.lift m.move _ _ _ hij
    intro k l hstep
    exact ⟨h.mem_of_mem hstep.1, h.mem_of_mem hstep.2.1, m.adjacent_move (hboard k hstep.1) hstep.2.2⟩
  have hfrom : ∀ i ∈ cells', ∃ j ∈ cells, m.move j = i := fun i hi => List.mem_map.mp (h.perm.mem_iff.mp hi)
  refine ⟨?_, ?_⟩
  · intro i hi
    obtain ⟨j, hj, rfl⟩ := hfrom i hi
    exact m.move_lt j (hboard j hj)
  · intro i hi k hk
    obtain ⟨j, hj, rfl⟩ := hfrom i hi
    obtain ⟨l, hl, rfl⟩ := hfrom k hk
    exact hpath (hjoined j hj l hl)

theorem carried_symm (h : Carried m.move cells cells') : Carried m.move cells' cells := by
  have hback := h.perm.map m.move
  have hid : m.move ∘ m.move = id := funext m.move_move
  rw [List.map_map, hid, List.map_id] at hback
  exact hback.symm

theorem connected_eq (h : Carried m.move cells cells') : connected cells' = connected cells := by
  rw [Bool.eq_iff_iff]
  exact ⟨m.connected_of_carried (m.carried_symm h), m.connected_of_carried h⟩

end Cell.Motion

end HiddenRule
