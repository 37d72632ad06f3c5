import HiddenRule.Proofs.DrawValues
import HiddenRule.Sampling.Fill

/-
  Which boards can be drawn. The cells are asked one by one whether they are
  among those still to be filled; wherever the answers fall, the cells left are
  at least as many as the symbols left, so every arrangement comes up.

  What is proved:
    1. `yields_drawContents`: the contents that a draw yields are exactly those
       with the number of cells and of symbols asked for.
    2. `yields_drawIn`: a draw from a range yields exactly the boards with a
       number of symbols within the clamped range.
-/

namespace HiddenRule

theorem Draw.yields_between {lo hi v : Nat} (h : lo ≤ hi) : (between lo hi).Yields v ↔ lo ≤ v ∧ v ≤ hi := by
  rw [between, yields_bind]
  refine ⟨?_, ?_⟩
  · intro hv
    obtain ⟨k, hk, rfl⟩ := hv
    rw [yields_lessThan (by omega)] at hk
    omega
  · intro hv
    exact ⟨v - lo, (yields_lessThan (by omega)).mpr (by omega), by show lo + (v - lo) = v; omega⟩

/-- Every symbol can be drawn. -/
theorem Symbol.yields_draw (s : Symbol) : draw.Yields s := by
  have hcolor : (Draw.lessThan Color.all.length).Yields s.color.index := by
    rw [Draw.yields_lessThan (by decide)]
    cases s.color <;> decide
  have hshape : (Draw.lessThan Shape.all.length).Yields s.shape.index := by
    rw [Draw.yields_lessThan (by decide)]
    cases s.shape <;> decide
  simp only [draw, Draw.yields_bind]
  refine ⟨_, hcolor, _, hshape, ?_⟩
  obtain ⟨c, t⟩ := s
  cases c <;> cases t <;> rfl

namespace Board

theorem drawContents_zero (cells : Nat) : drawContents cells 0 = .done (List.replicate cells none) := by
  rw [drawContents]
  rfl

/-- Without symbols, all cells stay empty. -/
theorem yields_drawContents_zero {cells : Nat} {contents : List (Option Symbol)} :
    (drawContents cells 0).Yields contents ↔
      contents.length = cells ∧ contents.countP Option.isSome = 0 := by
  rw [drawContents_zero, Draw.yields_done, eq_comm, List.eq_replicate_iff, List.countP_eq_zero]
  simp only [Option.not_isSome_iff_eq_none]

/-- One cell is filled or left empty; empty only if there are cells enough for
the symbols left. -/
theorem yields_drawContents_succ {cells symbols : Nat} {content : Option Symbol}
    {rest : List (Option Symbol)} (h : symbols ≤ cells) :
    (drawContents (cells + 1) (symbols + 1)).Yields (content :: rest) ↔
      (content.isSome = true ∧ (drawContents cells symbols).Yields rest) ∨
        (content = none ∧ symbols + 1 ≤ cells ∧ (drawContents cells (symbols + 1)).Yields rest) := by
  rw [drawContents]
  simp only [Draw.yields_bind, Draw.yields_lessThan (Nat.succ_pos cells)]
  refine ⟨?_, ?_⟩
  · intro hyields
    -- the cell is filled if its number falls among those of the symbols left
    obtain ⟨place, hplace, hyields⟩ := hyields
    split at hyields
    · simp only [Draw.yields_bind, Draw.pure_eq_done, Draw.yields_done] at hyields
      obtain ⟨s, -, others, hothers, heq⟩ := hyields
      cases heq
      exact .inl ⟨rfl, hothers⟩
    · simp only [Draw.yields_bind, Draw.pure_eq_done, Draw.yields_done] at hyields
      obtain ⟨others, hothers, heq⟩ := hyields
      cases heq
      exact .inr ⟨rfl, by omega, hothers⟩
  · intro hcases
    rcases hcases with ⟨hsome, hrest⟩ | ⟨rfl, hroom, hrest⟩
    · obtain ⟨s, rfl⟩ := Option.isSome_iff_exists.mp hsome
      refine ⟨0, Nat.succ_pos cells, ?_⟩
      simp only [Nat.succ_pos, if_true, Draw.yields_bind]
      exact ⟨s, s.yields_draw, rest, hrest, rfl⟩
    · refine ⟨symbols + 1, by omega, ?_⟩
      simp only [Nat.lt_irrefl, if_false, Draw.yields_bind]
      exact ⟨rest, hrest, rfl⟩

/-- A cell comes before the others. -/
theorem exists_of_yields_drawContents_succ {cells symbols : Nat} {contents : List (Option Symbol)}
    (h : (drawContents (cells + 1) (symbols + 1)).Yields contents) :
    ∃ content rest, contents = content :: rest := by
  rw [drawContents] at h
  simp only [Draw.yields_bind] at h
  obtain ⟨place, -, h⟩ := h
  split at h
  · simp only [Draw.yields_bind, Draw.pure_eq_done, Draw.yields_done] at h
    obtain ⟨s, -, others, -, heq⟩ := h
    exact ⟨some s, others, heq.symm⟩
  · simp only [Draw.yields_bind, Draw.pure_eq_done, Draw.yields_done] at h
    obtain ⟨others, -, heq⟩ := h
    exact ⟨none, others, heq.symm⟩

/-- The contents that a draw yields are exactly those with the number of cells
and of symbols asked for. -/
theorem yields_drawContents {cells symbols : Nat} {contents : List (Option Symbol)} (h : symbols ≤ cells) :
    (drawContents cells symbols).Yields contents ↔
      contents.length = cells ∧ contents.countP Option.isSome = symbols := by
  induction cells generalizing symbols contents with
  | zero =>
    have hzero : symbols = 0 := by omega
    subst hzero
    exact yields_drawContents_zero
  | succ cells ih =>
    cases symbols with
    | zero => exact yields_drawContents_zero
    | succ symbols =>
      cases contents with
      | nil =>
        refine ⟨?_, ?_⟩
        · intro hyields
          obtain ⟨content, rest, hcons⟩ := exists_of_yields_drawContents_succ hyields
          contradiction
        · intro hcounts
          obtain ⟨hlength, -⟩ := hcounts
          contradiction
      | cons content rest =>
        rw [yields_drawContents_succ (by omega), List.length_cons, List.countP_cons]
        have hcount : rest.countP Option.isSome ≤ rest.length := List.countP_le_length
        cases content with
        | none =>
          simp only [Option.isSome_none, Bool.false_eq_true, false_and, false_or, true_and, if_false]
          refine ⟨?_, ?_⟩
          · intro hyields
            obtain ⟨hroom, hrest⟩ := hyields
            rw [ih hroom] at hrest
            omega
          · intro hcounts
            -- the symbols lie in the other cells, so these are enough for them
            have hroom : symbols + 1 ≤ cells := by omega
            exact ⟨hroom, (ih hroom).mpr (by omega)⟩
        | some s =>
          simp only [Option.isSome_some, true_and, reduceCtorEq, false_and, or_false, if_true]
          rw [ih (by omega)]
          omega

/-- The symbols of a board are the cells of it that are filled. -/
theorem countP_contents (b : Board) : b.contents.countP Option.isSome = b.symbolCount := by
  rw [contents, List.countP_map, List.countP_eq_length_filter]
  rfl

/-- A draw from a range yields exactly the boards with a number of symbols
within the clamped range. -/
theorem yields_drawIn {range : FillRange} {b : Board} :
    (drawIn range).Yields b ↔ range.clamp.lo ≤ b.symbolCount ∧ b.symbolCount ≤ range.clamp.hi := by
  simp only [drawIn, drawWith, Draw.yields_bind, Draw.yields_between range.clamp_lo_le_hi,
    yields_drawContents (Nat.min_le_right _ _), Draw.pure_eq_done, Draw.yields_done]
  have hhi := range.clamp_hi_le
  refine ⟨?_, ?_⟩
  · intro h
    obtain ⟨target, htarget, contents, ⟨hcells, hsymbols⟩, rfl⟩ := h
    rw [← countP_contents, contents_ofCells hcells]
    omega
  · intro h
    refine ⟨b.symbolCount, h, b.contents, ⟨b.length_contents, ?_⟩, ofCells_contents b⟩
    rw [countP_contents, Nat.min_eq_left (by omega)]

end Board

end HiddenRule
