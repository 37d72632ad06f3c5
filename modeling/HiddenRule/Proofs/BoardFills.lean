import HiddenRule.Proofs.BoardDraws
import HiddenRule.Proofs.DrawAnswers
import Mathlib.Order.Bounds.Basic

/-
  How a board is filled. A cell asks whether it is among those still to be
  filled, out of the cells that are left; as these are never fewer than the
  symbols left, the last cells are filled without fail, and no cell is asked
  after the last symbol is placed.

  What is proved:
    1. `answerable_drawContents`: no cell asks for a value where there is none.
    2. `exists_length_eq_of_leads`: every cell up to the last symbol asks once,
       and each filled cell twice more.
    3. `boards_filled_exactly`: over every source a board is filled with the
       number of symbols asked for, or with a number drawn from the range.
-/

namespace HiddenRule

open Draw

theorem FillRange.clamp_clamp (r : FillRange) : r.clamp.clamp = r.clamp := by
  simp only [clamp, mk.injEq]
  omega

theorem Draw.answerable_between (lo hi : Nat) : (between lo hi).Answerable :=
  Answerable.bind (answerable_lessThan (Nat.succ_pos _)) fun _ _ => trivial

theorem Symbol.answerable_draw : draw.Answerable :=
  (answerable_lessThan (by decide)).bind fun _ _ =>
    (answerable_lessThan (by decide)).bind fun _ _ => trivial

/-- A symbol takes two answers, one for the color and one for the shape. -/
theorem Symbol.length_of_leads_draw {given : List (Question × Nat)} {s : Symbol} (h : draw.Leads given s) :
    given.length = 2 := by
  obtain ⟨color, first, rest, rfl, hcolor, h⟩ := leads_bind.mp h
  obtain ⟨shape, second, last, rfl, hshape, rfl, -⟩ := leads_bind.mp h
  rw [leads_lessThan hcolor, leads_lessThan hshape]
  rfl

namespace Board

/-! ## Cells that are filled -/

/-- The places that hold symbols. -/
def filledPlaces (contents : List (Option Symbol)) : Set Nat := {i | ∃ s, contents[i]? = some (some s)}

/-- A last symbol is one place further from a cell put before the others. -/
theorem isGreatest_filledPlaces_cons {content : Option Symbol} {rest : List (Option Symbol)} {last : Nat}
    (h : IsGreatest (filledPlaces rest) last) : IsGreatest (filledPlaces (content :: rest)) (last + 1) := by
  refine ⟨h.1, ?_⟩
  intro i hi
  cases i with
  | zero => exact Nat.zero_le _
  | succ i => exact Nat.succ_le_succ (h.2 hi)

/-- A symbol before empty cells is the last one. -/
theorem isGreatest_filledPlaces_replicate (s : Symbol) (cells : Nat) :
    IsGreatest (filledPlaces (some s :: List.replicate cells none)) 0 := by
  refine ⟨⟨s, rfl⟩, ?_⟩
  rintro (_ | i) ⟨t, ht⟩
  · exact Nat.le_refl 0
  · simp [List.getElem?_replicate] at ht

/-- The filled places of nine cells are the occupied cells of their board. -/
theorem filledPlaces_contents (b : Board) : filledPlaces b.contents = {i | b.isOccupied i = true} := by
  ext i
  by_cases h : i < 9
  · simp [filledPlaces, contents, Cell.all, Cell.count, isOccupied, h, Option.isSome_iff_exists]
  · have hnone : b.get i = none := get_eq_none (Nat.le_of_not_lt h)
    simp [filledPlaces, contents, Cell.all, Cell.count, isOccupied, h, hnone]

/-! ## What cells ask -/

/-- No cell asks for a value where there is none: it is itself one of the cells
left. -/
theorem answerable_drawContents (cells symbols : Nat) : (drawContents cells symbols).Answerable := by
  induction cells generalizing symbols with
  | zero => cases symbols <;> trivial
  | succ cells ih =>
    cases symbols with
    | zero => trivial
    | succ symbols =>
      rw [drawContents]
      apply (answerable_lessThan (Nat.succ_pos cells)).bind
      intro place _
      split
      · exact Symbol.answerable_draw.bind fun _ _ => (ih symbols).bind fun _ _ => trivial
      · exact (ih (symbols + 1)).bind fun _ _ => trivial

/-- Every cell up to the last symbol asked once, and each filled cell twice
more. -/
theorem exists_length_eq_of_leads {cells symbols : Nat} {given : List (Question × Nat)}
    {contents : List (Option Symbol)} (h : symbols + 1 ≤ cells)
    (hleads : (drawContents cells (symbols + 1)).Leads given contents) :
    ∃ last, IsGreatest (filledPlaces contents) last ∧ given.length = 2 * (symbols + 1) + 1 + last := by
  induction cells generalizing symbols given contents with
  | zero => omega
  | succ cells ih =>
    rw [drawContents] at hleads
    obtain ⟨place, first, rest, rfl, hplace, hleads⟩ := leads_bind.mp hleads
    have hfirst : first.length = 1 := by rw [leads_lessThan hplace, List.length_singleton]
    have hroom : place < cells + 1 := (yields_lessThan (Nat.succ_pos cells)).mp hplace.yields
    rw [List.length_append, hfirst]
    split at hleads
    · obtain ⟨s, asked, rest, rfl, hs, hleads⟩ := leads_bind.mp hleads
      obtain ⟨others, more, nothing, rfl, hothers, rfl, rfl⟩ := leads_bind.mp hleads
      rw [List.append_nil, List.length_append, Symbol.length_of_leads_draw hs]
      cases symbols with
      | zero =>
        -- it was the last symbol, so the other cells stay empty
        rw [drawContents_zero] at hothers
        obtain ⟨rfl, rfl⟩ := hothers
        exact ⟨0, isGreatest_filledPlaces_replicate s cells, rfl⟩
      | succ symbols =>
        obtain ⟨last, hlast, hlength⟩ := ih (by omega) hothers
        exact ⟨last + 1, isGreatest_filledPlaces_cons hlast, by omega⟩
    · obtain ⟨others, more, nothing, rfl, hothers, rfl, rfl⟩ := leads_bind.mp hleads
      obtain ⟨last, hlast, hlength⟩ := ih (by omega) hothers
      rw [List.append_nil]
      exact ⟨last + 1, isGreatest_filledPlaces_cons hlast, by omega⟩

/-! ## Whole boards -/

theorem answerable_drawWith (target : Nat) : (drawWith target).Answerable :=
  (answerable_drawContents Cell.count (min target Cell.count)).bind fun _ _ => trivial

theorem answerable_drawIn (range : FillRange) : (drawIn range).Answerable :=
  (answerable_between _ _).bind fun target _ => answerable_drawWith target

/-- A board is filled from answers that lead to its contents. -/
theorem leads_drawContents_of_leads {target : Nat} {given : List (Question × Nat)} {b : Board}
    (h : (drawWith target).Leads given b) :
    (drawContents Cell.count (min target Cell.count)).Leads given b.contents := by
  obtain ⟨contents, first, nothing, rfl, hcontents, rfl, rfl⟩ := leads_bind.mp h
  obtain ⟨hcells, -⟩ := (yields_drawContents (Nat.min_le_right _ _)).mp hcontents.yields
  rwa [List.append_nil, contents_ofCells hcells]

theorem symbolCount_of_leads {target : Nat} {given : List (Question × Nat)} {b : Board}
    (h : (drawWith target).Leads given b) : b.symbolCount = min target Cell.count := by
  have hyields := (leads_drawContents_of_leads h).yields
  rw [yields_drawContents (Nat.min_le_right _ _), countP_contents] at hyields
  exact hyields.2

/-- Nothing is asked for the empty board. -/
theorem eq_nil_of_leads {target : Nat} {given : List (Question × Nat)} {b : Board}
    (h : (drawWith target).Leads given b) (hzero : min target Cell.count = 0) : given = [] := by
  have hcontents := leads_drawContents_of_leads h
  rw [hzero, drawContents_zero] at hcontents
  exact hcontents.1

theorem exists_isGreatest_of_leads {target : Nat} {given : List (Question × Nat)} {b : Board}
    (h : (drawWith target).Leads given b) (hpos : 0 < min target Cell.count) :
    ∃ last, IsGreatest {i | b.isOccupied i = true} last ∧
      given.length = 2 * min target Cell.count + 1 + last := by
  obtain ⟨symbols, hsymbols⟩ : ∃ symbols, min target Cell.count = symbols + 1 :=
    ⟨min target Cell.count - 1, by omega⟩
  have hcontents := leads_drawContents_of_leads h
  rw [hsymbols] at hcontents ⊢
  rw [← filledPlaces_contents]
  exact exists_length_eq_of_leads (hsymbols ▸ Nat.min_le_right _ _) hcontents

/-- The first answer settles the number of symbols, the others fill the board
with as many. -/
theorem exists_first_of_leads {range : FillRange} {given : List (Question × Nat)} {b : Board}
    (h : (drawIn range).Leads given b) : ∃ v rest,
      given = (⟨.index, range.clamp.hi - range.clamp.lo + 1⟩, v) :: rest ∧
        v < range.clamp.hi - range.clamp.lo + 1 ∧ (drawWith (range.clamp.lo + v)).Leads rest b := by
  obtain ⟨target, first, rest, rfl, htarget, hrest⟩ := leads_bind.mp h
  obtain ⟨v, asked, nothing, rfl, hv, rfl, rfl⟩ := leads_bind.mp htarget
  refine ⟨v, rest, by rw [leads_lessThan hv]; rfl, ?_, hrest⟩
  exact (yields_lessThan (Nat.succ_pos _)).mp hv.yields

/-- **A board is filled exactly.** Over every source that settles the questions
asked there, a board is filled with the number of symbols asked for, nine at
most. No question asks for a value where there is none. The board takes one
answer for each cell up to its last symbol and two for each symbol, and none if
it has no symbols. From a range, the number of symbols is the one that the first
answer names, and lies within the range as it is clamped; clamping again changes
nothing. -/
theorem boards_filled_exactly {σ : Type} [WordSource σ] (target : Nat) (range : FillRange) (patience : Nat)
    (s : σ) :
    (drawWith target).Answerable ∧
    ((drawWith target).Answered patience s → ∃ b after,
      (drawWith target).run patience s = some (b, after) ∧ b.symbolCount = min target 9 ∧
        (min target 9 = 0 → (drawWith target).answers patience s = []) ∧
        (0 < min target 9 → ∃ last, IsGreatest {i | b.isOccupied i = true} last ∧
          ((drawWith target).answers patience s).length = 2 * min target 9 + 1 + last)) ∧
    (drawIn range).Answerable ∧
    ((drawIn range).Answered patience s → ∃ b after v rest,
      (drawIn range).run patience s = some (b, after) ∧
        (drawIn range).answers patience s = (⟨.index, range.clamp.hi - range.clamp.lo + 1⟩, v) :: rest ∧
        b.symbolCount = range.clamp.lo + v ∧ min range.lo 9 ≤ b.symbolCount ∧
        b.symbolCount ≤ max (min range.hi 9) (min range.lo 9)) ∧
    range.clamp.clamp = range.clamp ∧ range.clamp.lo ≤ range.clamp.hi := by
  refine ⟨answerable_drawWith target, ?_, answerable_drawIn range, ?_, range.clamp_clamp,
    range.clamp_lo_le_hi⟩
  · intro hanswered
    obtain ⟨b, after, hrun⟩ := (answerable_drawWith target).exists_run hanswered
    have hleads := leads_of_run hrun
    exact ⟨b, after, hrun, symbolCount_of_leads hleads, eq_nil_of_leads hleads,
      exists_isGreatest_of_leads hleads⟩
  · intro hanswered
    obtain ⟨b, after, hrun⟩ := (answerable_drawIn range).exists_run hanswered
    obtain ⟨v, rest, hgiven, hv, hrest⟩ := exists_first_of_leads (leads_of_run hrun)
    have hlo : range.clamp.lo = min range.lo 9 := rfl
    have hhi : range.clamp.hi = max (min range.hi 9) (min range.lo 9) := rfl
    have hle := range.clamp_lo_le_hi
    have hcount : b.symbolCount = range.clamp.lo + v := by
      rw [symbolCount_of_leads hrest, Nat.min_eq_left]
      show range.clamp.lo + v ≤ 9
      omega
    exact ⟨b, after, v, rest, hrun, hgiven, hcount, by omega, by omega⟩

/-- A single symbol that goes into the second cell takes four answers; a range
whose end lies before its start fills as many cells as its start says. -/
theorem second_cell_filled :
    (∃ b after, (drawWith 1).run Draw.patience (Script.mk [0x8000000000000000]) = some (b, after) ∧
      b.symbolCount = 1 ∧ IsGreatest {i | b.isOccupied i = true} 1 ∧
      ((drawWith 1).answers Draw.patience (Script.mk [0x8000000000000000])).length = 4) ∧
      ∃ b after, (drawIn ⟨5, 2⟩).run Draw.patience (Script.mk []) = some (b, after) ∧ b.symbolCount = 5 := by
  obtain ⟨-, hwith, -⟩ := boards_filled_exactly 1 ⟨5, 2⟩ Draw.patience (Script.mk [0x8000000000000000])
  obtain ⟨-, -, -, hin, -⟩ := boards_filled_exactly 1 ⟨5, 2⟩ Draw.patience (Script.mk [])
  have hanswered : (drawWith 1).Answered Draw.patience (Script.mk [0x8000000000000000]) :=
    answered_of_run rfl
  have hanswered' : (drawIn ⟨5, 2⟩).Answered Draw.patience (Script.mk []) := answered_of_run rfl
  have hgiven : ((drawWith 1).answers Draw.patience (Script.mk [0x8000000000000000])).length = 4 := rfl
  obtain ⟨b, after, hrun, hcount, -, hlength⟩ := hwith hanswered
  obtain ⟨last, hlast, hcells⟩ := hlength (by decide)
  obtain rfl : last = 1 := by omega
  obtain ⟨five, left, v, rest, hrun', -, -, hlo, hhi⟩ := hin hanswered'
  have hfive : five.symbolCount = 5 := Nat.le_antisymm hhi hlo
  exact ⟨⟨b, after, hrun, hcount, hlast, hgiven⟩, five, left, hrun', hfive⟩

end Board

end HiddenRule
