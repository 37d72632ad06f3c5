import HiddenRule.Proofs.BoardFills
import HiddenRule.Proofs.DrawChances
import Mathlib.Data.Nat.Choose.Basic

/-
  The chances of boards. A cell with `symbols` symbols and `cells` cells left is
  filled with the chance `symbols / cells`. Which fraction comes up where depends
  on the cells before, but along every way to fill the board with the same number
  of symbols their product is the same, as the two rules for neighboring binomial
  coefficients say.

  What is proved:
    1. `chance_drawContents`: with a number of cells and symbols, all contents
       are equally likely.
    2. `boards_equally_likely`: so are all boards with the number of symbols
       asked for, and in a range each number of symbols is as likely as the
       others.
-/

namespace HiddenRule

open Draw

/-- The nine symbols are equally likely. -/
theorem Symbol.chance_draw (s : Symbol) : draw.chance s = 1 / 9 := by
  obtain ⟨color, shape⟩ := s
  -- of the three colors one counts, and with it of the three shapes one
  have hcases : draw.chance ⟨color, shape⟩ = 1 / 3 / 3 := by
    cases color <;> cases shape <;>
      simp [draw, chance, mean_bind, mean_lessThan, mean, Color.all, Shape.all, Finset.sum_range_succ,
        -Finset.sum_boole]
  rw [hcases]
  norm_num

namespace Board

/-! ## Contents -/

/-- The number of contents with a number of cells and of symbols. -/
def arrangements (cells symbols : Nat) : Nat := cells.choose symbols * 9 ^ symbols

theorem arrangements_pos {cells symbols : Nat} (h : symbols ≤ cells) : 0 < arrangements cells symbols :=
  Nat.mul_pos (Nat.choose_pos h) (Nat.pow_pos (by decide))

/-- The contents with a symbol in the first cell. -/
theorem arrangements_filled (cells symbols : Nat) :
    (cells + 1) * 9 * arrangements cells symbols = (symbols + 1) * arrangements (cells + 1) (symbols + 1) := by
  have hchoose : (cells + 1) * cells.choose symbols = (cells + 1).choose (symbols + 1) * (symbols + 1) :=
    Nat.add_one_mul_choose_eq cells symbols
  calc (cells + 1) * 9 * arrangements cells symbols
      = (cells + 1) * cells.choose symbols * 9 ^ (symbols + 1) := by rw [arrangements]; ring
    _ = (symbols + 1) * arrangements (cells + 1) (symbols + 1) := by rw [hchoose, arrangements]; ring

/-- The contents with an empty first cell. -/
theorem arrangements_empty (cells symbols : Nat) :
    (cells + 1) * arrangements cells symbols = (cells + 1 - symbols) * arrangements (cells + 1) symbols := by
  have hchoose : cells.choose symbols * (cells + 1) = (cells + 1).choose symbols * (cells + 1 - symbols) :=
    Nat.choose_mul_succ_eq cells symbols
  calc (cells + 1) * arrangements cells symbols
      = cells.choose symbols * (cells + 1) * 9 ^ symbols := by rw [arrangements]; ring
    _ = (cells + 1 - symbols) * arrangements (cells + 1) symbols := by rw [hchoose, arrangements]; ring

/-- A symbol in the first cell makes up for the contents that it rules out. -/
theorem chance_filled_eq (symbols room : Nat) :
    (symbols + 1) * (1 / 9 * (1 / arrangements (symbols + room) symbols : ℚ)) / (symbols + 1 + room) =
      1 / arrangements (symbols + room + 1) (symbols + 1) := by
  have hall : (arrangements (symbols + room + 1) (symbols + 1) : ℚ) ≠ 0 :=
    Nat.cast_ne_zero.mpr (arrangements_pos (by omega)).ne'
  have hrest : (arrangements (symbols + room) symbols : ℚ) ≠ 0 :=
    Nat.cast_ne_zero.mpr (arrangements_pos (Nat.le_add_right _ _)).ne'
  have hcells : (symbols + 1 + room : ℚ) ≠ 0 := by positivity
  have hfilled : ((symbols + room + 1) * 9 * arrangements (symbols + room) symbols : ℚ) =
      (symbols + 1) * arrangements (symbols + room + 1) (symbols + 1) := by
    exact_mod_cast arrangements_filled (symbols + room) symbols
  field_simp
  rw [← hfilled]
  ring

/-- So does an empty first cell, where there is room for one. -/
theorem chance_empty_eq (symbols room : Nat) (h : symbols + 1 ≤ symbols + room) :
    room * (1 / arrangements (symbols + room) (symbols + 1) : ℚ) / (symbols + 1 + room) =
      1 / arrangements (symbols + room + 1) (symbols + 1) := by
  have hall : (arrangements (symbols + room + 1) (symbols + 1) : ℚ) ≠ 0 :=
    Nat.cast_ne_zero.mpr (arrangements_pos (by omega)).ne'
  have hrest : (arrangements (symbols + room) (symbols + 1) : ℚ) ≠ 0 :=
    Nat.cast_ne_zero.mpr (arrangements_pos h).ne'
  have hcells : (symbols + 1 + room : ℚ) ≠ 0 := by positivity
  have hempty : ((symbols + room + 1) * arrangements (symbols + room) (symbols + 1) : ℚ) =
      room * arrangements (symbols + room + 1) (symbols + 1) := by
    have hsub : symbols + room + 1 - (symbols + 1) = room := by omega
    have hnat := arrangements_empty (symbols + room) (symbols + 1)
    rw [hsub] at hnat
    exact_mod_cast hnat
  field_simp
  rw [← hempty]
  ring

/-- A cell put before others takes no part in their chance, if it is the cell that
is looked for. -/
theorem chance_bind_cons (d : Draw (List (Option Symbol))) (other content : Option Symbol)
    (rest : List (Option Symbol)) :
    (d >>= fun others => done (other :: others)).chance (content :: rest) =
      if other = content then d.chance rest else 0 := by
  by_cases h : other = content
  · rw [if_pos h, h]
    exact chance_bind_done fun others _ heq => (List.cons.inj heq).2
  · rw [if_neg h]
    apply chance_eq_zero
    rw [yields_bind]
    rintro ⟨others, -, heq⟩
    exact h (List.cons.inj heq).1

/-- The chances of what follows if the first cell is filled, and if it is left
empty. -/
theorem chance_drawContents_succ (symbols room : Nat) (contents : List (Option Symbol)) :
    (drawContents (symbols + room + 1) (symbols + 1)).chance contents =
      ((symbols + 1 : ℕ) * (Symbol.draw >>= fun s => drawContents (symbols + room) symbols >>= fun rest =>
          done (some s :: rest)).chance contents +
        room * (drawContents (symbols + room) (symbols + 1) >>= fun rest => done (none :: rest)).chance contents) /
      (symbols + 1 + room : ℕ) := by
  rw [drawContents, chance_bind, ← mean_lessThan_ite, Nat.add_right_comm]
  apply mean_congr
  intro place _
  split <;> rfl

theorem chance_drawContents_some (symbols room : Nat) (s : Symbol) (rest : List (Option Symbol)) :
    (drawContents (symbols + room + 1) (symbols + 1)).chance (some s :: rest) =
      (symbols + 1) * (1 / 9 * (drawContents (symbols + room) symbols).chance rest) / (symbols + 1 + room) := by
  have hfilled : (Symbol.draw >>= fun t => drawContents (symbols + room) symbols >>= fun others =>
      done (some t :: others)).chance (some s :: rest) =
        1 / 9 * (drawContents (symbols + room) symbols).chance rest := by
    calc (Symbol.draw >>= fun t => drawContents (symbols + room) symbols >>= fun others =>
          done (some t :: others)).chance (some s :: rest)
        = Symbol.draw.mean fun t =>
            (drawContents (symbols + room) symbols).chance rest * (if t = s then 1 else 0) := by
          rw [chance_bind]
          simp only [chance_bind_cons, Option.some.injEq, mul_ite, mul_one, mul_zero]
      _ = (drawContents (symbols + room) symbols).chance rest * Symbol.draw.chance s := mean_const_mul _ _ _
      _ = 1 / 9 * (drawContents (symbols + room) symbols).chance rest := by rw [s.chance_draw, mul_comm]
  rw [chance_drawContents_succ, hfilled, chance_bind_cons, if_neg (Option.some_ne_none s).symm]
  push_cast
  ring

theorem chance_drawContents_none (symbols room : Nat) (rest : List (Option Symbol)) :
    (drawContents (symbols + room + 1) (symbols + 1)).chance (none :: rest) =
      room * (drawContents (symbols + room) (symbols + 1)).chance rest / (symbols + 1 + room) := by
  have hfilled : (Symbol.draw >>= fun t => drawContents (symbols + room) symbols >>= fun others =>
      done (some t :: others)).chance (none :: rest) = 0 := by
    rw [chance_bind]
    simp only [chance_bind_cons, Option.some_ne_none, if_false, mean_zero]
  rw [chance_drawContents_succ, hfilled, chance_bind_cons, if_pos rfl]
  push_cast
  ring

theorem chance_drawContents_zero {cells : Nat} {contents : List (Option Symbol)}
    (hlength : contents.length = cells) (hcount : contents.countP Option.isSome = 0) :
    (drawContents cells 0).chance contents = 1 := by
  have hyields := yields_drawContents_zero.mpr ⟨hlength, hcount⟩
  rw [drawContents_zero] at hyields ⊢
  exact if_pos hyields

/-- All contents with a number of cells and of symbols are equally likely. The
induction is along the cells; the chance of the first one makes up for the contents
that it rules out. -/
theorem chance_drawContents {cells symbols : Nat} {contents : List (Option Symbol)} (h : symbols ≤ cells)
    (hlength : contents.length = cells) (hcount : contents.countP Option.isSome = symbols) :
    (drawContents cells symbols).chance contents = 1 / arrangements cells symbols := by
  induction cells generalizing symbols contents with
  | zero =>
    obtain rfl : symbols = 0 := Nat.le_zero.mp h
    rw [chance_drawContents_zero hlength hcount]
    norm_num [arrangements]
  | succ cells ih =>
    cases symbols with
    | zero =>
      rw [chance_drawContents_zero hlength hcount]
      norm_num [arrangements]
    | succ symbols =>
      obtain ⟨room, rfl⟩ : ∃ room, cells = symbols + room := ⟨cells - symbols, by omega⟩
      cases contents with
      | nil => contradiction
      | cons content rest =>
        rw [List.length_cons, Nat.add_right_cancel_iff] at hlength
        rw [List.countP_cons] at hcount
        cases content with
        | some s =>
          have hrest : rest.countP Option.isSome = symbols := by simpa using hcount
          rw [chance_drawContents_some, ih (Nat.le_add_right _ _) hlength hrest, chance_filled_eq]
        | none =>
          have hrest : rest.countP Option.isSome = symbols + 1 := by simpa using hcount
          have hroom : symbols + 1 ≤ symbols + room := by
            rw [← hrest, ← hlength]
            exact List.countP_le_length
          rw [chance_drawContents_none, ih hroom hlength hrest, chance_empty_eq symbols room hroom]

/-! ## Whole boards -/

/-- A board has the chance of its contents. -/
theorem chance_drawWith_eq (target : Nat) (b : Board) : (drawWith target).chance b =
    (drawContents Cell.count (min target Cell.count)).chance b.contents := by
  have hsame : ∀ contents, (drawContents Cell.count (min target Cell.count)).Yields contents →
      ofCells contents = ofCells b.contents → contents = b.contents := by
    intro contents hyields heq
    obtain ⟨hlength, -⟩ := (yields_drawContents (Nat.min_le_right _ _)).mp hyields
    rw [← contents_ofCells hlength, heq, ofCells_contents]
  have h := chance_bind_done hsame
  rwa [ofCells_contents] at h

theorem chance_drawWith (target : Nat) (b : Board) : (drawWith target).chance b =
    if b.symbolCount = min target 9 then 1 / (Nat.choose 9 b.symbolCount * 9 ^ b.symbolCount : ℚ) else 0 := by
  have hle : min target Cell.count ≤ Cell.count := Nat.min_le_right _ _
  rw [chance_drawWith_eq]
  by_cases hcount : b.symbolCount = min target 9
  · rw [if_pos hcount, chance_drawContents hle b.length_contents (b.countP_contents.trans hcount), hcount,
      arrangements]
    push_cast
    rfl
  · rw [if_neg hcount]
    apply chance_eq_zero
    rw [yields_drawContents hle]
    rintro ⟨-, hsymbols⟩
    exact hcount (b.countP_contents.symm.trans hsymbols)

theorem mean_between (lo hi : Nat) (number : Nat → ℚ) : (between lo hi).mean number =
    (∑ k ∈ Finset.range (hi - lo + 1), number (lo + k)) / (hi - lo + 1 : ℕ) := by
  rw [between, mean_bind, mean_lessThan]
  rfl

/-- **Boards with as many symbols are equally likely.** With every question
answered by one of its values, all equally likely and whatever was answered
before, a board filled with a number of symbols is each of the boards with that
number, nine at most, with the same chance, and no other. From a range, the
number of symbols is each of those within the clamped range with the same chance,
and so is, for each of these, the board. Both always end with some board. -/
theorem boards_equally_likely (target : Nat) (range : FillRange) (b : Board) :
    ((drawWith target).mean fun _ => 1) = 1 ∧
    ((drawWith target).chance b =
      if b.symbolCount = min target 9 then 1 / (Nat.choose 9 b.symbolCount * 9 ^ b.symbolCount : ℚ) else 0) ∧
    ((drawIn range).mean fun _ => 1) = 1 ∧
    ((drawIn range).chance b =
      if range.clamp.lo ≤ b.symbolCount ∧ b.symbolCount ≤ range.clamp.hi then
        1 / ((range.clamp.hi - range.clamp.lo + 1) * (Nat.choose 9 b.symbolCount * 9 ^ b.symbolCount) : ℚ)
      else 0) := by
  refine ⟨(answerable_drawWith target).mean_const 1, chance_drawWith target b,
    (answerable_drawIn range).mean_const 1, ?_⟩
  have hle := range.clamp_lo_le_hi
  have hhi : range.clamp.hi ≤ 9 := range.clamp_hi_le
  -- of the numbers in the range, that of the board's own symbols counts
  have hterm : ∀ k ∈ Finset.range (range.clamp.hi - range.clamp.lo + 1),
      (drawWith (range.clamp.lo + k)).chance b =
        if b.symbolCount = range.clamp.lo + k then
          1 / (Nat.choose 9 b.symbolCount * 9 ^ b.symbolCount : ℚ) else 0 := by
    intro k hk
    have hk' : range.clamp.lo + k ≤ 9 := by
      have := Finset.mem_range.mp hk
      omega
    rw [chance_drawWith, Nat.min_eq_left hk']
  rw [drawIn, chance_bind, mean_between, Finset.sum_congr rfl hterm]
  push_cast [Nat.cast_sub hle]
  by_cases hcount : range.clamp.lo ≤ b.symbolCount ∧ b.symbolCount ≤ range.clamp.hi
  · obtain ⟨k, hk⟩ : ∃ k, b.symbolCount = range.clamp.lo + k := ⟨b.symbolCount - range.clamp.lo, by omega⟩
    rw [if_pos hcount, hk, Finset.sum_eq_single k]
    · rw [if_pos rfl, div_div, mul_comm]
    · intro other _ hne
      exact if_neg fun heq => hne (Nat.add_left_cancel heq).symm
    · intro hk'
      rw [Finset.mem_range] at hk'
      omega
  · rw [if_neg hcount, Finset.sum_eq_zero, zero_div]
    intro k hk
    refine if_neg fun heq => hcount ?_
    have := Finset.mem_range.mp hk
    omega

end Board

end HiddenRule
