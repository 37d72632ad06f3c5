import HiddenRule.Grammar.Standard
import HiddenRule.Random.Source
import HiddenRule.Sampling.Examples
import HiddenRule.Skeleton.Standard
import Mathlib.Order.Bounds.Basic

/-
  Examples as the first of a stream. A source gives one board after the other,
  whatever is done with them. A search takes from this stream the first boards
  on each side of a rule, as many as are wanted, and draws no board after the
  one with which both sides are full.

  What is proved:
    1. `record_ofBoards`: one more attempt takes from one more board.
    2. `run_drawMore_eq_some_iff`: a search that has seen some boards goes on
       with the next ones up to the first that completes it.
    3. `examples_first_of_stream`: the examples of a rule are the first of the
       stream, and the search stops as early as it can.
-/

namespace HiddenRule

/-! ## Boards drawn one after the other -/

section
variable {σ : Type} [WordSource σ] {fill : FillRange} {patience : Nat}

/-- Whether boards are those drawn one after the other from a source, which is
left as another. -/
def Board.Drawn (fill : FillRange) (patience : Nat) : (s : σ) → List Board → (after : σ) → Prop
  | s, [], after => s = after
  | s, b :: rest, after => ∃ between, (drawIn fill).run patience s = some (b, between) ∧
      Drawn fill patience between rest after

end

namespace Examples

variable {judge : Board → Bool} {wantValid wantInvalid : Nat}

/-! ## The first of some boards -/

/-- The first boards on each side of a judge, as many as are wanted. -/
def ofBoards (judge : Board → Bool) (wantValid wantInvalid : Nat) (boards : List Board) : Examples where
  valid := (boards.filter judge).take wantValid
  invalid := (boards.filter fun b => !judge b).take wantInvalid
  attempts := boards.length

theorem ofBoards_nil : ofBoards judge wantValid wantInvalid [] = empty := by simp [ofBoards, empty]

/-- Whether there are as many boards on each side of a judge as are wanted. -/
def Enough (judge : Board → Bool) (wantValid wantInvalid : Nat) (boards : List Board) : Prop :=
  wantValid ≤ boards.countP judge ∧ wantInvalid ≤ boards.countP fun b => !judge b

/-- A board joins the first ones if there are fewer than are wanted. -/
theorem take_append_singleton {side : List Board} {want : Nat} (b : Board) :
    (side ++ [b]).take want =
      if (side.take want).length < want then side.take want ++ [b] else side.take want := by
  rw [List.length_take, List.take_append]
  split
  · next hroom =>
    obtain ⟨n, hn⟩ : ∃ n, want - side.length = n + 1 := ⟨want - side.length - 1, by omega⟩
    rw [hn, List.take_succ_cons, List.take_nil]
  · next hfull =>
    have hnone : want - side.length = 0 := by omega
    rw [hnone, List.take_zero, List.append_nil]

/-- One more attempt takes from one more board. -/
theorem record_ofBoards (boards : List Board) (b : Board) :
    (ofBoards judge wantValid wantInvalid boards).record wantValid wantInvalid (judge b) b =
      ofBoards judge wantValid wantInvalid (boards ++ [b]) := by
  cases hjudge : judge b with
  | true => simp [record, ofBoards, hjudge, take_append_singleton]
  | false => simp [record, ofBoards, hjudge, take_append_singleton]

theorem isComplete_ofBoards (boards : List Board) :
    (ofBoards judge wantValid wantInvalid boards).isComplete wantValid wantInvalid = true ↔
      Enough judge wantValid wantInvalid boards := by
  simp only [isComplete, ofBoards, Enough, List.length_take, List.countP_eq_length_filter, Bool.and_eq_true,
    decide_eq_true_eq]
  omega

/-! ## Where a search stops -/

section
variable {σ : Type} [WordSource σ] {fill : FillRange} {patience : Nat}

/-- The numbers of further boards with which a search can stop: with the limit,
or with enough boards. -/
def stops (judge : Board → Bool) (wantValid wantInvalid limit : Nat) (seen boards : List Board) : Set Nat :=
  {n | n = limit ∨ Enough judge wantValid wantInvalid (seen ++ boards.take n)}

theorem isLeast_iff_eq_zero {S : Set Nat} {n : Nat} (h : 0 ∈ S) : IsLeast S n ↔ n = 0 := by
  refine ⟨?_, ?_⟩
  · intro hleast
    exact Nat.le_zero.mp (hleast.2 h)
  · intro hn
    rw [hn]
    exact ⟨h, fun _ _ => Nat.zero_le _⟩

theorem isLeast_succ_iff {S : Set Nat} {n : Nat} (h : 0 ∉ S) :
    IsLeast S (n + 1) ↔ IsLeast {k | k + 1 ∈ S} n := by
  refine and_congr_right fun _ => ⟨?_, ?_⟩
  · intro hlower k hk
    exact Nat.le_of_succ_le_succ (hlower hk)
  · intro hlower k hk
    cases k with
    | zero => exact absurd hk h
    | succ k => exact Nat.succ_le_succ (hlower hk)

/-- A search that can stop at once draws no board. -/
theorem exists_boards_iff_of_zero_mem_stops {limit : Nat} {seen : List Board} {s after : σ} {e : Examples}
    (h : ∀ boards, 0 ∈ stops judge wantValid wantInvalid limit seen boards) :
    (∃ boards, Board.Drawn fill patience s boards after ∧
      IsLeast (stops judge wantValid wantInvalid limit seen boards) boards.length ∧
      e = ofBoards judge wantValid wantInvalid (seen ++ boards)) ↔
      s = after ∧ e = ofBoards judge wantValid wantInvalid seen := by
  simp only [isLeast_iff_eq_zero (h _), List.length_eq_zero_iff]
  refine ⟨?_, ?_⟩
  · rintro ⟨_, hdrawn, rfl, rfl⟩
    exact ⟨hdrawn, by rw [List.append_nil]⟩
  · rintro ⟨rfl, rfl⟩
    exact ⟨[], rfl, rfl, by rw [List.append_nil]⟩

theorem zero_mem_stops_iff {limit : Nat} {seen boards : List Board} :
    0 ∈ stops judge wantValid wantInvalid limit seen boards ↔
      0 = limit ∨ Enough judge wantValid wantInvalid seen := by
  rw [stops, Set.mem_ofPred_eq, List.take_zero, List.append_nil]

/-- A search that cannot stop at once stops one board later than if it had seen
that board. -/
theorem isLeast_stops_cons_iff {limit : Nat} {seen rest : List Board} {b : Board}
    (h : ¬Enough judge wantValid wantInvalid seen) :
    IsLeast (stops judge wantValid wantInvalid (limit + 1) seen (b :: rest)) (b :: rest).length ↔
      IsLeast (stops judge wantValid wantInvalid limit (seen ++ [b]) rest) rest.length := by
  have hzero : 0 ∉ stops judge wantValid wantInvalid (limit + 1) seen (b :: rest) := by
    rw [zero_mem_stops_iff]
    rintro (hlimit | henough)
    · contradiction
    · exact h henough
  have hstops : {k | k + 1 ∈ stops judge wantValid wantInvalid (limit + 1) seen (b :: rest)} =
      stops judge wantValid wantInvalid limit (seen ++ [b]) rest := by
    ext k
    simp only [stops, Set.mem_ofPred_eq, Nat.add_right_cancel_iff, List.take_succ_cons, List.append_assoc,
      List.singleton_append]
  rw [List.length_cons, isLeast_succ_iff hzero, hstops]

/-- A search that has seen some boards goes on with the next ones, up to the
first that completes it. -/
theorem run_drawMore_eq_some_iff : ∀ (limit : Nat) (seen : List Board) {s after : σ} {e : Examples},
    (drawMore judge fill wantValid wantInvalid limit (ofBoards judge wantValid wantInvalid seen)).run patience s =
        some (e, after) ↔
      ∃ boards, Board.Drawn fill patience s boards after ∧
        IsLeast (stops judge wantValid wantInvalid limit seen boards) boards.length ∧
        e = ofBoards judge wantValid wantInvalid (seen ++ boards)
  | 0, seen, s, after, e => by
    rw [exists_boards_iff_of_zero_mem_stops fun _ => .inl rfl, drawMore]
    simp only [Draw.pure_eq_done, Draw.run, Option.some.injEq, Prod.mk.injEq, eq_comm, and_comm]
  | limit + 1, seen, s, after, e => by
    rw [drawMore]
    split
    · next hcomplete =>
      have henough := (isComplete_ofBoards seen).mp hcomplete
      rw [exists_boards_iff_of_zero_mem_stops fun _ => zero_mem_stops_iff.mpr (.inr henough)]
      simp only [Draw.pure_eq_done, Draw.run, Option.some.injEq, Prod.mk.injEq, eq_comm, and_comm]
    · next hcomplete =>
      have hshort : ¬Enough judge wantValid wantInvalid seen :=
        fun h => hcomplete ((isComplete_ofBoards seen).mpr h)
      rw [Draw.run_bind, Option.bind_eq_some_iff]
      simp only [Prod.exists, record_ofBoards, run_drawMore_eq_some_iff limit]
      refine ⟨?_, ?_⟩
      · intro h
        obtain ⟨b, between, hb, rest, hrest, hleast, rfl⟩ := h
        exact ⟨b :: rest, ⟨between, hb, hrest⟩, (isLeast_stops_cons_iff hshort).mpr hleast, by
          rw [List.append_assoc, List.singleton_append]⟩
      · intro h
        obtain ⟨boards, hdrawn, hleast, rfl⟩ := h
        cases boards with
        | nil =>
          -- no board is too few
          rcases zero_mem_stops_iff.mp hleast.1 with hlimit | henough
          · contradiction
          · exact absurd henough hshort
        | cons b rest =>
          obtain ⟨between, hb, hrest⟩ := hdrawn
          exact ⟨b, between, hb, rest, hrest, (isLeast_stops_cons_iff hshort).mp hleast, by
            rw [List.append_assoc, List.singleton_append]⟩

/-- A search has a result where as many boards can be drawn as its limit allows. -/
theorem exists_run_drawMore : ∀ {boards : List Board} {s after : σ} {e : Examples},
    Board.Drawn fill patience s boards after →
      ∃ result, (drawMore judge fill wantValid wantInvalid boards.length e).run patience s = some result
  | [], s, _, e, _ => ⟨(e, s), rfl⟩
  | b :: rest, s, after, e, h => by
    obtain ⟨between, hb, hrest⟩ := h
    rw [List.length_cons, drawMore]
    split
    · exact ⟨(e, s), rfl⟩
    · rw [Draw.run_bind, hb]
      exact exists_run_drawMore hrest

/-- **The examples of a rule are the first of a stream of boards.** Take the
boards that are drawn one after the other from a source, and the least number of
them that are enough, or the limit if that is less. A search draws just these,
and finds the first of them on each side of the rule, as many as are wanted and
in the order they came; it leaves the source as they leave it, and it has a
result wherever they are drawn. So it finds no more boards than are wanted, and
what it finds falls short only if it came to the limit. It has a result over
every source from which as many boards can be drawn as the limit allows. -/
theorem examples_first_of_stream (sampling : Sampling) (r : Rule) (wantValid wantInvalid patience : Nat) (s : σ) :
    (∀ e after, (draw sampling r wantValid wantInvalid).run patience s = some (e, after) ↔
        ∃ boards, Board.Drawn sampling.fill.clamp patience s boards after ∧
          IsLeast {n | n = sampling.attemptLimit ∨ Enough r.judge wantValid wantInvalid (boards.take n)}
            boards.length ∧
          e = ⟨(boards.filter r.judge).take wantValid, (boards.filter fun b => !r.judge b).take wantInvalid,
            boards.length⟩) ∧
      (∀ e after, (draw sampling r wantValid wantInvalid).run patience s = some (e, after) →
        e.valid.length ≤ wantValid ∧ e.invalid.length ≤ wantInvalid ∧
          (e.isComplete wantValid wantInvalid = false → e.attempts = sampling.attemptLimit)) ∧
      ((∃ boards after, Board.Drawn sampling.fill.clamp patience s boards after ∧
          boards.length = sampling.attemptLimit) →
        ∃ e after, (draw sampling r wantValid wantInvalid).run patience s = some (e, after)) := by
  have hrun : ∀ e after, (draw sampling r wantValid wantInvalid).run patience s = some (e, after) ↔
      ∃ boards, Board.Drawn sampling.fill.clamp patience s boards after ∧
        IsLeast (stops r.judge wantValid wantInvalid sampling.attemptLimit [] boards) boards.length ∧
        e = ofBoards r.judge wantValid wantInvalid boards := by
    intro e after
    rw [draw, ← ofBoards_nil]
    exact run_drawMore_eq_some_iff sampling.attemptLimit []
  refine ⟨hrun, ?_, ?_⟩
  · intro e after he
    obtain ⟨boards, -, hleast, rfl⟩ := (hrun e after).mp he
    refine ⟨List.length_take_le _ _, List.length_take_le _ _, ?_⟩
    intro hincomplete
    rcases hleast.1 with hlimit | henough
    · exact hlimit
    · rw [List.nil_append, List.take_length] at henough
      rw [(isComplete_ofBoards boards).mpr henough] at hincomplete
      contradiction
  · rintro ⟨boards, after, hdrawn, hlength⟩
    obtain ⟨⟨e, between⟩, he⟩ := exists_run_drawMore (e := empty) hdrawn
    rw [hlength] at he
    exact ⟨e, between, he⟩

end

/-- The empty board and a single red circle, sought for the rule that some circle
is red, over a source that draws them first: the search stops with the second. -/
theorem red_circle_first_of_stream :
    ∃ r e boards after, Rule.build Grammar.standard (.someIs (.noun 1 0) (.pred 0 0)) = .ok r ∧
      (draw ⟨500, ⟨0, 1⟩⟩ r 1 1).run Draw.patience (Script.mk [0, 0x8000000000000000]) = some (e, after) ∧
      Board.Drawn (FillRange.clamp ⟨0, 1⟩) Draw.patience (Script.mk [0, 0x8000000000000000]) boards after ∧
      boards.length = 2 ∧ e.valid.length = 1 ∧ e.valid = (boards.filter r.judge).take 1 := by
  obtain ⟨r, e, after, hr, hrun, hattempts, hvalid⟩ : ∃ r e after,
      Rule.build Grammar.standard (.someIs (.noun 1 0) (.pred 0 0)) = .ok r ∧
        (draw ⟨500, ⟨0, 1⟩⟩ r 1 1).run Draw.patience (Script.mk [0, 0x8000000000000000]) = some (e, after) ∧
        e.attempts = 2 ∧ e.valid.length = 1 := ⟨_, _, _, rfl, rfl, rfl, rfl⟩
  obtain ⟨hiff, -, -⟩ := examples_first_of_stream ⟨500, ⟨0, 1⟩⟩ r 1 1 Draw.patience
    (Script.mk [0, 0x8000000000000000])
  obtain ⟨boards, hdrawn, -, rfl⟩ := (hiff e after).mp hrun
  exact ⟨r, _, boards, after, hr, hrun, hdrawn, hattempts, hvalid, rfl⟩

end Examples

end HiddenRule
