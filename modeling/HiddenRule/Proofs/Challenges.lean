import HiddenRule.Challenge
import HiddenRule.Grammar.Standard
import HiddenRule.Proofs.DrawEnds
import HiddenRule.Proofs.SortedExamples
import HiddenRule.Skeleton.Standard
import Mathlib.Data.List.Perm.Subperm

/-
  The mix of a challenge. One board fewer than there are stages is asked for on
  each side of the rule, all boards found are shuffled, and the first of them
  become stages. A side cannot fill the stages on its own, so a challenge has
  stages of both kinds as soon as boards of both kinds were found.

  What is proved:
    1. `ensures_shuffle`: a shuffle ends with the boards in another order.
    2. `Examples.Sorted.mixed_of_perm`: what the first boards of any order make of sorted
       examples.
    3. `challenge_mixed`: a challenge is such a mix, and the session keeps its
       rule and its round.
-/

namespace HiddenRule

/-! ## Shuffles -/

namespace Draw

variable {α : Type}

theorem perm_swapIfInBounds (items : Array α) (i j : Nat) :
    (items.swapIfInBounds i j).toList.Perm items.toList := by
  unfold Array.swapIfInBounds
  split
  · split
    · exact Array.perm_iff_toList_perm.mp (Array.swap_perm _ _)
    · exact .refl _
  · exact .refl _

theorem ensures_exchangeFrom : ∀ (i : Nat) (items : Array α),
    (exchangeFrom i items).Ensures fun result => result.toList.Perm items.toList
  | 0, _ => .refl _
  | i + 1, items => by
    intro j _
    have hrest := ensures_exchangeFrom i (items.swapIfInBounds (i + 1) j)
    apply hrest.of_yields
    intro result _ hperm
    exact hperm.trans (perm_swapIfInBounds items (i + 1) j)

/-- A shuffle keeps the items and changes their order at most. -/
theorem ensures_shuffle (items : List α) : (shuffle items).Ensures fun result => result.Perm items := by
  apply (ensures_exchangeFrom _ _).of_bind
  intro result _ hperm
  exact hperm

end Draw

/-! ## Stages -/

/-- The stages of boards under a judge. -/
def Stage.listOf (judge : Board → Bool) (boards : List Board) : List Stage := boards.map fun b => ⟨b, judge b⟩

/-- What a challenge of a number of stages makes of the examples found for it. -/
structure Examples.Mixed (found : Examples) (judge : Board → Bool) (count : Nat) (stages : List Stage) :
    Prop where
  /-- There are as many stages as asked for, or as boards, if they are fewer. -/
  length_eq : stages.length = min count (found.valid.length + found.invalid.length)
  /-- No board is shown that was not found, and none more often. -/
  boards_subperm : (stages.map Stage.board).Subperm (found.valid ++ found.invalid)
  /-- The answers are those of the judge. -/
  valid_eq : ∀ stage ∈ stages, stage.valid = judge stage.board
  valid_le : stages.countP (fun stage => stage.valid) ≤ found.valid.length
  invalid_le : stages.countP (fun stage => !stage.valid) ≤ found.invalid.length
  /-- Both answers occur as soon as boards of both kinds were found. -/
  both_iff : (∃ stage ∈ stages, stage.valid = true) ∧ (∃ stage ∈ stages, stage.valid = false) ↔
    found.valid ≠ [] ∧ found.invalid ≠ []
  /-- Nothing is missing from two stages on if the search was complete. -/
  length_eq_of_complete : 2 ≤ count → found.isComplete (count - 1) (count - 1) = true → stages.length = count

section
variable {judge : Board → Bool} {boards : List Board} {found : Examples} {count : Nat}

theorem Stage.map_board_listOf (judge : Board → Bool) (boards : List Board) :
    (listOf judge boards).map Stage.board = boards := by
  rw [listOf, List.map_map]
  exact List.map_id boards

theorem Stage.countP_valid_listOf (judge : Board → Bool) (boards : List Board) :
    (listOf judge boards).countP (fun stage => stage.valid) = boards.countP judge := List.countP_map

theorem Stage.countP_not_valid_listOf (judge : Board → Bool) (boards : List Board) :
    (listOf judge boards).countP (fun stage => !stage.valid) = boards.countP fun b => !judge b := List.countP_map

theorem countP_judge_add_countP_not (judge : Board → Bool) (boards : List Board) :
    boards.countP judge + boards.countP (fun b => !judge b) = boards.length := by
  rw [List.length_eq_countP_add_countP judge]
  congr 2
  funext b
  cases judge b <;> rfl

/-- Some of the boards of sorted examples are of one kind no more often than the
side of that kind is long. -/
theorem Examples.Sorted.countP_le_of_subperm {wantValid wantInvalid : Nat}
    (hsorted : found.Sorted judge wantValid wantInvalid) (hsub : boards.Subperm found.boards) :
    boards.countP judge ≤ found.valid.length ∧
      boards.countP (fun b => !judge b) ≤ found.invalid.length :=
  ⟨hsorted.countP_judge ▸ hsub.countP_le judge,
    hsorted.countP_not_judge ▸ hsub.countP_le fun b => !judge b⟩

/-- The first boards of a pool that holds too few of either kind to fill the
stages. -/
theorem Examples.Sorted.mixed_of_perm (hsorted : found.Sorted judge (count - 1) (count - 1))
    (hperm : boards.Perm found.boards) :
    found.Mixed judge count (Stage.listOf judge (boards.take count)) := by
  have hsub : (boards.take count).Subperm found.boards :=
    (List.take_sublist _ _).subperm.trans hperm.subperm
  obtain ⟨hvalid_le, hinvalid_le⟩ := hsorted.countP_le_of_subperm hsub
  have hkinds := countP_judge_add_countP_not judge (boards.take count)
  have htake : (boards.take count).length = min count (found.valid.length + found.invalid.length) := by
    rw [List.length_take, hperm.length_eq, Examples.boards, List.length_append]
  have hlength : (Stage.listOf judge (boards.take count)).length =
      min count (found.valid.length + found.invalid.length) := by rw [Stage.listOf, List.length_map, htake]
  have hroom := hsorted.valid_le
  have hroom' := hsorted.invalid_le
  refine ⟨hlength, ?_, ?_, ?_, ?_, ?_, ?_⟩
  · rw [Stage.map_board_listOf]
    exact hsub
  · intro stage hstage
    obtain ⟨b, -, rfl⟩ := List.mem_map.mp hstage
    rfl
  · rw [Stage.countP_valid_listOf]
    exact hvalid_le
  · rw [Stage.countP_not_valid_listOf]
    exact hinvalid_le
  · -- with all boards taken both kinds are there; with some left out, one kind is not enough
    have hcounts : 0 < (boards.take count).countP judge ∧ 0 < (boards.take count).countP (fun b => !judge b) ↔
        0 < found.valid.length ∧ 0 < found.invalid.length := by omega
    rw [← Stage.countP_valid_listOf, ← Stage.countP_not_valid_listOf, List.countP_pos_iff,
      List.countP_pos_iff] at hcounts
    simpa only [List.length_pos_iff, Bool.not_eq_true'] using hcounts
  · intro hcount hcomplete
    simp only [Examples.isComplete, Bool.and_eq_true, decide_eq_true_eq] at hcomplete
    omega

end

/-! ## Challenges -/

namespace Session

variable {σ : Type} [WordSource σ]

/-- A challenge asks for examples, shuffles them and judges the first. -/
theorem challenge_eq_some_iff {s t : Session σ} {count : Nat} {stages : List Stage} :
    s.challenge count = some (stages, t) ↔
      ∃ found between boards, s.examples (count - 1) (count - 1) = some (found, between) ∧
        between.shuffle found.boards = some (boards, t) ∧ stages = Stage.listOf t.judge (boards.take count) := by
  simp only [challenge, Option.bind_eq_bind, Option.bind_eq_some_iff, Option.pure_def, Option.some.injEq,
    Prod.mk.injEq, Prod.exists]
  refine ⟨?_, ?_⟩
  · rintro ⟨found, between, hfound, boards, after, hshuffle, rfl, rfl⟩
    exact ⟨found, between, boards, hfound, hshuffle, rfl⟩
  · rintro ⟨found, between, boards, hfound, hshuffle, rfl⟩
    exact ⟨found, between, hfound, boards, t, hshuffle, rfl, rfl⟩

/-- **A challenge is one-sided only if nothing was found on the other side.** For
every session, every number of stages and every source: whatever examples the
session finds, once the shuffle is answered the challenge is a mix of them as
`Examples.Mixed` says, judged by the rule of the round, and only the source of
the session moves on. -/
theorem challenge_mixed {s between : Session σ} {count : Nat} {found : Examples}
    (hfound : s.examples (count - 1) (count - 1) = some (found, between))
    (hshuffle : (Draw.shuffle found.boards).Answered Draw.patience between.source) :
    ∃ stages t, s.challenge count = some (stages, t) ∧ found.Mixed s.judge count stages ∧
      t = { s with source := t.source } := by
  obtain ⟨source, -, rfl⟩ := exists_of_play_eq_some hfound
  obtain ⟨boards, after, hrun, hperm⟩ := Draw.exists_run_of_ensures (Draw.ensures_shuffle _) hshuffle
  refine ⟨Stage.listOf s.judge (boards.take count), { s with source := after }, ?_, ?_, rfl⟩
  · refine challenge_eq_some_iff.mpr ⟨found, _, boards, hfound, ?_, rfl⟩
    simp only [shuffle, play, hrun]
  · exact (Examples.sorted_of_examples hfound).mixed_of_perm hperm

/-- A session in which some circle is to be red, over a source that draws the
empty board and then a single red circle. -/
theorem red_circle_challenge_mixed :
    ∃ (r : Rule) (found : Examples) (between : Session Script) (stages : List Stage) (t : Session Script),
      Rule.build Grammar.standard (.someIs (.noun 1 0) (.pred 0 0)) = .ok r ∧
      examples ⟨Script.mk [0, 0x8000000000000000], Grammar.standard, ⟨500, ⟨0, 1⟩⟩, r, 1⟩ 1 1 =
        some (found, between) ∧
      challenge ⟨Script.mk [0, 0x8000000000000000], Grammar.standard, ⟨500, ⟨0, 1⟩⟩, r, 1⟩ 2 =
        some (stages, t) ∧
      found.Mixed r.judge 2 stages ∧ stages.length = 2 := by
  obtain ⟨r, found, between, hr, hfound, ⟨_, hshuffle⟩, hcomplete⟩ :
      ∃ (r : Rule) (found : Examples) (between : Session Script),
        Rule.build Grammar.standard (.someIs (.noun 1 0) (.pred 0 0)) = .ok r ∧
        examples ⟨Script.mk [0, 0x8000000000000000], Grammar.standard, ⟨500, ⟨0, 1⟩⟩, r, 1⟩
          (2 - 1) (2 - 1) = some (found, between) ∧
        (∃ result, (Draw.shuffle found.boards).run Draw.patience between.source = some result) ∧
        found.isComplete 1 1 = true := ⟨_, _, _, rfl, rfl, ⟨_, rfl⟩, rfl⟩
  obtain ⟨stages, t, hchallenge, hmixed, -⟩ := challenge_mixed hfound (Draw.answered_of_run hshuffle)
  exact ⟨r, found, between, stages, t, hr, hfound, hchallenge, hmixed,
    hmixed.length_eq_of_complete (Nat.le_refl 2) hcomplete⟩

end Session

end HiddenRule
