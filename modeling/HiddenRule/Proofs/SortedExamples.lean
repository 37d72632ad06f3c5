import HiddenRule.Proofs.DrawValues
import HiddenRule.Proofs.SessionRuns

/-
  Examples stand where the judge puts them. Each attempt adds a board to its
  side or drops it, so whatever boards are drawn, the sides hold what they say
  and no more than was asked for.

  What is proved:
    1. `Sorted.record`: one attempt keeps the sides sorted.
    2. `sorted_of_yields_drawMore`: so does a whole search, however it goes.
    3. `sorted_of_examples`: the examples of a session are sorted by the rule of
       its round.
-/

namespace HiddenRule.Examples

/-- Whether the boards of examples stand on the sides where a judge puts them,
no more of them than are wanted. -/
structure Sorted (judge : Board → Bool) (wantValid wantInvalid : Nat) (e : Examples) : Prop where
  valid : ∀ b ∈ e.valid, judge b = true
  invalid : ∀ b ∈ e.invalid, judge b = false
  valid_le : e.valid.length ≤ wantValid
  invalid_le : e.invalid.length ≤ wantInvalid

variable {judge : Board → Bool} {wantValid wantInvalid : Nat} {e : Examples}

theorem sorted_empty : empty.Sorted judge wantValid wantInvalid where
  valid := List.forall_mem_nil _
  invalid := List.forall_mem_nil _
  valid_le := Nat.zero_le _
  invalid_le := Nat.zero_le _

/-- A side that a board joins, if there is room, keeps its property and stays
within what is wanted. -/
theorem forall_mem_and_length_le_join {P : Board → Prop} {side : List Board} {want : Nat} {b : Board}
    (hside : ∀ x ∈ side, P x) (hle : side.length ≤ want) (hb : P b) :
    (∀ x ∈ if side.length < want then side ++ [b] else side, P x) ∧
      (if side.length < want then side ++ [b] else side).length ≤ want := by
  split
  · next hroom =>
    refine ⟨List.forall_mem_append.mpr ⟨hside, List.forall_mem_singleton.mpr hb⟩, ?_⟩
    rw [List.length_append, List.length_singleton]
    exact hroom
  · exact ⟨hside, hle⟩

theorem Sorted.record (h : e.Sorted judge wantValid wantInvalid) (b : Board) :
    (e.record wantValid wantInvalid (judge b) b).Sorted judge wantValid wantInvalid := by
  cases hjudge : judge b with
  | true =>
    obtain ⟨hvalid, hle⟩ := forall_mem_and_length_le_join h.valid h.valid_le hjudge
    exact ⟨hvalid, h.invalid, hle, h.invalid_le⟩
  | false =>
    obtain ⟨hinvalid, hle⟩ := forall_mem_and_length_le_join h.invalid h.invalid_le hjudge
    exact ⟨h.valid, hinvalid, h.valid_le, hle⟩

/-- A search ends with sorted examples if it starts with them. -/
theorem sorted_of_yields_drawMore {fill : FillRange} {found : Examples} : ∀ (attempts : Nat) {e : Examples},
    e.Sorted judge wantValid wantInvalid →
    (drawMore judge fill wantValid wantInvalid attempts e).Yields found →
    found.Sorted judge wantValid wantInvalid
  | 0, e, h, hyields => by
    have hfound : e = found := hyields
    exact hfound ▸ h
  | attempts + 1, e, h, hyields => by
    rw [drawMore] at hyields
    split at hyields
    · have hfound : e = found := hyields
      exact hfound ▸ h
    · obtain ⟨b, -, hrest⟩ := (Draw.yields_bind _ _ _).mp hyields
      exact sorted_of_yields_drawMore attempts (h.record b) hrest

theorem sorted_of_yields_draw {sampling : Sampling} {r : Rule}
    (h : (draw sampling r wantValid wantInvalid).Yields e) : e.Sorted r.judge wantValid wantInvalid :=
  sorted_of_yields_drawMore sampling.attemptLimit sorted_empty h

/-- The examples of a session are sorted by the rule of its round. -/
theorem sorted_of_examples {σ : Type} [WordSource σ] {s t : Session σ}
    (h : s.examples wantValid wantInvalid = some (e, t)) : e.Sorted s.judge wantValid wantInvalid := by
  obtain ⟨source, hrun, -⟩ := Session.exists_of_play_eq_some h
  exact sorted_of_yields_draw (Draw.yields_of_run hrun)

/-! ## The boards of both sides -/

theorem Sorted.countP_judge (h : e.Sorted judge wantValid wantInvalid) :
    e.boards.countP judge = e.valid.length := by
  have hvalid : e.valid.countP judge = e.valid.length := List.countP_eq_length.mpr h.valid
  have hinvalid : e.invalid.countP judge = 0 := by
    rw [List.countP_eq_zero]
    intro b hb
    rw [h.invalid b hb]
    exact Bool.false_ne_true
  rw [boards, List.countP_append, hvalid, hinvalid, Nat.add_zero]

theorem Sorted.countP_not_judge (h : e.Sorted judge wantValid wantInvalid) :
    e.boards.countP (fun b => !judge b) = e.invalid.length := by
  have hvalid : e.valid.countP (fun b => !judge b) = 0 := by
    rw [List.countP_eq_zero]
    intro b hb
    rw [h.valid b hb]
    exact Bool.false_ne_true
  have hinvalid : e.invalid.countP (fun b => !judge b) = e.invalid.length := by
    rw [List.countP_eq_length]
    intro b hb
    rw [h.invalid b hb]
    rfl
  rw [boards, List.countP_append, hvalid, hinvalid, Nat.zero_add]

end HiddenRule.Examples
