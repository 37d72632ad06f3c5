import HiddenRule.Session
import Mathlib.Logic.Relation

/-
  Runs of sessions. Whatever is done in a session is a new round or a draw over
  its source; judging a board leaves the session as it is. None of it changes
  the grammar.
-/

namespace HiddenRule.Session

variable {σ : Type} [WordSource σ]

/-- One operation of a session, and the session after it. -/
inductive Step (s : Session σ) : Session σ → Prop where
  | reset {outcome : Except SessionError Unit} {t : Session σ} : s.reset = some (outcome, t) → Step s t
  | play {α : Type} {d : Draw α} {a : α} {t : Session σ} : s.play d = some (a, t) → Step s t

/-- The sessions that operations lead to. -/
def Reaches : Session σ → Session σ → Prop := Relation.ReflTransGen Step

theorem exists_of_play_eq_some {α : Type} {s t : Session σ} {d : Draw α} {a : α} (h : s.play d = some (a, t)) :
    ∃ source, d.run Draw.patience s.source = some (a, source) ∧ t = { s with source := source } := by
  unfold play at h
  split at h
  · contradiction
  · next b source hrun =>
    simp only [Option.some.injEq, Prod.mk.injEq] at h
    exact ⟨source, by rw [hrun, h.1], h.2.symm⟩

/-- A draw moves on the source and leaves the rest of the session. -/
theorem eq_of_play_eq_some {α : Type} {s t : Session σ} {d : Draw α} {a : α} (h : s.play d = some (a, t)) :
    t = { s with source := t.source } := by
  obtain ⟨source, -, rfl⟩ := exists_of_play_eq_some h
  rfl

/-- One operation keeps the grammar. -/
theorem Step.grammar_eq {s t : Session σ} (h : s.Step t) : t.grammar = s.grammar := by
  cases h with
  | play hplay =>
    obtain ⟨source, -, rfl⟩ := exists_of_play_eq_some hplay
    rfl
  | reset hreset =>
    unfold Session.reset at hreset
    split at hreset
    · contradiction
    · next e after hplay =>
      obtain ⟨source, -, rfl⟩ := exists_of_play_eq_some hplay
      simp only [Option.some.injEq, Prod.mk.injEq] at hreset
      rw [← hreset.2]
    · next r after hplay =>
      obtain ⟨source, -, rfl⟩ := exists_of_play_eq_some hplay
      simp only [Option.some.injEq, Prod.mk.injEq] at hreset
      rw [← hreset.2]

theorem Reaches.grammar_eq {s t : Session σ} (h : s.Reaches t) : t.grammar = s.grammar := by
  induction h with
  | refl => rfl
  | tail _ hstep ih => rw [hstep.grammar_eq, ih]

end HiddenRule.Session
