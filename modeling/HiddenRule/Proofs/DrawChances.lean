import HiddenRule.Proofs.DrawAnswers
import Mathlib.Algebra.BigOperators.Field
import Mathlib.Algebra.BigOperators.Intervals
import Mathlib.Data.Rat.Defs
import Mathlib.Tactic.FieldSimp
import Mathlib.Tactic.Ring

/-
  Draws as distributions. A question is answered by one of its values, all
  equally likely and whatever the answers before it were. The mean of a number
  over a draw is then the average, over these values, of its means over what
  follows each of them; a draw that is stuck counts for nothing. The chance of a
  value is the mean of the number that is 1 there and 0 elsewhere.

  What is proved:
    1. `mean_bind`: the mean over a draw that goes on with another is the mean,
       over the one, of the means over the other.
    2. `mean_congr`, `chance_eq_zero`: only the values that a draw yields count.
    3. `Answerable.mean_const`: the chances of all values of a draw that can be
       answered make up 1.
-/

namespace HiddenRule.Draw

variable {α β : Type}

/-- The mean of a number that depends on the value of a draw. -/
def mean : Draw α → (α → ℚ) → ℚ
  | done a, number => number a
  | stuck, _ => 0
  | ask q next, number => (∑ v ∈ Finset.range q.count, (next v).mean number) / q.count

/-- The chance that a draw ends with a value. -/
def chance [DecidableEq α] (d : Draw α) (a : α) : ℚ := d.mean fun b => if b = a then 1 else 0

theorem mean_bind (d : Draw α) (f : α → Draw β) (number : β → ℚ) :
    (d >>= f).mean number = d.mean fun a => (f a).mean number := by
  induction d with
  | done a => rfl
  | stuck => rfl
  | ask q next ih =>
    rw [ask_bind, mean, mean]
    simp only [ih]

theorem mean_congr {d : Draw α} {number other : α → ℚ} (h : ∀ a, d.Yields a → number a = other a) :
    d.mean number = d.mean other := by
  induction d with
  | done a => exact h a rfl
  | stuck => rfl
  | ask q next ih =>
    rw [mean, mean]
    congr 1
    refine Finset.sum_congr rfl fun v hv => ih v fun a ha => h a ⟨v, ?_, ha⟩
    exact Question.admits_of_lt (Finset.mem_range.mp hv)

theorem mean_const_mul (d : Draw α) (c : ℚ) (number : α → ℚ) :
    (d.mean fun a => c * number a) = c * d.mean number := by
  induction d with
  | done a => rfl
  | stuck => exact (mul_zero c).symm
  | ask q next ih =>
    rw [mean, mean]
    simp only [ih]
    rw [← Finset.mul_sum, mul_div_assoc]

/-- The chances of all values make up 1. -/
theorem Answerable.mean_const {d : Draw α} (h : d.Answerable) (c : ℚ) : (d.mean fun _ => c) = c := by
  induction d with
  | done a => rfl
  | stuck => exact h.elim
  | ask q next ih =>
    obtain ⟨hpos, hnext⟩ := h
    have hsum : ∑ v ∈ Finset.range q.count, (next v).mean (fun _ => c) = q.count * c := by
      calc ∑ v ∈ Finset.range q.count, (next v).mean (fun _ => c)
          = ∑ v ∈ Finset.range q.count, c := Finset.sum_congr rfl fun v hv =>
            ih v (hnext v (Question.admits_of_lt (Finset.mem_range.mp hv)))
        _ = q.count * c := by rw [Finset.sum_const, Finset.card_range, nsmul_eq_mul]
    have hne : (q.count : ℚ) ≠ 0 := Nat.cast_ne_zero.mpr hpos.ne'
    rw [mean, hsum, mul_div_cancel_left₀ c hne]

theorem mean_zero (d : Draw α) : (d.mean fun _ => 0) = 0 := by
  have h := mean_const_mul d 0 fun _ => 0
  simpa only [zero_mul] using h

/-- What a draw does not yield has no chance. -/
theorem chance_eq_zero [DecidableEq α] {d : Draw α} {a : α} (h : ¬d.Yields a) : d.chance a = 0 := by
  have hne : ∀ b, d.Yields b → b ≠ a := by
    rintro b hb rfl
    exact h hb
  calc d.chance a
      = d.mean fun _ => 0 := mean_congr fun b hb => if_neg (hne b hb)
    _ = 0 := mean_zero d

theorem chance_bind [DecidableEq β] (d : Draw α) (f : α → Draw β) (b : β) :
    (d >>= f).chance b = d.mean fun a => (f a).chance b := mean_bind d f _

/-- What is made of the value of a draw has the chance of that value, if nothing
else is made into the same. -/
theorem chance_bind_done [DecidableEq α] [DecidableEq β] {d : Draw α} {f : α → β} {a : α}
    (h : ∀ x, d.Yields x → f x = f a → x = a) : (d >>= fun x => done (f x)).chance (f a) = d.chance a := by
  rw [chance_bind]
  apply mean_congr
  intro x hx
  by_cases heq : x = a
  · rw [heq, if_pos rfl]
    exact if_pos rfl
  · rw [if_neg heq]
    exact if_neg fun hf => heq (h x hx hf)

theorem mean_lessThan (n : Nat) (number : Nat → ℚ) :
    (lessThan n).mean number = (∑ v ∈ Finset.range n, number v) / n := rfl

/-- A number that is the same for the first values, and again for the others. -/
theorem mean_lessThan_ite (few others : Nat) (x y : ℚ) :
    ((lessThan (few + others)).mean fun v => if v < few then x else y) =
      (few * x + others * y) / (few + others : ℕ) := by
  have hfew : ∑ v ∈ Finset.range few, (if v < few then x else y) = few * x := by
    rw [Finset.sum_congr rfl fun v hv => if_pos (Finset.mem_range.mp hv), Finset.sum_const, Finset.card_range,
      nsmul_eq_mul]
  have hothers : ∑ v ∈ Finset.range others, (if few + v < few then x else y) = others * y := by
    rw [Finset.sum_congr rfl fun v _ => if_neg (Nat.not_lt.mpr (Nat.le_add_right few v)), Finset.sum_const,
      Finset.card_range, nsmul_eq_mul]
  rw [mean_lessThan, Finset.sum_range_add, hfew, hothers]

end HiddenRule.Draw
