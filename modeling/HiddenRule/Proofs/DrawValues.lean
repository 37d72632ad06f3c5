import HiddenRule.Random.Source

/-
  The values a draw can have. A draw yields a value if some answers to its
  questions lead there, each among the values the question asks for. Nothing
  is said here of where the answers come from.

  What is proved:
    1. `yields_bind`: the values of a draw that goes on with another.
    2. `yields_of_run`: over every source of words, the value of a run is one
       that the draw yields.
-/

namespace HiddenRule

namespace Question

/-- Whether a value can answer a question. A question about no values at all
is answered 0. -/
def Admits (q : Question) (v : Nat) : Prop := v ≤ q.count - 1

theorem Admits.lt {q : Question} {v : Nat} (h : q.Admits v) (hq : 0 < q.count) : v < q.count := by
  unfold Admits at h
  omega

theorem admits_of_lt {q : Question} {v : Nat} (h : v < q.count) : q.Admits v := by
  unfold Admits
  omega

theorem admits_value {q : Question} {word : Nat} (h : word < q.span) : q.Admits (q.value word) := by
  cases hc : q.count with
  | zero => simp [Admits, value, hc]
  | succ n =>
    apply admits_of_lt
    show word * q.count / q.span < q.count
    have hspan : 0 < q.span := by omega
    rw [Nat.div_lt_iff_lt_mul hspan, Nat.mul_comm]
    exact Nat.mul_lt_mul_of_pos_left h (by omega)

end Question

section
variable {σ : Type} [WordSource σ]

theorem Reading.next_lt (r : Reading) (s : σ) : (r.next s).1 < 1 <<< r.bits := by
  cases r with
  | index => exact (WordSource.next64 s).1.toNat_lt
  | exchange => exact (WordSource.next32 s).1.toNat_lt
  | weight => exact (WordSource.next32 s).1.toNat_lt

/-- A question is settled by a value it asks for. -/
theorem Question.admits_of_settle {q : Question} {patience v : Nat} {s after : σ}
    (h : q.settle patience s = some (v, after)) : q.Admits v := by
  induction patience generalizing s with
  | zero => simp [settle] at h
  | succ patience ih =>
    simp only [settle] at h
    split at h
    · simp only [Option.some.injEq, Prod.mk.injEq] at h
      rw [← h.1]
      exact admits_value (q.reading.next_lt s)
    · exact ih h

end

namespace Draw

variable {α β : Type}

/-- Whether some answers to its questions lead a draw to a value. -/
def Yields : Draw α → α → Prop
  | done b, a => b = a
  | stuck, _ => False
  | ask q next, a => ∃ v, q.Admits v ∧ (next v).Yields a

@[simp] theorem yields_done (b a : α) : (done b).Yields a ↔ b = a := Iff.rfl

@[simp] theorem not_yields_stuck (a : α) : ¬(stuck : Draw α).Yields a := id

theorem yields_ask (q : Question) (next : Nat → Draw α) (a : α) :
    (ask q next).Yields a ↔ ∃ v, q.Admits v ∧ (next v).Yields a := Iff.rfl

theorem yields_bind (d : Draw α) (f : α → Draw β) (b : β) :
    (d >>= f).Yields b ↔ ∃ a, d.Yields a ∧ (f a).Yields b := by
  induction d with
  | done a => simp
  | stuck => simp
  | ask q next ih =>
    rw [ask_bind]
    simp only [yields_ask, ih]
    refine ⟨?_, ?_⟩
    · intro h
      obtain ⟨v, hv, a, ha, hb⟩ := h
      exact ⟨a, ⟨v, hv, ha⟩, hb⟩
    · intro h
      obtain ⟨a, ⟨v, hv, ha⟩, hb⟩ := h
      exact ⟨v, hv, a, ha, hb⟩

/-- Over every source of words, a run ends with a value that the draw yields. -/
theorem yields_of_run {σ : Type} [WordSource σ] {patience : Nat} {d : Draw α} {s after : σ} {a : α}
    (h : d.run patience s = some (a, after)) : d.Yields a := by
  induction d generalizing s with
  | done b =>
    simp only [run, Option.some.injEq, Prod.mk.injEq] at h
    exact h.1
  | stuck => simp [run] at h
  | ask q next ih =>
    simp only [run] at h
    split at h
    · contradiction
    · next v between hv => exact ⟨v, Question.admits_of_settle hv, ih v h⟩

/-! ## Single choices -/

theorem yields_lessThan {n v : Nat} (hn : 0 < n) : (lessThan n).Yields v ↔ v < n := by
  refine ⟨?_, ?_⟩
  · intro h
    obtain ⟨x, hx, rfl⟩ := h
    exact hx.lt hn
  · intro hv
    exact ⟨v, Question.admits_of_lt hv, rfl⟩

end Draw

end HiddenRule
