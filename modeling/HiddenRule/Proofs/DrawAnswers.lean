import HiddenRule.Proofs.DrawEnds

/-
  The questions that a draw asks, with the answers it is given. A draw that can
  be answered always comes to a value: it does not get stuck, and asks for no
  value where there is none to give. Which questions come up depends on the
  answers before them, so what a draw asks is told together with them.

  What is proved:
    1. `Answerable.exists_run`: over a source that settles its questions, a draw
       that can be answered runs to its end.
    2. `leads_of_run`: the answers that a run was given lead to its value.
    3. `leads_bind`: the answers that lead through a draw that goes on with
       another are those for the one and those for the other.
-/

namespace HiddenRule.Draw

variable {α β : Type}

/-- Whether a draw never gets stuck, and each question that it can come to asks
for one of at least one value. -/
def Answerable : Draw α → Prop
  | done _ => True
  | stuck => False
  | ask q next => 0 < q.count ∧ ∀ v, q.Admits v → (next v).Answerable

/-- The questions that a run asks and the answers it is given, in order. -/
def answers {σ : Type} [WordSource σ] (patience : Nat) : Draw α → σ → List (Question × Nat)
  | done _, _ => []
  | stuck, _ => []
  | ask q next, s =>
    match q.settle patience s with
    | none => []
    | some (v, after) => (q, v) :: (next v).answers patience after

/-- Whether a draw asks the listed questions, one after the other, and with the
answers beside them ends with a value. -/
def Leads : Draw α → List (Question × Nat) → α → Prop
  | done b, given, a => given = [] ∧ b = a
  | stuck, _, _ => False
  | ask q next, given, a => ∃ v rest, given = (q, v) :: rest ∧ q.Admits v ∧ (next v).Leads rest a

/-! ## Draws that can be answered -/

theorem Answerable.bind {d : Draw α} {f : α → Draw β} (hd : d.Answerable)
    (hf : ∀ a, d.Yields a → (f a).Answerable) : (d >>= f).Answerable := by
  induction d with
  | done a => exact hf a rfl
  | stuck => exact hd
  | ask q next ih => exact ⟨hd.1, fun v hv => ih v (hd.2 v hv) fun a ha => hf a ⟨v, hv, ha⟩⟩

theorem answerable_lessThan {n : Nat} (h : 0 < n) : (lessThan n).Answerable := ⟨h, fun _ _ => trivial⟩

theorem Answerable.ensures {d : Draw α} (h : d.Answerable) : d.Ensures fun _ => True := by
  induction d with
  | done a => trivial
  | stuck => exact h
  | ask q next ih => exact fun v hv => ih v (h.2 v hv)

/-- Over a source that settles its questions, a draw that can be answered ends
with a value. -/
theorem Answerable.exists_run {σ : Type} [WordSource σ] {patience : Nat} {d : Draw α} {s : σ}
    (h : d.Answerable) (hanswered : d.Answered patience s) : ∃ a after, d.run patience s = some (a, after) := by
  obtain ⟨a, after, hrun, -⟩ := exists_run_of_ensures h.ensures hanswered
  exact ⟨a, after, hrun⟩

/-! ## Answers that lead to a value -/

/-- The answers that a run was given lead to its value. -/
theorem leads_of_run {σ : Type} [WordSource σ] {patience : Nat} {d : Draw α} {s after : σ} {a : α}
    (h : d.run patience s = some (a, after)) : d.Leads (d.answers patience s) a := by
  induction d generalizing s with
  | done b =>
    simp only [run, Option.some.injEq, Prod.mk.injEq] at h
    exact ⟨rfl, h.1⟩
  | stuck => simp [run] at h
  | ask q next ih =>
    simp only [run] at h
    split at h
    · contradiction
    · next v between hsettle =>
      refine ⟨v, (next v).answers patience between, ?_, Question.admits_of_settle hsettle, ih v h⟩
      simp only [answers, hsettle]

theorem Leads.yields {d : Draw α} {given : List (Question × Nat)} {a : α} (h : d.Leads given a) :
    d.Yields a := by
  induction d generalizing given with
  | done b => exact h.2
  | stuck => exact h
  | ask q next ih =>
    obtain ⟨v, rest, -, hv, hrest⟩ := h
    exact ⟨v, hv, ih v hrest⟩

/-- The answers that lead through a draw that goes on with another are those for
the one and those for the other. -/
theorem leads_bind {d : Draw α} {f : α → Draw β} {given : List (Question × Nat)} {b : β} :
    (d >>= f).Leads given b ↔
      ∃ a first rest, given = first ++ rest ∧ d.Leads first a ∧ (f a).Leads rest b := by
  induction d generalizing given with
  | done a =>
    refine ⟨?_, ?_⟩
    · intro h
      exact ⟨a, [], given, rfl, ⟨rfl, rfl⟩, h⟩
    · rintro ⟨_, _, rest, rfl, ⟨rfl, rfl⟩, h⟩
      exact h
  | stuck =>
    refine ⟨False.elim, ?_⟩
    rintro ⟨_, _, _, _, h, -⟩
    exact h
  | ask q next ih =>
    refine ⟨?_, ?_⟩
    · rintro ⟨v, more, rfl, hv, h⟩
      obtain ⟨a, first, rest, rfl, hfirst, hrest⟩ := (ih v).mp h
      exact ⟨a, (q, v) :: first, rest, rfl, ⟨v, first, rfl, hv, hfirst⟩, hrest⟩
    · rintro ⟨a, _, rest, rfl, ⟨v, first, rfl, hv, hfirst⟩, hrest⟩
      exact ⟨v, first ++ rest, rfl, hv, (ih v).mpr ⟨a, first, rest, rfl, hfirst, hrest⟩⟩

theorem leads_lessThan {n v : Nat} {given : List (Question × Nat)} (h : (lessThan n).Leads given v) :
    given = [(⟨.index, n⟩, v)] := by
  obtain ⟨w, rest, rfl, -, rfl, rfl⟩ := h
  rfl

end HiddenRule.Draw
