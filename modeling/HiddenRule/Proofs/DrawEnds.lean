import HiddenRule.Proofs.TagThreads

/-
  Draws that come to an end with what is asked for. A draw ensures a property
  if every choice of answers leads it to a value with the property; it is
  answered over a source if each question that comes up there is settled. The
  first says nothing of sources, the second nothing of values.

  What is proved:
    1. `ensures_bind`: what a draw that goes on with another ensures.
    2. `exists_run_of_ensures`: over a source that answers it, a draw runs to
       its end, and ends with what it ensures.
    3. `finds_draw_succ`: a fragment is found where its category offers an
       alternative and the children of every such alternative are found.
-/

namespace HiddenRule

namespace Draw

variable {α β : Type}

/-- Whether all answers to its questions lead a draw to a value with a
property. A draw that is stuck ensures nothing. -/
def Ensures (P : α → Prop) : Draw α → Prop
  | done a => P a
  | stuck => False
  | ask q next => ∀ v, q.Admits v → (next v).Ensures P

/-- Whether each question that a draw asks over a source is settled. -/
def Answered {σ : Type} [WordSource σ] (patience : Nat) : Draw α → σ → Prop
  | done _, _ => True
  | stuck, _ => True
  | ask q next, s => ∃ v after, q.settle patience s = some (v, after) ∧ (next v).Answered patience after

theorem ensures_bind {P : β → Prop} (d : Draw α) (f : α → Draw β) :
    (d >>= f).Ensures P ↔ d.Ensures fun a => (f a).Ensures P := by
  induction d with
  | done a => rfl
  | stuck => rfl
  | ask q next ih =>
    rw [ask_bind]
    exact forall₂_congr fun v _ => ih v

/-- A draw that ensures something ensures whatever follows of what it yields. -/
theorem Ensures.of_yields {P Q : α → Prop} {d : Draw α} (h : d.Ensures P)
    (hyields : ∀ a, d.Yields a → P a → Q a) : d.Ensures Q := by
  induction d with
  | done a => exact hyields a rfl h
  | stuck => exact h
  | ask q next ih =>
    intro v hv
    exact ih v (h v hv) fun a ha => hyields a ⟨v, hv, ha⟩

theorem Ensures.of_bind {P : β → Prop} {Q : α → Prop} {d : Draw α} {f : α → Draw β} (h : d.Ensures Q)
    (hf : ∀ a, d.Yields a → Q a → (f a).Ensures P) : (d >>= f).Ensures P :=
  (ensures_bind d f).mpr (h.of_yields hf)

/-- Over a source that answers it, a draw ends with what it ensures. -/
theorem exists_run_of_ensures {σ : Type} [WordSource σ] {P : α → Prop} {patience : Nat} {d : Draw α} {s : σ}
    (h : d.Ensures P) (hanswered : d.Answered patience s) :
    ∃ a after, d.run patience s = some (a, after) ∧ P a := by
  induction d generalizing s with
  | done a => exact ⟨a, s, rfl, h⟩
  | stuck => exact h.elim
  | ask q next ih =>
    obtain ⟨v, between, hsettle, hnext⟩ := hanswered
    obtain ⟨a, after, hrun, ha⟩ := ih v (h v (Question.admits_of_settle hsettle)) hnext
    refine ⟨a, after, ?_, ha⟩
    simp only [run, hsettle, hrun]

/-- A draw that runs to its end is answered. -/
theorem answered_of_run {σ : Type} [WordSource σ] {patience : Nat} {d : Draw α} {s after : σ} {a : α}
    (h : d.run patience s = some (a, after)) : d.Answered patience s := by
  induction d generalizing s with
  | done b => trivial
  | stuck => trivial
  | ask q next ih =>
    simp only [run] at h
    split at h
    · contradiction
    · next v between hsettle => exact ⟨v, between, hsettle, ih v h⟩

theorem ensures_weighted {P : Option α → Prop} {candidates : List (α × Nat)}
    (hsum : weightSum candidates ≠ 0)
    (hP : ∀ a w, (a, w) ∈ candidates → 0 < w → P (some a)) : (weighted candidates).Ensures P := by
  have hends : (weighted candidates).Ensures fun _ => True := by
    unfold weighted
    split
    · trivial
    · intro v _
      trivial
  apply hends.of_yields
  intro picked hpicked _
  obtain ⟨a, w, rfl, hmem, hw⟩ := exists_of_yields_weighted hsum hpicked
  exact hP a w hmem hw

/-- Whether a draw that can fail comes to an end and never fails. -/
structure Finds {ε : Type} (d : Draw (Except ε α)) : Prop where
  ensures : d.Ensures fun result => ∃ a, result = .ok a

end Draw

/-! ## Fragments -/

namespace Grammar

variable {g : Grammar} {one : Category → TagSet → Draw (Except RuleError (Skeleton × TagSet))}

/-- Whether a category has an alternative to choose under the active tags: the last
sum of the weights of those that can be chosen is not 0. -/
def Offers (g : Grammar) (c : Category) (active : TagSet) : Prop :=
  Draw.weightSum (g.candidates c active) ≠ 0

theorem finds_drawChildren_nil (reaching : Option TagSet) (tags : TagSet) :
    (drawChildren one reaching [] tags).Finds := ⟨⟨_, rfl⟩⟩

/-- The children are found if the first is, and the others are under whatever
tags the first leaves active. -/
theorem finds_drawChildren_cons {reaching : Option TagSet} {slot : Category} {rest : List Category}
    {tags : TagSet} (hfirst : (one slot (reaching.getD tags)).Finds)
    (hrest : ∀ child after, (one slot (reaching.getD tags)).Yields (.ok (child, after)) →
      (drawChildren one reaching rest (if reaching.isSome then tags else after)).Finds) :
    (drawChildren one reaching (slot :: rest) tags).Finds := by
  constructor
  simp only [drawChildren]
  apply Draw.Ensures.of_bind hfirst.ensures
  intro first hyields hfound
  obtain ⟨⟨child, after⟩, rfl⟩ := hfound
  apply Draw.Ensures.of_bind (hrest child after hyields).ensures
  intro others _ hothers
  obtain ⟨⟨children, last⟩, rfl⟩ := hothers
  exact ⟨_, rfl⟩

theorem ensures_drawChoice (a : Alternative) : (drawChoice a).Ensures fun _ => True := by
  unfold drawChoice
  split
  · trivial
  · intro v _
    trivial

/-- A fragment is found if its category offers an alternative and the children
of every alternative that it offers are found. -/
theorem finds_draw_succ {depth : Nat} {c : Category} {active : TagSet} (hoffers : g.Offers c active)
    (hchildren : ∀ i a, g.alternative? c i = some a → a.isEligible active = true → 0 < a.weight →
      (drawChildren (g.draw depth) (a.reaching active) a.slots (active.union a.tags)).Finds) :
    (g.draw (depth + 1) c active).Finds := by
  have hpicked : (Draw.weighted (g.candidates c active)).Ensures fun picked => ∃ i a, picked = some (i, a) ∧
      g.alternative? c i = some a ∧ a.isEligible active = true ∧ 0 < a.weight := by
    apply Draw.ensures_weighted hoffers
    intro entry w hmem hw
    obtain ⟨hnamed, heligible, rfl⟩ := mem_candidates.mp hmem
    exact ⟨entry.1, entry.2, rfl, hnamed, heligible, entry.2.weight_pos_iff.mpr hw⟩
  constructor
  simp only [draw]
  apply Draw.Ensures.of_bind hpicked
  intro picked _ hpick
  obtain ⟨i, a, rfl, hnamed, heligible, hw⟩ := hpick
  apply Draw.Ensures.of_bind (hchildren i a hnamed heligible hw).ensures
  intro result _ hfound
  obtain ⟨⟨children, after⟩, rfl⟩ := hfound
  apply Draw.Ensures.of_bind (ensures_drawChoice a)
  intro choice _ _
  exact ⟨_, rfl⟩

end Grammar

end HiddenRule
