import HiddenRule.Proofs.Steering
import Mathlib.Algebra.BigOperators.Group.Finset.Basic
import Mathlib.Data.Finset.Union
import Mathlib.Data.Nat.Count
import Mathlib.Order.Interval.Finset.Nat

/-
  How many words settle a question with each of its values. In a weighted choice
  the words for one value stand together, and there are as many of them for each
  value as all words can give to each alike. A question reads words until one
  answers it.

  What is proved:
    1. `Question.settle_of_gives`: a question is settled by the first word that
       answers it.
    2. `Question.answer_eq_some_iff`: the words that settle the question of a
       weighted choice with one value.
    3. `Question.count_answer`: the number of words that settle it with values
       of some kind.
-/

namespace HiddenRule

namespace Reading

variable {σ : Type} [WordSource σ]

/-- Whether a source gives the listed words first, and what is left of it then. -/
def Gives (r : Reading) : (words : List Nat) → (s after : σ) → Prop
  | [], s, after => after = s
  | word :: rest, s, after => ∃ between, r.next s = (word, between) ∧ r.Gives rest between after

theorem Gives.lt {r : Reading} {words : List Nat} {s after : σ} (h : r.Gives words s after) :
    ∀ word ∈ words, word < 1 <<< r.bits := by
  induction words generalizing s with
  | nil => exact fun _ hword => absurd hword List.not_mem_nil
  | cons word rest ih =>
    obtain ⟨between, hnext, hrest⟩ := h
    rintro x (_ | ⟨_, hx⟩)
    · have hlt := r.next_lt s
      rwa [hnext] at hlt
    · exact ih hrest x hx

end Reading

namespace Question

/-- What a word settles a question with, if it is accepted. -/
def answer? (q : Question) (word : Nat) : Option Nat :=
  if q.accepts word then some (q.value word) else none

theorem answer_eq_some {q : Question} {word v : Nat} :
    q.answer? word = some v ↔ q.accepts word = true ∧ q.value word = v := by
  unfold answer?
  split
  · next h => simp [h]
  · next h => simp [h]

theorem lt_of_answer {q : Question} {word v : Nat} (hpos : 0 < q.count) (hword : word < q.span)
    (h : q.answer? word = some v) : v < q.count := by
  obtain ⟨-, rfl⟩ := answer_eq_some.mp h
  exact (admits_value hword).lt hpos

/-! ## The words read for one question -/

section
variable {σ : Type} [WordSource σ] {q : Question} {s after : σ} {word v : Nat}

/-- A word that answers a question settles it. -/
theorem settle_of_answer (patience : Nat) (hnext : q.reading.next s = (word, after))
    (h : q.answer? word = some v) : q.settle (patience + 1) s = some (v, after) := by
  obtain ⟨haccepts, hvalue⟩ := answer_eq_some.mp h
  simp only [settle, hnext, haccepts, if_true, hvalue]

/-- After a word that does not, the question is asked again. -/
theorem settle_of_rejected (patience : Nat) (hnext : q.reading.next s = (word, after))
    (h : q.answer? word = none) : q.settle (patience + 1) s = q.settle patience after := by
  have hrejected : ¬q.accepts word = true := fun haccepts => by simp [answer?, haccepts] at h
  simp only [settle, hnext, if_neg hrejected]

/-- A question is settled by the first word that answers it. -/
theorem settle_of_gives {rejected : List Nat} {patience : Nat} (hrejected : ∀ r ∈ rejected, q.answer? r = none)
    (h : q.answer? word = some v) (hgives : q.reading.Gives (rejected ++ [word]) s after)
    (hpatience : rejected.length < patience) : q.settle patience s = some (v, after) := by
  -- each rejected word takes one from the patience
  induction rejected generalizing s patience with
  | nil =>
    obtain ⟨patience, rfl⟩ : ∃ n, patience = n + 1 := Nat.exists_eq_succ_of_ne_zero hpatience.ne'
    obtain ⟨between, hnext, rfl⟩ := hgives
    exact settle_of_answer patience hnext h
  | cons r rejected ih =>
    obtain ⟨patience, rfl⟩ : ∃ n, patience = n + 1 := Nat.exists_eq_succ_of_ne_zero (Nat.ne_zero_of_lt hpatience)
    obtain ⟨between, hnext, hgives⟩ := hgives
    rw [settle_of_rejected patience hnext (hrejected r List.mem_cons_self)]
    exact ih (fun x hx => hrejected x (List.mem_cons_of_mem r hx)) hgives (Nat.lt_of_succ_lt_succ hpatience)

end

/-! ## The words for one value -/

section
variable {n v : Nat}

/-- A weighted choice accepts the low halves below the greatest multiple of the
count. -/
theorem accepts_weight_iff (hpos : 0 < n) (hn : n ≤ UInt32.size) (word : Nat) :
    accepts ⟨.weight, n⟩ word = true ↔ word * n % UInt32.size < n * (UInt32.size / n) := by
  have hparts : n * (UInt32.size / n) + UInt32.size % n = UInt32.size := Nat.div_add_mod _ _
  have hrest : UInt32.size % n < n := Nat.mod_lt _ hpos
  have hzone : zone ⟨.weight, n⟩ = UInt32.size - 1 - UInt32.size % n := rfl
  simp only [accepts, span_weight, hzone, decide_eq_true_eq]
  omega

/-- A word settles the question of a weighted choice with a value if the value is
the high half of its product with the count, and the low half is accepted. -/
theorem answer_weight_iff (hv : v < n) (hn : n ≤ UInt32.size) (word : Nat) :
    answer? ⟨.weight, n⟩ word = some v ↔
      v * UInt32.size ≤ word * n ∧ word * n < v * UInt32.size + n * (UInt32.size / n) := by
  have hsplit : word * n / UInt32.size * UInt32.size + word * n % UInt32.size = word * n :=
    Nat.div_add_mod' _ _
  have hbound : n * (UInt32.size / n) ≤ UInt32.size := Nat.mul_div_le _ _
  rw [answer_eq_some, accepts_weight_iff (by omega) hn]
  show _ ∧ word * n / UInt32.size = v ↔ _
  constructor
  · rintro ⟨hlow, rfl⟩
    omega
  · rintro ⟨hle, hlt⟩
    have hvalue : word * n / UInt32.size = v := by
      rw [Nat.div_eq_iff (by decide)]
      omega
    rw [hvalue] at hsplit
    exact ⟨by omega, hvalue⟩

/-- The least multiple of a number that reaches another. -/
theorem exists_least_multiple (hpos : 0 < n) (x : Nat) : ∃ k e, e < n ∧ k * n = x + e := by
  have hround : (x + (n - 1)) / n * n + (x + (n - 1)) % n = x + (n - 1) := Nat.div_add_mod' _ _
  have hrest : (x + (n - 1)) % n < n := Nat.mod_lt _ hpos
  exact ⟨(x + (n - 1)) / n, n - 1 - (x + (n - 1)) % n, by omega, by omega⟩

/-- The words that settle the question of a weighted choice with one value stand
together. The first of them is the least whose product with the count reaches
the value. -/
theorem answer_eq_some_iff (hv : v < n) (hn : n ≤ UInt32.size) :
    ∃ first, first + UInt32.size / n ≤ UInt32.size ∧
      ∀ word, answer? ⟨.weight, n⟩ word = some v ↔ first ≤ word ∧ word < first + UInt32.size / n := by
  obtain ⟨first, e, he, hfirst⟩ := exists_least_multiple (show 0 < n by omega) (v * UInt32.size)
  have hlast : (first + UInt32.size / n) * n = v * UInt32.size + e + n * (UInt32.size / n) := by
    rw [Nat.add_mul, hfirst, Nat.mul_comm n]
  refine ⟨first, ?_, ?_⟩
  · have hbelow : (first + UInt32.size / n) * n < (UInt32.size + 1) * n := by
      calc (first + UInt32.size / n) * n
          = v * UInt32.size + e + n * (UInt32.size / n) := hlast
        _ ≤ v * UInt32.size + e + UInt32.size := Nat.add_le_add_left (Nat.mul_div_le _ _) _
        _ = (v + 1) * UInt32.size + e := by rw [Nat.succ_mul]; omega
        _ < n * UInt32.size + n := Nat.add_lt_add_of_le_of_lt (Nat.mul_le_mul_right _ hv) he
        _ = (UInt32.size + 1) * n := by rw [Nat.succ_mul, Nat.mul_comm]
    exact Nat.lt_succ_iff.mp (Nat.lt_of_mul_lt_mul_right hbelow)
  · intro word
    rw [answer_weight_iff hv hn]
    constructor
    · rintro ⟨hle, hlt⟩
      have hfrom : first * n < (word + 1) * n := by rw [Nat.succ_mul]; omega
      have hto : word * n < (first + UInt32.size / n) * n := by omega
      exact ⟨Nat.lt_succ_iff.mp (Nat.lt_of_mul_lt_mul_right hfrom), Nat.lt_of_mul_lt_mul_right hto⟩
    · rintro ⟨hle, hlt⟩
      have hfrom : first * n ≤ word * n := Nat.mul_le_mul_right n hle
      have hto : (word + 1) * n ≤ (first + UInt32.size / n) * n := Nat.mul_le_mul_right n hlt
      rw [Nat.succ_mul] at hto
      omega

/-- Each value has the same number of words. -/
theorem count_answer_eq_some (hv : v < n) (hn : n ≤ UInt32.size) :
    Nat.count (fun word => answer? ⟨.weight, n⟩ word = some v) UInt32.size = UInt32.size / n := by
  obtain ⟨first, hlast, hiff⟩ := answer_eq_some_iff hv hn
  have hwords : (Finset.range UInt32.size).filter (fun word => answer? ⟨.weight, n⟩ word = some v) =
      Finset.Ico first (first + UInt32.size / n) := by
    ext word
    rw [Finset.mem_filter, Finset.mem_range, hiff, Finset.mem_Ico, and_iff_right_iff_imp]
    omega
  rw [Nat.count_eq_card_filter_range, hwords, Nat.card_Ico, Nat.add_sub_cancel_left]

/-- Where each value below a count is met equally often, values of some kind are
met that often for each of them. -/
theorem count_any {f : Nat → Option Nat} {n words times : Nat}
    (hf : ∀ word < words, ∀ v, f word = some v → v < n)
    (htimes : ∀ v < n, Nat.count (fun word => f word = some v) words = times) (P : Nat → Bool) :
    Nat.count (fun word => (f word).any P) words = Nat.count (fun v => P v) n * times := by
  let kind := (Finset.range n).filter fun v => P v
  let met (v : Nat) := (Finset.range words).filter fun word => f word = some v
  have hunion : (Finset.range words).filter (fun word => (f word).any P) = kind.biUnion met := by
    ext word
    simp only [kind, met, Finset.mem_filter, Finset.mem_range, Finset.mem_biUnion, Option.any_eq_true]
    constructor
    · rintro ⟨hword, v, hv, hP⟩
      exact ⟨v, ⟨hf word hword v hv, hP⟩, hword, hv⟩
    · rintro ⟨v, ⟨-, hP⟩, hword, hv⟩
      exact ⟨hword, v, hv, hP⟩
  have hdisjoint : (kind : Set Nat).PairwiseDisjoint met := by
    intro u _ v _ hne
    apply Finset.disjoint_left.mpr
    intro word hu hv
    have heq := (Finset.mem_filter.mp hu).2.symm.trans (Finset.mem_filter.mp hv).2
    exact hne (Option.some.inj heq)
  calc Nat.count (fun word => (f word).any P) words
      = ∑ v ∈ kind, (met v).card := by
        rw [Nat.count_eq_card_filter_range, hunion, Finset.card_biUnion hdisjoint]
    _ = kind.card * times := by
        refine Finset.sum_const_nat fun v hv => ?_
        rw [← htimes v (Finset.mem_range.mp (Finset.mem_filter.mp hv).1), Nat.count_eq_card_filter_range]
    _ = Nat.count (fun v => P v) n * times := by rw [Nat.count_eq_card_filter_range]

/-- Values of some kind have the words of each of them. -/
theorem count_answer (hpos : 0 < n) (hn : n ≤ UInt32.size) (P : Nat → Bool) :
    Nat.count (fun word => (answer? ⟨.weight, n⟩ word).any P) UInt32.size =
      Nat.count (fun v => P v) n * (UInt32.size / n) := by
  refine count_any ?_ (fun v hv => count_answer_eq_some hv hn) P
  intro word hword v hv
  exact lt_of_answer hpos hword hv

end

end Question

end HiddenRule
