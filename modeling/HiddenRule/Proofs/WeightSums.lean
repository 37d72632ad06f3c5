import HiddenRule.Proofs.DrawValues

/-
  What a weighted choice comes to, though its sums wrap around. Whatever the
  weights are, a choice ends with a candidate of positive weight, for the sums
  before and after the place where the search ends differ. Which one it is
  follows from the weights only while they do not overflow together: the weights
  can then be laid end to end, and a value falls to the candidate that holds it.

  What is proved:
    1. `toNat_getElem_sums`, `toNat_weightSum`: each sum is the total of the
       weights it covers, but for multiples of `2 ^ 32`.
    2. `exists_mem_of_pick`: a value below the last sum falls to a candidate of
       positive weight, with no bound on the weights.
    3. `exists_of_yields_weighted`: where the last sum is not 0, a choice yields a
       candidate of positive weight, whatever the answers.
    4. `pick_eq_holder`: while the weights are together below `2 ^ 32`, a value
       falls to the candidate that holds it.
-/

namespace HiddenRule.Draw

variable {α : Type}

/-- The weights of all candidates together. -/
def totalWeight : List (α × Nat) → Nat
  | [] => 0
  | (_, w) :: rest => w + totalWeight rest

/-- The candidate that holds a value where the weights are laid end to end: the
first whose weight, with all weights before it, exceeds the value. -/
def holder : (x : Nat) → List (α × Nat) → Option α
  | _, [] => none
  | x, (a, w) :: rest => if x < w then some a else holder (x - w) rest

/-! ## Sums -/

@[simp] theorem length_sums (before : UInt32) (candidates : List (α × Nat)) :
    (sums before candidates).length = candidates.length := by
  induction candidates generalizing before with
  | nil => rfl
  | cons entry rest ih => rw [sums, List.length_cons, List.length_cons, ih]

theorem getElem?_sums (before : UInt32) {candidates : List (α × Nat)} {i : Nat} (hi : i < candidates.length) :
    (sums before candidates)[i]? = some (before + UInt32.ofNat (totalWeight (candidates.take (i + 1)))) := by
  induction candidates generalizing before i with
  | nil => contradiction
  | cons entry rest ih =>
    obtain ⟨a, w⟩ := entry
    cases i with
    | zero => rfl
    | succ i =>
      rw [sums, List.getElem?_cons_succ, ih _ (Nat.lt_of_succ_lt_succ hi), List.take_succ_cons, totalWeight,
        UInt32.ofNat_add, UInt32.add_assoc]

/-- The sum up to a candidate, read as a number. -/
theorem toNat_getElem_sums {candidates : List (α × Nat)} {i : Nat} {sum : UInt32}
    (h : (sums 0 candidates)[i]? = some sum) :
    sum.toNat = totalWeight (candidates.take (i + 1)) % UInt32.size := by
  have hi : i < candidates.length := by
    rw [← length_sums 0 candidates]
    exact (List.getElem?_eq_some_iff.mp h).1
  rw [getElem?_sums 0 hi, UInt32.zero_add] at h
  rw [← Option.some.inj h]
  exact UInt32.toNat_ofNat'

theorem toNat_weightSum (candidates : List (α × Nat)) :
    (weightSum candidates).toNat = totalWeight candidates % UInt32.size := by
  rw [weightSum, List.getLast?_eq_getElem?, length_sums]
  cases hlast : (sums 0 candidates)[candidates.length - 1]? with
  | none =>
    have hnil : candidates = [] := by
      rw [List.getElem?_eq_none_iff, length_sums] at hlast
      exact List.length_eq_zero_iff.mp (by omega)
    subst hnil
    rfl
  | some sum =>
    have hlen : candidates.length ≤ candidates.length - 1 + 1 := by omega
    rw [Option.getD_some, toNat_getElem_sums hlast, List.take_of_length_le hlen]

theorem toNat_weightSum_of_lt {candidates : List (α × Nat)} (h : totalWeight candidates < UInt32.size) :
    (weightSum candidates).toNat = totalWeight candidates := by
  rw [toNat_weightSum, Nat.mod_eq_of_lt h]

theorem weightSum_pos_iff {candidates : List (α × Nat)} :
    0 < (weightSum candidates).toNat ↔ weightSum candidates ≠ 0 := by
  rw [← UInt32.pos_iff_ne_zero, UInt32.lt_iff_toNat_lt]
  rfl

theorem weightSum_ne_zero {candidates : List (α × Nat)} (hpos : 0 < totalWeight candidates)
    (hlight : totalWeight candidates < UInt32.size) : weightSum candidates ≠ 0 := by
  rwa [← weightSum_pos_iff, toNat_weightSum_of_lt hlight]

theorem totalWeight_take_succ {candidates : List (α × Nat)} {i w : Nat} {a : α}
    (h : candidates[i]? = some (a, w)) :
    totalWeight (candidates.take (i + 1)) = totalWeight (candidates.take i) + w := by
  induction candidates generalizing i with
  | nil => simp at h
  | cons entry rest ih =>
    cases i with
    | zero =>
      obtain rfl : entry = (a, w) := Option.some.inj h
      exact Nat.add_comm w 0
    | succ i => rw [List.take_succ_cons, List.take_succ_cons, totalWeight, totalWeight, ih h, Nat.add_assoc]

theorem totalWeight_take_le (candidates : List (α × Nat)) (i : Nat) :
    totalWeight (candidates.take i) ≤ totalWeight candidates := by
  induction candidates generalizing i with
  | nil => exact Nat.le_of_eq (congrArg totalWeight List.take_nil)
  | cons entry rest ih =>
    cases i with
    | zero => exact Nat.zero_le _
    | succ i => exact Nat.add_le_add_left (ih i) entry.2

/-! ## The place where the search ends -/

theorem isPast_iff {candidates : List (α × Nat)} {x i : Nat} (hi : i < candidates.length) :
    isPast x candidates i = true ↔ totalWeight (candidates.take (i + 1)) % UInt32.size ≤ x := by
  have hsum := getElem?_sums 0 hi
  simp only [isPast, hsum, Option.any_some, decide_eq_true_eq, toNat_getElem_sums hsum]

/-- A value below the last sum ends the search at some candidate: the sum before
it does not exceed the value, the sum up to it does. -/
theorem exists_pick {candidates : List (α × Nat)} {x : Nat} (h : x < (weightSum candidates).toNat) :
    ∃ i a w, candidates[i]? = some (a, w) ∧ pick x candidates = some a ∧
      totalWeight (candidates.take i) % UInt32.size ≤ x ∧
      x < totalWeight (candidates.take (i + 1)) % UInt32.size := by
  have hsome : 0 < candidates.length := by
    cases candidates with
    | nil => exact absurd h (Nat.not_lt_zero x)
    | cons entry rest => exact Nat.succ_pos _
  have hparts := parts_halving (isPast x candidates) (candidates.length - 1)
  have hpick : pick x candidates =
      (candidates[halving (isPast x candidates) (candidates.length - 1)]?).map Prod.fst := rfl
  generalize halving (isPast x candidates) (candidates.length - 1) = i at hparts hpick
  have hlt : i < candidates.length := by
    have hle := hparts.le
    omega
  have hget := List.getElem?_eq_getElem hlt
  refine ⟨i, candidates[i].1, candidates[i].2, hget, by rw [hpick, hget, Option.map_some], ?_, ?_⟩
  · cases i with
    | zero => exact Nat.zero_le x
    | succ j => exact (isPast_iff (by omega)).mp (hparts.before j rfl)
  · rcases Nat.lt_or_ge i (candidates.length - 1) with hmore | hlast
    · have hafter := hparts.after hmore
      rw [← Bool.not_eq_true, isPast_iff hlt] at hafter
      omega
    · rw [List.take_of_length_le (by omega), ← toNat_weightSum]
      exact h

/-- A value below the last sum falls to a candidate of positive weight. -/
theorem exists_mem_of_pick {candidates : List (α × Nat)} {x : Nat} (h : x < (weightSum candidates).toNat) :
    ∃ a w, (a, w) ∈ candidates ∧ 0 < w ∧ pick x candidates = some a := by
  obtain ⟨i, a, w, hget, hpick, hbefore, hafter⟩ := exists_pick h
  refine ⟨a, w, List.mem_of_getElem? hget, ?_, hpick⟩
  -- with no weight the sums before and up to the candidate would be the same
  apply Nat.pos_of_ne_zero
  rintro rfl
  rw [totalWeight_take_succ hget, Nat.add_zero] at hafter
  omega

/-- Where the last sum is not 0, a weighted choice yields candidates of positive
weight only. -/
theorem exists_of_yields_weighted {candidates : List (α × Nat)} {picked : Option α}
    (hsum : weightSum candidates ≠ 0) (h : (weighted candidates).Yields picked) :
    ∃ a w, picked = some a ∧ (a, w) ∈ candidates ∧ 0 < w := by
  rw [weighted, if_neg hsum, yields_bind] at h
  obtain ⟨x, ⟨v, hv, rfl⟩, hpicked⟩ := h
  obtain ⟨a, w, hmem, hw, hpick⟩ := exists_mem_of_pick (hv.lt (weightSum_pos_iff.mpr hsum))
  rw [hpick] at hpicked
  exact ⟨a, w, hpicked.symm, hmem, hw⟩

/-- Whatever the sums are, a candidate that a weighted choice yields has a
positive weight. -/
theorem mem_of_yields_weighted {candidates : List (α × Nat)} {a : α}
    (h : (weighted candidates).Yields (some a)) : ∃ w, (a, w) ∈ candidates ∧ 0 < w := by
  by_cases hsum : weightSum candidates = 0
  · rw [weighted, if_pos hsum] at h
    contradiction
  · obtain ⟨b, w, hb, hmem, hw⟩ := exists_of_yields_weighted hsum h
    obtain rfl : a = b := Option.some.inj hb
    exact ⟨w, hmem, hw⟩

/-! ## Weights laid end to end -/

theorem holder_of_take {candidates : List (α × Nat)} {x i w : Nat} {a : α} (hget : candidates[i]? = some (a, w))
    (hbefore : totalWeight (candidates.take i) ≤ x) (hafter : x < totalWeight (candidates.take (i + 1))) :
    holder x candidates = some a := by
  induction candidates generalizing x i with
  | nil => simp at hget
  | cons entry rest ih =>
    cases i with
    | zero =>
      obtain rfl : entry = (a, w) := Option.some.inj hget
      exact if_pos hafter
    | succ i =>
      obtain ⟨b, u⟩ := entry
      rw [List.take_succ_cons, totalWeight] at hbefore hafter
      have hpast : ¬x < u := by omega
      rw [holder, if_neg hpast]
      exact ih hget (by omega) (by omega)

/-- While the weights do not overflow together, a value falls to the candidate
that holds it. -/
theorem pick_eq_holder {candidates : List (α × Nat)} {x : Nat} (hlight : totalWeight candidates < UInt32.size)
    (hx : x < totalWeight candidates) : pick x candidates = holder x candidates := by
  obtain ⟨i, a, w, hget, hpick, hbefore, hafter⟩ := exists_pick (by rwa [toNat_weightSum_of_lt hlight])
  have hsum : ∀ k, totalWeight (candidates.take k) % UInt32.size = totalWeight (candidates.take k) := fun k =>
    Nat.mod_eq_of_lt (Nat.lt_of_le_of_lt (totalWeight_take_le candidates k) hlight)
  rw [hsum] at hbefore hafter
  rw [hpick, holder_of_take hget hbefore hafter]

/-- Every candidate of positive weight holds a value. -/
theorem exists_holder_of_mem {candidates : List (α × Nat)} {a : α} {w : Nat} (hmem : (a, w) ∈ candidates)
    (hw : 0 < w) : ∃ x < totalWeight candidates, holder x candidates = some a := by
  induction candidates with
  | nil => simp at hmem
  | cons entry rest ih =>
    obtain ⟨b, u⟩ := entry
    rcases List.mem_cons.mp hmem with heq | hrest
    · cases heq
      exact ⟨0, by simp only [totalWeight]; omega, by simp [holder, hw]⟩
    · obtain ⟨x, hx, hholder⟩ := ih hrest
      refine ⟨u + x, by simp only [totalWeight]; omega, ?_⟩
      have hnot : ¬u + x < u := by omega
      simp [holder, hnot, hholder]

end HiddenRule.Draw
