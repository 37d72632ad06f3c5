import HiddenRule.Proofs.WordCounts

/-
  The words that a weighted choice takes for each of its candidates. A candidate
  gets the words of as many values as its weight says, and the words left over
  are rejected. Candidates can be equal, so it is numbers that are counted: the
  places in the list, or any others that tell the candidates apart.

  What is proved:
    1. `count_chosen`, `count_chosen_none`: the number of words that choose
       candidates of some kind, and of those that are rejected.
    2. `sharedOut_of_numbers`: where numbers tell the candidates apart, each
       number has its weight's share of the words.
    3. `run_weighted_of_gives`, `becomes_of_place`: a weighted choice ends with
       what the first word not rejected chooses.
-/

namespace HiddenRule.Draw

variable {α : Type}

/-! ## The words for one candidate -/

/-- The candidate that a weighted choice ends with over an accepted word. -/
def chosen? (candidates : List (α × Nat)) (word : Nat) : Option α :=
  (Question.answer? ⟨.weight, (weightSum candidates).toNat⟩ word).bind (pick · candidates)

/-- As many values are held by candidates of some kind as their weights together
say. -/
theorem count_holder (P : α → Bool) (candidates : List (α × Nat)) :
    Nat.count (fun x => (holder x candidates).any P) (totalWeight candidates) =
      totalWeight (candidates.filter fun entry => P entry.1) := by
  induction candidates with
  | nil => rfl
  | cons entry rest ih =>
    obtain ⟨a, w⟩ := entry
    have hfirst : Nat.count (fun x => (holder x ((a, w) :: rest)).any P) w = if P a then w else 0 := by
      have hholder : ∀ x < w, holder x ((a, w) :: rest) = some a := fun x hx => if_pos hx
      split
      · next hP => exact Nat.count_of_forall fun x hx => by rw [hholder x hx]; exact hP
      · next hP => exact Nat.count_of_forall_not fun x hx => by rw [hholder x hx]; exact hP
    have hrest : Nat.count (fun x => (holder (w + x) ((a, w) :: rest)).any P) (totalWeight rest) =
        totalWeight (rest.filter fun entry => P entry.1) := by
      have hholder : ∀ x, holder (w + x) ((a, w) :: rest) = holder x rest := fun x => by simp [holder]
      simp only [hholder]
      exact ih
    rw [totalWeight, Nat.count_add, hfirst, hrest, List.filter_cons]
    cases hP : P a with
    | true => rfl
    | false => exact Nat.zero_add _

section
variable {candidates : List (α × Nat)}

/-- As many values fall to candidates of some kind, while the weights do not
overflow together. -/
theorem count_pick (hlight : totalWeight candidates < UInt32.size) (P : α → Bool) :
    Nat.count (fun x => (pick x candidates).any P) (totalWeight candidates) =
      totalWeight (candidates.filter fun entry => P entry.1) := by
  rw [← count_holder, Nat.count_eq_card_filter_range, Nat.count_eq_card_filter_range]
  congr 1
  apply Finset.filter_congr
  intro x hx
  rw [pick_eq_holder hlight (Finset.mem_range.mp hx)]

/-- A word is either rejected or chooses a candidate of positive weight. -/
theorem chosen_cases (hsum : weightSum candidates ≠ 0) {word : Nat} (hword : word < UInt32.size) :
    (Question.answer? ⟨.weight, (weightSum candidates).toNat⟩ word = none ∧ chosen? candidates word = none) ∨
      ∃ v a w, Question.answer? ⟨.weight, (weightSum candidates).toNat⟩ word = some v ∧
        pick v candidates = some a ∧ (a, w) ∈ candidates ∧ 0 < w ∧ chosen? candidates word = some a := by
  cases hanswer : Question.answer? ⟨.weight, (weightSum candidates).toNat⟩ word with
  | none => exact .inl ⟨rfl, by simp only [chosen?, hanswer, Option.bind_none]⟩
  | some v =>
    have hv : v < (weightSum candidates).toNat :=
      Question.lt_of_answer (weightSum_pos_iff.mpr hsum) hword hanswer
    obtain ⟨a, w, hmem, hw, hpick⟩ := exists_mem_of_pick hv
    exact .inr ⟨v, a, w, rfl, hpick, hmem, hw, by simp only [chosen?, hanswer, Option.bind_some, hpick]⟩

theorem exists_mem_of_chosen (hsum : weightSum candidates ≠ 0) {word : Nat} {a : α}
    (hword : word < UInt32.size) (h : chosen? candidates word = some a) :
    ∃ w, (a, w) ∈ candidates ∧ 0 < w := by
  obtain ⟨-, hnone⟩ | ⟨v, b, w, -, -, hmem, hw, hb⟩ := chosen_cases hsum hword
  · rw [hnone] at h
    contradiction
  · obtain rfl : b = a := Option.some.inj (hb.symm.trans h)
    exact ⟨w, hmem, hw⟩

/-- The words that choose candidates of some kind. -/
theorem count_chosen (hpos : 0 < totalWeight candidates) (hlight : totalWeight candidates < UInt32.size)
    (P : α → Bool) :
    Nat.count (fun word => (chosen? candidates word).any P) UInt32.size =
      totalWeight (candidates.filter fun entry => P entry.1) * (UInt32.size / totalWeight candidates) := by
  have hany : ∀ word, (chosen? candidates word).any P =
      (Question.answer? ⟨.weight, totalWeight candidates⟩ word).any fun v => (pick v candidates).any P := by
    intro word
    unfold chosen?
    rw [toNat_weightSum_of_lt hlight]
    cases Question.answer? ⟨.weight, totalWeight candidates⟩ word <;> rfl
  simp only [hany, Question.count_answer hpos hlight.le, count_pick hlight]

/-- The words left over are rejected. -/
theorem count_chosen_none (hpos : 0 < totalWeight candidates) (hlight : totalWeight candidates < UInt32.size) :
    Nat.count (fun word => chosen? candidates word = none) UInt32.size =
      UInt32.size % totalWeight candidates := by
  have hsome : Nat.count (fun word => ¬chosen? candidates word = none) UInt32.size =
      totalWeight candidates * (UInt32.size / totalWeight candidates) := by
    have hall := count_chosen hpos hlight fun _ => true
    have hkind : ∀ word, (chosen? candidates word).any (fun _ => true) = true ↔
        ¬chosen? candidates word = none := by
      intro word
      cases chosen? candidates word <;> simp
    simp only [hkind, List.filter_true] at hall
    exact hall
  have hwords := Finset.card_filter_add_card_filter_not (s := Finset.range UInt32.size)
    (fun word => chosen? candidates word = none)
  rw [← Nat.count_eq_card_filter_range, ← Nat.count_eq_card_filter_range, Finset.card_range, hsome] at hwords
  have hparts : totalWeight candidates * (UInt32.size / totalWeight candidates) +
      UInt32.size % totalWeight candidates = UInt32.size := Nat.div_add_mod _ _
  omega

/-! ## Candidates told apart by numbers -/

theorem totalWeight_map {β : Type} (f : α → β) (candidates : List (α × Nat)) :
    totalWeight (candidates.map fun entry => (f entry.1, entry.2)) = totalWeight candidates := by
  induction candidates with
  | nil => rfl
  | cons entry rest ih => rw [List.map_cons, totalWeight, totalWeight, ih]

theorem sums_map {β : Type} (f : α → β) (candidates : List (α × Nat)) (before : UInt32) :
    sums before (candidates.map fun entry => (f entry.1, entry.2)) = sums before candidates := by
  induction candidates generalizing before with
  | nil => rfl
  | cons entry rest ih => rw [List.map_cons, sums, sums, ih]

theorem weightSum_map {β : Type} (f : α → β) (candidates : List (α × Nat)) :
    weightSum (candidates.map fun entry => (f entry.1, entry.2)) = weightSum candidates := by
  rw [weightSum, weightSum, sums_map]

theorem pick_map {β : Type} (f : α → β) (candidates : List (α × Nat)) (x : Nat) :
    pick x (candidates.map fun entry => (f entry.1, entry.2)) = (pick x candidates).map f := by
  have hpast : isPast x (candidates.map fun entry => (f entry.1, entry.2)) = isPast x candidates := by
    funext i
    rw [isPast, isPast, sums_map]
  rw [pick, pick, hpast, List.length_map, List.getElem?_map, Option.map_map, Option.map_map]
  rfl

/-- What the values of the candidates are makes no difference to which of them
a word chooses. -/
theorem chosen_map {β : Type} (f : α → β) (candidates : List (α × Nat)) (word : Nat) :
    chosen? (candidates.map fun entry => (f entry.1, entry.2)) word = (chosen? candidates word).map f := by
  simp only [chosen?, weightSum_map, pick_map, Option.map_bind, Function.comp_def]

/-- The weight of the candidate with a number is all the weight that the number
has. -/
theorem totalWeight_filter_number {number : α → Nat} {a : α} {w : Nat}
    (hnumbers : (candidates.map fun entry => number entry.1).Nodup) (hmem : (a, w) ∈ candidates) :
    totalWeight (candidates.filter fun entry => number entry.1 == number a) = w := by
  induction candidates with
  | nil => contradiction
  | cons entry rest ih =>
    obtain ⟨b, u⟩ := entry
    obtain ⟨hfirst, hrest⟩ := List.nodup_cons.mp hnumbers
    rw [List.filter_cons]
    rcases List.mem_cons.mp hmem with heq | hmem
    · cases heq
      have hothers : (rest.filter fun entry => number entry.1 == number a) = [] := by
        apply List.filter_eq_nil_iff.mpr
        intro other hother hnumber
        exact hfirst (List.mem_map.mpr ⟨other, hother, beq_iff_eq.mp hnumber⟩)
      rw [if_pos (beq_self_eq_true _), hothers]
      rfl
    · have hne : ¬(number b == number a) = true := by
        intro hnumber
        exact hfirst (List.mem_map.mpr ⟨(a, w), hmem, (beq_iff_eq.mp hnumber).symm⟩)
      rw [if_neg hne, ih hrest hmem]

/-- Whether words are shared out by weight: each number that weighs something has
that many equal parts of them, no other is chosen, and what cannot be shared is
rejected. -/
structure SharedOut (chosen? : Nat → Option Nat) (weighs : (number weight : Nat) → Prop) (total : Nat) : Prop where
  shares : ∀ k w, weighs k w →
    Nat.count (fun word => chosen? word = some k) UInt32.size = w * (UInt32.size / total)
  chosen : ∀ word < UInt32.size, ∀ k, chosen? word = some k → ∃ w, weighs k w ∧ 0 < w
  rejected : Nat.count (fun word => chosen? word = none) UInt32.size = UInt32.size % total

/-- Where numbers tell the candidates apart, the words are shared out among the
numbers. -/
theorem sharedOut_of_numbers {number : α → Nat} {chosenNumber? : Nat → Option Nat} {weighs : Nat → Nat → Prop}
    (hchosen : ∀ word, chosenNumber? word = (chosen? candidates word).map number)
    (hnumbers : (candidates.map fun entry => number entry.1).Nodup)
    (hweighs : ∀ k w, weighs k w ↔ ∃ a, number a = k ∧ (a, w) ∈ candidates)
    (hpos : 0 < totalWeight candidates) (hlight : totalWeight candidates < UInt32.size) :
    SharedOut chosenNumber? weighs (totalWeight candidates) where
  shares k w h := by
    obtain ⟨a, rfl, hmem⟩ := (hweighs k w).mp h
    have hkind : ∀ word, chosenNumber? word = some (number a) ↔
        (chosen? candidates word).any (fun b => number b == number a) = true := by
      intro word
      simp only [hchosen, Option.map_eq_some_iff, Option.any_eq_true, beq_iff_eq]
    simp only [hkind, count_chosen hpos hlight, totalWeight_filter_number hnumbers hmem]
  chosen word hword k h := by
    obtain ⟨a, ha, hk⟩ := Option.map_eq_some_iff.mp ((hchosen word).symm.trans h)
    obtain ⟨w, hmem, hw⟩ := exists_mem_of_chosen (weightSum_ne_zero hpos hlight) hword ha
    exact ⟨w, (hweighs k w).mpr ⟨a, hk, hmem⟩, hw⟩
  rejected := by simp only [hchosen, Option.map_eq_none_iff, count_chosen_none hpos hlight]

/-- The candidates with their places in the list. -/
def placed (candidates : List (α × Nat)) : List ((α × Nat) × Nat) :=
  candidates.zipIdx.map fun entry => ((entry.1.1, entry.2), entry.1.2)

/-- The place in the list of the candidate that a word chooses. -/
def place? (candidates : List (α × Nat)) (word : Nat) : Option Nat :=
  (chosen? (placed candidates) word).map Prod.snd

theorem mem_placed {a : α} {i w : Nat} : ((a, i), w) ∈ placed candidates ↔ candidates[i]? = some (a, w) := by
  simp only [placed, List.mem_map, Prod.mk.injEq]
  constructor
  · rintro ⟨⟨⟨b, u⟩, j⟩, hmem, ⟨rfl, rfl⟩, rfl⟩
    exact List.mem_zipIdx_iff_getElem?.mp hmem
  · intro h
    exact ⟨((a, w), i), List.mem_zipIdx_iff_getElem?.mpr h, ⟨rfl, rfl⟩, rfl⟩

theorem map_placed (candidates : List (α × Nat)) :
    (placed candidates).map (fun entry => (entry.1.1, entry.2)) = candidates := by
  simp only [placed, List.map_map, Function.comp_def]
  exact List.zipIdx_map_fst 0 candidates

theorem nodup_places (candidates : List (α × Nat)) : ((placed candidates).map fun entry => entry.1.2).Nodup := by
  have hplaces : ((placed candidates).map fun entry => entry.1.2) = List.range' 0 candidates.length := by
    simp only [placed, List.map_map, Function.comp_def]
    exact List.zipIdx_map_snd 0 candidates
  rw [hplaces]
  exact List.nodup_range'

theorem totalWeight_placed (candidates : List (α × Nat)) :
    totalWeight (placed candidates) = totalWeight candidates := by
  have h := totalWeight_map Prod.fst (placed candidates)
  rw [map_placed] at h
  exact h.symm

theorem weightSum_placed (candidates : List (α × Nat)) : weightSum (placed candidates) = weightSum candidates := by
  have h := weightSum_map Prod.fst (placed candidates)
  rw [map_placed] at h
  exact h.symm

/-- A word that chooses a place chooses the candidate there, and its weight is
positive. -/
theorem exists_getElem_of_place (hsum : weightSum candidates ≠ 0) {word i : Nat} (hword : word < UInt32.size)
    (h : place? candidates word = some i) :
    ∃ a w, candidates[i]? = some (a, w) ∧ 0 < w ∧ chosen? candidates word = some a := by
  obtain ⟨⟨a, j⟩, hchosen, rfl⟩ := Option.map_eq_some_iff.mp h
  obtain ⟨w, hmem, hw⟩ := exists_mem_of_chosen (by rwa [weightSum_placed]) hword hchosen
  refine ⟨a, w, mem_placed.mp hmem, hw, ?_⟩
  rw [← map_placed candidates, chosen_map, hchosen, Option.map_some]

theorem place_eq_none_iff {word : Nat} : place? candidates word = none ↔ chosen? candidates word = none := by
  have h := chosen_map Prod.fst (placed candidates) word
  rw [map_placed] at h
  rw [place?, h, Option.map_eq_none_iff, Option.map_eq_none_iff]

/-- The words are shared out among the places in the list. -/
theorem sharedOut_place (hpos : 0 < totalWeight candidates) (hlight : totalWeight candidates < UInt32.size) :
    SharedOut (place? candidates) (fun i w => ∃ a, candidates[i]? = some (a, w)) (totalWeight candidates) := by
  rw [← totalWeight_placed] at hpos hlight ⊢
  refine sharedOut_of_numbers (fun _ => rfl) (nodup_places candidates) ?_ hpos hlight
  intro i w
  constructor
  · rintro ⟨a, h⟩
    exact ⟨(a, i), rfl, mem_placed.mpr h⟩
  · rintro ⟨⟨a, i⟩, rfl, hmem⟩
    exact ⟨a, mem_placed.mp hmem⟩

/-! ## Runs -/

/-- A weighted choice ends with what the first word not rejected chooses. -/
theorem run_weighted_of_gives {σ : Type} [WordSource σ] {s after : σ} {rejected : List Nat} {word patience : Nat}
    {a : α} (hsum : weightSum candidates ≠ 0) (hrejected : ∀ r ∈ rejected, chosen? candidates r = none)
    (h : chosen? candidates word = some a) (hgives : Reading.weight.Gives (rejected ++ [word]) s after)
    (hpatience : rejected.length < patience) : (weighted candidates).run patience s = some (some a, after) := by
  have hunanswered : ∀ r ∈ rejected, Question.answer? ⟨.weight, (weightSum candidates).toNat⟩ r = none := by
    intro r hr
    obtain ⟨hanswer, -⟩ | ⟨v, b, -, -, -, -, -, hb⟩ :=
      chosen_cases hsum (hgives.lt r (List.mem_append_left _ hr))
    · exact hanswer
    · rw [hrejected r hr] at hb
      contradiction
  obtain ⟨-, hnone⟩ | ⟨v, b, -, hanswer, hpick, -, -, hb⟩ :=
    chosen_cases hsum (hgives.lt word (List.mem_append_right _ List.mem_cons_self))
  · rw [hnone] at h
    contradiction
  · have hsettle := Question.settle_of_gives hunanswered hanswer hgives hpatience
    rw [weighted, if_neg hsum, run_bind]
    simp only [run, hsettle, Option.bind_some, pure_eq_done, hpick, ← h, hb]

/-- Whether the first word not rejected decides what becomes of a draw: over a
source where that word chooses the given number, the draw runs as another does
over the words that follow. -/
def Becomes (d : Draw α) (chosen? : Nat → Option Nat) (k : Nat) (rest : Draw α) : Prop :=
  ∀ {σ : Type} [WordSource σ] {s after : σ} {rejected : List Nat} {word patience : Nat},
    (∀ r ∈ rejected, chosen? r = none) → chosen? word = some k →
    Reading.weight.Gives (rejected ++ [word]) s after → rejected.length < patience →
    d.run patience s = rest.run patience after

theorem becomes_of_place {i w : Nat} {a : α} (hsum : weightSum candidates ≠ 0)
    (hget : candidates[i]? = some (a, w)) :
    (weighted candidates).Becomes (place? candidates) i (done (some a)) := by
  intro σ _ s after rejected word patience hrejected hplace hgives hpatience
  have hword := hgives.lt word (List.mem_append_right _ List.mem_cons_self)
  obtain ⟨b, u, hgetb, -, hchosen⟩ := exists_getElem_of_place hsum hword hplace
  obtain ⟨rfl, rfl⟩ := Prod.mk.inj (Option.some.inj (hgetb.symm.trans hget))
  exact run_weighted_of_gives hsum (fun r hr => place_eq_none_iff.mp (hrejected r hr)) hchosen hgives hpatience

end

end HiddenRule.Draw
