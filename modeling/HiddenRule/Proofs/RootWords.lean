import HiddenRule.Grammar.Standard
import HiddenRule.Proofs.TagThreads
import HiddenRule.Proofs.WeightedWords

/-
  The words that a draw takes for each alternative at its root. The alternatives
  that can be chosen under the active tags are the candidates of one weighted
  choice, told apart by their positions in the category. The first word that is
  not rejected chooses among them, and the rest of the draw reads the words that
  follow it.

  What is proved:
    1. `becomes_of_root`: what a draw goes on with after the word that chooses
       its root.
    2. `sharedOut_root`: the words are shared out among the alternatives.
    3. `alternatives_chosen_by_weight`: every alternative that can be chosen, and
       every place in a list of candidates, has its weight's share of the words;
       nothing else has any, and the words left over are rejected.
-/

namespace HiddenRule.Grammar

variable {g : Grammar} {c : Category} {active : TagSet}

/-- The position of the alternative that a word chooses at the root. -/
def root? (g : Grammar) (c : Category) (active : TagSet) (word : Nat) : Option Nat :=
  (Draw.chosen? (g.candidates c active) word).map Prod.fst

/-- What follows the choice at the root: the children, and the attribute. -/
def drawBelow (g : Grammar) (depth : Nat) (c : Category) (active : TagSet) :
    Option (Nat × Alternative) → Draw (Except RuleError (Skeleton × TagSet))
  | none => return .error (.noEligibleAlternative c)
  | some (index, a) => do
    match ← drawChildren (g.draw depth) (a.reaching active) a.slots (active.union a.tags) with
    | .error e => return .error e
    | .ok (children, after) =>
      let choice ← drawChoice a
      return .ok (.node c index children choice, after)

theorem draw_succ (depth : Nat) :
    g.draw (depth + 1) c active = Draw.weighted (g.candidates c active) >>= g.drawBelow depth c active := by
  rw [draw]
  rfl

/-- The root of a tree names the alternative that was chosen. -/
theorem root_of_yields_drawBelow {depth k : Nat} {a : Alternative} {tree : Skeleton} {after : TagSet}
    (h : (g.drawBelow depth c active (some (k, a))).Yields (.ok (tree, after))) :
    tree.category = c ∧ tree.index = k := by
  simp only [drawBelow, Draw.yields_bind] at h
  obtain ⟨result, -, h⟩ := h
  cases result with
  | error e => simp at h
  | ok pair =>
    simp only [Draw.yields_bind] at h
    obtain ⟨choice, -, h⟩ := h
    simp only [Draw.pure_eq_done, Draw.yields_done, Except.ok.injEq, Prod.mk.injEq] at h
    obtain ⟨rfl, -⟩ := h
    exact ⟨rfl, rfl⟩

/-! ## The alternatives as candidates -/

/-- The candidates have different positions. -/
theorem nodup_positions (g : Grammar) (c : Category) (active : TagSet) :
    ((g.candidates c active).map fun entry => entry.1.1).Nodup := by
  have hnumbered : ((g.numbered c).map Prod.fst).Nodup := by
    simp only [numbered, List.map_map, Function.comp_def]
    rw [List.zipIdx_map_snd]
    exact List.nodup_range'
  have hsublist : ((g.candidates c active).map fun entry => entry.1.1).Sublist ((g.numbered c).map Prod.fst) := by
    simp only [candidates, List.map_map, Function.comp_def]
    exact (List.filter_sublist).map Prod.fst
  exact hnumbered.sublist hsublist

theorem exists_alternative_of_root {word k : Nat} (hsum : Draw.weightSum (g.candidates c active) ≠ 0)
    (hword : word < UInt32.size) (h : g.root? c active word = some k) :
    ∃ a, g.alternative? c k = some a ∧ Draw.chosen? (g.candidates c active) word = some (k, a) := by
  obtain ⟨⟨i, a⟩, hchosen, rfl⟩ := Option.map_eq_some_iff.mp h
  obtain ⟨w, hmem, -⟩ := Draw.exists_mem_of_chosen hsum hword hchosen
  exact ⟨a, (mem_candidates.mp hmem).1, hchosen⟩

/-- The words are shared out among the alternatives that can be chosen. -/
theorem sharedOut_root (hpos : 0 < Draw.totalWeight (g.candidates c active))
    (hlight : Draw.totalWeight (g.candidates c active) < UInt32.size) :
    Draw.SharedOut (g.root? c active)
      (fun k w => ∃ a, g.alternative? c k = some a ∧ a.isEligible active = true ∧ a.weight.toNat = w)
      (Draw.totalWeight (g.candidates c active)) := by
  refine Draw.sharedOut_of_numbers (fun _ => rfl) (nodup_positions g c active) ?_ hpos hlight
  intro k w
  constructor
  · rintro ⟨a, hget, helig, rfl⟩
    exact ⟨(k, a), rfl, mem_candidates.mpr ⟨hget, helig, rfl⟩⟩
  · rintro ⟨⟨i, a⟩, rfl, hmem⟩
    obtain ⟨hget, helig, hw⟩ := mem_candidates.mp hmem
    exact ⟨a, hget, helig, hw.symm⟩

/-- The first word not rejected chooses the alternative at the root. -/
theorem becomes_of_root {k : Nat} {a : Alternative} (hsum : Draw.weightSum (g.candidates c active) ≠ 0)
    (hget : g.alternative? c k = some a) (depth : Nat) :
    (g.draw (depth + 1) c active).Becomes (g.root? c active) k (g.drawBelow depth c active (some (k, a))) := by
  intro σ _ s after rejected word patience hrejected hroot hgives hpatience
  have hword := hgives.lt word (List.mem_append_right _ List.mem_cons_self)
  obtain ⟨b, hgetb, hchosen⟩ := exists_alternative_of_root hsum hword hroot
  obtain rfl : b = a := Option.some.inj (hgetb.symm.trans hget)
  have hunchosen : ∀ r ∈ rejected, Draw.chosen? (g.candidates c active) r = none :=
    fun r hr => Option.map_eq_none_iff.mp (hrejected r hr)
  have hrun := Draw.run_weighted_of_gives hsum hunchosen hchosen hgives hpatience
  rw [draw_succ, Draw.run_bind, hrun, Option.bind_some]

/-- Of the words that can come next, every alternative that can be chosen has its
weight's share at the root of a draw, and every place its share in a choice from
a list. Nothing else has any; what cannot be shared is rejected. -/
theorem alternatives_chosen_by_weight :
    (∀ (g : Grammar) (c : Category) (active : TagSet), 0 < Draw.totalWeight (g.candidates c active) →
      Draw.totalWeight (g.candidates c active) < UInt32.size →
      Draw.SharedOut (g.root? c active)
        (fun k w => ∃ a, g.alternative? c k = some a ∧ a.isEligible active = true ∧ a.weight.toNat = w)
        (Draw.totalWeight (g.candidates c active)) ∧
      ∀ k a, g.alternative? c k = some a → ∀ depth,
        (g.draw (depth + 1) c active).Becomes (g.root? c active) k (g.drawBelow depth c active (some (k, a))) ∧
        ∀ tree after, (g.drawBelow depth c active (some (k, a))).Yields (.ok (tree, after)) →
          tree.category = c ∧ tree.index = k) ∧
    ∀ {α : Type} (candidates : List (α × Nat)), 0 < Draw.totalWeight candidates →
      Draw.totalWeight candidates < UInt32.size →
      Draw.SharedOut (Draw.place? candidates) (fun i w => ∃ a, candidates[i]? = some (a, w))
        (Draw.totalWeight candidates) ∧
      ∀ i a w, candidates[i]? = some (a, w) →
        (Draw.weighted candidates).Becomes (Draw.place? candidates) i (.done (some a)) := by
  constructor
  · intro g c active hpos hlight
    refine ⟨sharedOut_root hpos hlight, ?_⟩
    intro k a hget depth
    have hsum := Draw.weightSum_ne_zero hpos hlight
    exact ⟨becomes_of_root hsum hget depth, fun tree after h => root_of_yields_drawBelow h⟩
  · intro α candidates hpos hlight
    have hsum := Draw.weightSum_ne_zero hpos hlight
    exact ⟨Draw.sharedOut_place hpos hlight, fun i a w hget => Draw.becomes_of_place hsum hget⟩

/-- The group predicates that can be chosen around a position weigh 80 together.
The second has ten parts of the words, the sixth weighs nothing and has none, and
16 words are left over. Of three candidates, two of them equal, the last weighs 2
of 3. -/
theorem group_predicates_share_words :
    Nat.count (fun word => standard.root? .groupPred (.single .position) word = some 1) UInt32.size =
        10 * 53687091 ∧
      (∀ word < UInt32.size, standard.root? .groupPred (.single .position) word ≠ some 5) ∧
      Nat.count (fun word => standard.root? .groupPred (.single .position) word = none) UInt32.size = 16 ∧
      Nat.count (fun word => Draw.place? [(7, 1), (7, 0), (9, 2)] word = some 2) UInt32.size = 2 * 1431655765 := by
  obtain ⟨hroots, hplaces⟩ := alternatives_chosen_by_weight
  have htotal : Draw.totalWeight (standard.candidates .groupPred (.single .position)) = 80 := by decide
  obtain ⟨hroot, -⟩ := hroots standard .groupPred (.single .position) (by decide) (by decide)
  obtain ⟨hplace, -⟩ := hplaces [(7, 1), (7, 0), (9, 2)] (by decide) (by decide)
  rw [htotal] at hroot
  refine ⟨hroot.shares 1 10 ⟨_, rfl, by decide, by decide⟩, ?_, hroot.rejected, hplace.shares 2 2 ⟨9, rfl⟩⟩
  intro word hword h
  obtain ⟨w, ⟨a, hget, -, rfl⟩, hw⟩ := hroot.chosen word hword 5 h
  obtain rfl := Option.some.inj hget
  exact absurd hw (by decide)

end HiddenRule.Grammar
