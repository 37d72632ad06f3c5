import HiddenRule.Grammar.Draw
import HiddenRule.Proofs.Subtrees
import HiddenRule.Proofs.WeightSums

/-
  How tags run through a drawn skeleton. `Threads` says of a tree, without
  drawing anything, that every node fits its alternative and that the tags
  active around it leave the alternative open: the tags active at a node reach
  its first child together with the node's own, and each next child with those
  of the children before it, unless the children are chosen apart.

  What is proved:
    1. `threads_of_yields`: a tree that a draw yields threads the tags active
       around it, and the draw hands on the tags active after it.
    2. `exists_threads_of_mem_subtrees`, `nodeFits_of_threads`: every subtree of
       a tree that threads tags threads tags, and every node fits its
       alternative.
    3. `eq_noEligibleAlternative_of_yields`: a draw that fails yields no other
       error than that nothing can be chosen.
-/

namespace HiddenRule

theorem TagSet.not_contains_of_not_intersects {s t : TagSet} {x : Tag} (h : s.intersects t = false)
    (hs : s.contains x = true) : t.contains x = false := by
  cases ht : t.contains x with
  | false => rfl
  | true =>
    rw [intersects_eq_true_iff.mpr ⟨x, hs, ht⟩] at h
    contradiction

/-- The tags that reach the children of an alternative drawn under active
tags, where they are chosen apart. -/
def Alternative.reaching (a : Alternative) (active : TagSet) : Option TagSet :=
  if a.independent then some (Grammar.apart (active.union a.tags)) else none

theorem Alternative.reaching_eq_some {a : Alternative} (h : a.independent = true) (active : TagSet) :
    a.reaching active = some (Grammar.apart (active.union a.tags)) := if_pos h

theorem Alternative.reaching_eq_none {a : Alternative} (h : a.independent = false) (active : TagSet) :
    a.reaching active = none := if_neg (by simp [h])

namespace Grammar

/-- A node that names an alternative which can be drawn, with the children and
an attribute that the alternative asks for. -/
structure NodeFits (g : Grammar) (n : Skeleton) (a : Alternative) : Prop where
  named : g.chosen? n = some a
  generable : a.isGenerable = true
  weighted : 0 < a.weight
  slots : n.children.map Skeleton.category = a.slots
  choice : if a.attributeCount = 0 then n.choice = 0 else n.choice < a.attributeCount

mutual

/-- Whether a tree can be chosen under the active tags, with the given tags
active after it. -/
def Threads (g : Grammar) : Skeleton → (active after : TagSet) → Prop
  | .node c i parts choice, active, after => ∃ a, g.NodeFits (.node c i parts choice) a ∧
      a.tags.intersects active = false ∧
      ThreadsAll g (a.reaching active) parts (active.union a.tags) after

/-- Whether trees can be chosen one after the other: each under the tags
active after the one before it, or all under the tags that reach them. -/
def ThreadsAll (g : Grammar) (reaching : Option TagSet) : List Skeleton → (active after : TagSet) → Prop
  | [], active, after => after = active
  | s :: rest, active, after => ∃ between, Threads g s (reaching.getD active) between ∧
      ThreadsAll g reaching rest (if reaching.isSome then active else between) after

end

/-- Children that share the tags around them: each hands its tags on to the
next. -/
theorem threadsAll_shared {g : Grammar} {s : Skeleton} {rest : List Skeleton} {active after : TagSet} :
    g.ThreadsAll none (s :: rest) active after ↔
      ∃ between, g.Threads s active between ∧ g.ThreadsAll none rest between after := Iff.rfl

/-- Children chosen apart: the same tags reach each of them. -/
theorem threadsAll_apart {g : Grammar} {tags : TagSet} {s : Skeleton} {rest : List Skeleton}
    {active after : TagSet} :
    g.ThreadsAll (some tags) (s :: rest) active after ↔
      (∃ last, g.Threads s tags last) ∧ g.ThreadsAll (some tags) rest active after := by
  refine ⟨?_, ?_⟩
  · intro h
    obtain ⟨last, hs, hrest⟩ := h
    exact ⟨⟨last, hs⟩, hrest⟩
  · intro h
    obtain ⟨⟨last, hs⟩, hrest⟩ := h
    exact ⟨last, hs, hrest⟩

/-! ## What a draw yields -/

theorem mem_candidates {g : Grammar} {c : Category} {active : TagSet} {i w : Nat} {a : Alternative} :
    ((i, a), w) ∈ g.candidates c active ↔
      g.alternative? c i = some a ∧ a.isEligible active = true ∧ w = a.weight.toNat := by
  simp only [candidates, numbered, alternative?, List.mem_map, List.mem_filter]
  refine ⟨?_, ?_⟩
  · intro h
    obtain ⟨⟨j, b⟩, ⟨⟨⟨b', j'⟩, hmem, hjb⟩, helig⟩, heq⟩ := h
    simp only [Prod.mk.injEq] at hjb heq
    obtain ⟨rfl, rfl⟩ := hjb
    obtain ⟨⟨rfl, rfl⟩, rfl⟩ := heq
    exact ⟨List.mem_zipIdx_iff_getElem?.mp hmem, helig, rfl⟩
  · intro h
    obtain ⟨hget, helig, rfl⟩ := h
    exact ⟨(i, a), ⟨⟨(a, i), List.mem_zipIdx_iff_getElem?.mpr hget, rfl⟩, helig⟩, rfl⟩

theorem yields_drawChoice {a : Alternative} {k : Nat} :
    (drawChoice a).Yields k ↔ if a.attributeCount = 0 then k = 0 else k < a.attributeCount := by
  unfold drawChoice
  split
  · exact eq_comm
  · exact Draw.yields_lessThan (by omega)

/-- One step of a draw that does not fail. -/
theorem exists_of_yields_draw_succ {g : Grammar} {depth : Nat} {c : Category} {active after : TagSet}
    {s : Skeleton} (h : (g.draw (depth + 1) c active).Yields (.ok (s, after))) :
    ∃ i a children choice, s = .node c i children choice ∧ g.alternative? c i = some a ∧
      a.isEligible active = true ∧ 0 < a.weight ∧
      (drawChildren (g.draw depth) (a.reaching active) a.slots (active.union a.tags)).Yields
        (.ok (children, after)) ∧
      if a.attributeCount = 0 then choice = 0 else choice < a.attributeCount := by
  simp only [draw, Draw.yields_bind] at h
  obtain ⟨picked, hpicked, h⟩ := h
  cases picked with
  | none => simp at h
  | some entry =>
    obtain ⟨i, a⟩ := entry
    obtain ⟨w, hmem, hw⟩ := Draw.mem_of_yields_weighted hpicked
    obtain ⟨hget, helig, rfl⟩ := mem_candidates.mp hmem
    simp only [Draw.yields_bind] at h
    obtain ⟨result, hresult, h⟩ := h
    cases result with
    | error e => simp at h
    | ok pair =>
      obtain ⟨children, last⟩ := pair
      simp only [Draw.yields_bind] at h
      obtain ⟨choice, hchoice, h⟩ := h
      simp only [Draw.pure_eq_done, Draw.yields_done, Except.ok.injEq, Prod.mk.injEq] at h
      obtain ⟨rfl, rfl⟩ := h
      exact ⟨i, a, children, choice, rfl, hget, helig, a.weight_pos_iff.mpr hw, hresult,
        yields_drawChoice.mp hchoice⟩

/-- The first of several children that are drawn, and the others after it. -/
theorem exists_of_yields_drawChildren_cons
    {one : Category → TagSet → Draw (Except RuleError (Skeleton × TagSet))} {reaching : Option TagSet}
    {slot : Category} {rest : List Category} {tags last : TagSet} {children : List Skeleton}
    (h : (drawChildren one reaching (slot :: rest) tags).Yields (.ok (children, last))) :
    ∃ child between siblings, children = child :: siblings ∧
      (one slot (reaching.getD tags)).Yields (.ok (child, between)) ∧
      (drawChildren one reaching rest (if reaching.isSome then tags else between)).Yields (.ok (siblings, last)) := by
  simp only [drawChildren, Draw.yields_bind] at h
  obtain ⟨first, hfirst, h⟩ := h
  cases first with
  | error e => simp at h
  | ok pair =>
    simp only [Draw.yields_bind] at h
    obtain ⟨others, hothers, h⟩ := h
    cases others with
    | error e => simp at h
    | ok others =>
      simp only [Draw.pure_eq_done, Draw.yields_done, Except.ok.injEq, Prod.mk.injEq] at h
      obtain ⟨rfl, rfl⟩ := h
      exact ⟨pair.1, pair.2, others.1, rfl, hfirst, hothers⟩

/-- Children drawn one after the other thread the tags, if each does. -/
theorem threadsAll_of_yields {g : Grammar} {one : Category → TagSet → Draw (Except RuleError (Skeleton × TagSet))}
    (hone : ∀ c active s after, (one c active).Yields (.ok (s, after)) →
      s.category = c ∧ g.Threads s active after)
    (reaching : Option TagSet) : ∀ (slots : List Category) (active after : TagSet) (children : List Skeleton),
    (drawChildren one reaching slots active).Yields (.ok (children, after)) →
    children.map Skeleton.category = slots ∧ g.ThreadsAll reaching children active after
  | [], active, after, children, h => by
    simp only [drawChildren, Draw.pure_eq_done, Draw.yields_done, Except.ok.injEq, Prod.mk.injEq] at h
    obtain ⟨rfl, rfl⟩ := h
    exact ⟨rfl, rfl⟩
  | slot :: rest, active, after, children, h => by
    -- the others are drawn under the tags that the first child leaves active
    obtain ⟨child, between, siblings, rfl, hfirst, hothers⟩ := exists_of_yields_drawChildren_cons h
    obtain ⟨hcat, hchild⟩ := hone _ _ _ _ hfirst
    obtain ⟨hcats, hsiblings⟩ := threadsAll_of_yields hone reaching rest _ _ _ hothers
    exact ⟨by rw [List.map_cons, hcat, hcats], between, hchild, hsiblings⟩

/-- A tree that a draw yields threads the tags active around it. -/
theorem threads_of_yields {g : Grammar} : ∀ (depth : Nat) (c : Category) (active : TagSet) (s : Skeleton)
    (after : TagSet), (g.draw depth c active).Yields (.ok (s, after)) →
    s.category = c ∧ g.Threads s active after
  | 0, _, _, _, _, h => absurd h (Draw.not_yields_stuck _)
  | depth + 1, c, active, s, after, h => by
    obtain ⟨i, a, children, choice, rfl, hget, helig, hw, hchildren, hchoice⟩ := exists_of_yields_draw_succ h
    obtain ⟨hslots, hthreads⟩ :=
      threadsAll_of_yields (threads_of_yields depth) (a.reaching active) _ _ _ _ hchildren
    simp only [Alternative.isEligible, Bool.and_eq_true, Bool.not_eq_true'] at helig
    exact ⟨rfl, a, ⟨hget, helig.1, hw, hslots, hchoice⟩, helig.2, hthreads⟩

/-! ## The nodes of a tree that threads tags -/

mutual

/-- Every subtree of a tree that threads tags threads tags itself. -/
theorem exists_threads_of_mem_subtrees {g : Grammar} : ∀ (s : Skeleton) {active after : TagSet},
    g.Threads s active after → ∀ n ∈ s.subtrees, ∃ around last, g.Threads n around last
  | .node c i parts choice, active, after, h, n, hn => by
    rcases List.mem_cons.mp hn with hroot | hbelow
    · exact ⟨active, after, hroot ▸ h⟩
    · obtain ⟨a, -, -, hparts⟩ := h
      exact exists_threads_of_mem_subtreesOfAll parts hparts n hbelow

theorem exists_threads_of_mem_subtreesOfAll {g : Grammar} : ∀ (parts : List Skeleton) {reaching : Option TagSet}
    {active after : TagSet}, g.ThreadsAll reaching parts active after →
    ∀ n ∈ Skeleton.subtreesOfAll parts, ∃ around last, g.Threads n around last
  | [], _, _, _, _, n, hn => absurd hn List.not_mem_nil
  | s :: rest, reaching, active, after, h, n, hn => by
    obtain ⟨between, hs, hrest⟩ := h
    rcases List.mem_append.mp hn with hfirst | hlater
    · exact exists_threads_of_mem_subtrees s hs n hfirst
    · exact exists_threads_of_mem_subtreesOfAll rest hrest n hlater

end

/-- Every node of a tree that threads tags fits its alternative. -/
theorem nodeFits_of_threads {g : Grammar} (s : Skeleton) {active after : TagSet} (h : g.Threads s active after) :
    ∀ n ∈ s.subtrees, ∃ a, g.NodeFits n a := by
  intro n hn
  obtain ⟨around, last, hthreads⟩ := exists_threads_of_mem_subtrees s h n hn
  cases n with
  | node c i parts choice =>
    obtain ⟨a, hfits, -⟩ := hthreads
    exact ⟨a, hfits⟩

/-! ## Draws that fail -/

/-- Children drawn one after the other fail only as one of them does. -/
theorem error_of_yields_drawChildren {one : Category → TagSet → Draw (Except RuleError (Skeleton × TagSet))}
    {e : RuleError} {reaching : Option TagSet} : ∀ (slots : List Category) (active : TagSet),
    (drawChildren one reaching slots active).Yields (.error e) →
    ∃ c tags, (one c tags).Yields (.error e)
  | [], _, h => by simp [drawChildren] at h
  | slot :: rest, active, h => by
    simp only [drawChildren, Draw.yields_bind] at h
    obtain ⟨first, hfirst, h⟩ := h
    cases first with
    | error e' =>
      simp only [Draw.pure_eq_done, Draw.yields_done, Except.error.injEq] at h
      exact ⟨slot, _, h ▸ hfirst⟩
    | ok pair =>
      obtain ⟨child, between⟩ := pair
      simp only [Draw.yields_bind] at h
      obtain ⟨others, hothers, h⟩ := h
      cases others with
      | error e' =>
        simp only [Draw.pure_eq_done, Draw.yields_done, Except.error.injEq] at h
        exact error_of_yields_drawChildren rest _ (h ▸ hothers)
      | ok pair =>
        obtain ⟨siblings, last⟩ := pair
        simp at h

/-- A draw fails only where no alternative of some category can be chosen. -/
theorem eq_noEligibleAlternative_of_yields {g : Grammar} {e : RuleError} : ∀ (depth : Nat) (c : Category)
    (active : TagSet), (g.draw depth c active).Yields (.error e) →
    ∃ d, e = .noEligibleAlternative d
  | 0, _, _, h => absurd h (Draw.not_yields_stuck _)
  | depth + 1, c, active, h => by
    simp only [draw, Draw.yields_bind] at h
    obtain ⟨picked, hpicked, h⟩ := h
    cases picked with
    | none =>
      simp only [Draw.pure_eq_done, Draw.yields_done, Except.error.injEq] at h
      exact ⟨c, h.symm⟩
    | some entry =>
      obtain ⟨i, a⟩ := entry
      simp only [Draw.yields_bind] at h
      obtain ⟨result, hresult, h⟩ := h
      cases result with
      | error e' =>
        simp only [Draw.pure_eq_done, Draw.yields_done, Except.error.injEq] at h
        obtain ⟨d, tags, hd⟩ := error_of_yields_drawChildren _ _ (h ▸ hresult)
        exact eq_noEligibleAlternative_of_yields depth d tags hd
      | ok pair =>
        obtain ⟨children, last⟩ := pair
        simp [Draw.yields_bind] at h

end Grammar

end HiddenRule
