import HiddenRule.Proofs.Steering
import HiddenRule.Proofs.TagRegions

/-
  Every tree that fits a grammar can be drawn. A tree that threads the tags
  active around it is what the draw ends with over some words: a short one for
  each node, where its alternative is chosen, and a long one after the
  children of each node that has attributes to choose from. None of the words
  is rejected. The converse, that a drawn tree threads its tags, holds of every
  source (`threads_of_yields`).

  What is proved:
    1. `exists_steers_draw`: the words for a tree, by induction along the tags
       it threads.
    2. `exists_words_of_threads`: the draw ends with the tree over these words.
    3. `light_standard`: in the standard grammar the weights are never too
       large for this.
-/

namespace HiddenRule

namespace Skeleton

mutual

/-- The number of nodes on the longest way down a tree. -/
def height : Skeleton → Nat
  | node _ _ parts _ => heightOfAll parts + 1

/-- The height of the highest of the trees. -/
def heightOfAll : List Skeleton → Nat
  | [] => 0
  | s :: rest => max (height s) (heightOfAll rest)

end

end Skeleton

namespace Grammar

/-- The number of attributes that a node's alternative has to choose from. -/
def choices (g : Grammar) (n : Skeleton) : Nat := ((g.chosen? n).map Alternative.attributeCount).getD 0

/-- The tags that reach the children of a node under active tags, where they
are chosen apart. -/
def reachingBelow (g : Grammar) (n : Skeleton) (active : TagSet) : Option TagSet :=
  if g.isApart n then some (apart (active.union (g.tagsOf n))) else none

mutual

/-- Whether at each node of a tree the alternatives that can be chosen under
the tags active there weigh less than there are short words. -/
def Light (g : Grammar) : Skeleton → (active : TagSet) → Prop
  | .node c i parts choice, active => Draw.totalWeight (g.candidates c active) < UInt32.size ∧
      LightAll g (g.reachingBelow (.node c i parts choice) active) parts
        (active.union (g.tagsOf (.node c i parts choice)))

/-- Whether trees chosen one after the other are light: each under the tags
active after the one before it, or all under the tags that reach them. -/
def LightAll (g : Grammar) (reaching : Option TagSet) : List Skeleton → (active : TagSet) → Prop
  | [], _ => True
  | s :: rest, active => Light g s (reaching.getD active) ∧
      LightAll g reaching rest (if reaching.isSome then active else g.activeAfter active (g.region s))

end

mutual

/-- The widths of the words that a tree is drawn from, in order. -/
def requests (g : Grammar) : Skeleton → List Width
  | .node c i parts choice => .short :: (requestsOfAll g parts ++
      if g.choices (.node c i parts choice) = 0 then [] else [.long])

/-- The widths of the words that trees are drawn from, one after the other. -/
def requestsOfAll (g : Grammar) : List Skeleton → List Width
  | [] => []
  | s :: rest => requests g s ++ requestsOfAll g rest

end

variable {g : Grammar}

theorem NodeFits.choices_eq {n : Skeleton} {a : Alternative} (h : g.NodeFits n a) :
    g.choices n = a.attributeCount := by
  rw [choices, h.named]
  rfl

theorem NodeFits.reachingBelow_eq {n : Skeleton} {a : Alternative} (h : g.NodeFits n a) (active : TagSet) :
    g.reachingBelow n active = a.reaching active := by
  rw [reachingBelow, Alternative.reaching, h.isApart_eq, h.tagsOf_eq]

theorem NodeFits.mem_candidates {c : Category} {i choice : Nat} {parts : List Skeleton} {a : Alternative}
    {active : TagSet} (h : g.NodeFits (.node c i parts choice) a) (hfree : a.tags.intersects active = false) :
    ((i, a), a.weight.toNat) ∈ g.candidates c active := by
  have heligible : a.isEligible active = true := by
    simp only [Alternative.isEligible, h.generable, hfree, Bool.not_false, Bool.and_self]
  exact Grammar.mem_candidates.mpr ⟨h.named, heligible, rfl⟩

theorem exists_steers_drawChoice {a : Alternative} {k : Nat}
    (hk : if a.attributeCount = 0 then k = 0 else k < a.attributeCount) (hbound : a.attributeCount ≤ UInt64.size) :
    ∃ words, (drawChoice a).Steers words (if a.attributeCount = 0 then [] else [.long]) k := by
  unfold drawChoice
  by_cases hnone : a.attributeCount = 0
  · simp only [hnone, if_true] at hk ⊢
    subst hk
    exact ⟨[], Draw.steers_done 0⟩
  · simp only [hnone, if_false] at hk ⊢
    obtain ⟨word, hword⟩ := Draw.exists_steers_lessThan hk hbound
    exact ⟨[word], hword⟩

mutual

/-- The words that lead the draw of a fragment to a tree do so for every depth
that the tree fits in. -/
theorem exists_steers_draw : ∀ (s : Skeleton) {active after : TagSet}, g.Threads s active after →
    g.Light s active → (∀ n ∈ s.subtrees, g.choices n ≤ UInt64.size) →
    ∃ words, ∀ depth, s.height ≤ depth →
      (g.draw depth s.category active).Steers words (g.requests s) (.ok (s, after))
  | .node c i parts choice, active, after, hthreads, hlight, hchoices => by
    obtain ⟨a, hfits, hfree, hparts⟩ := hthreads
    obtain ⟨htotal, hbelow⟩ := hlight
    rw [hfits.reachingBelow_eq, hfits.tagsOf_eq] at hbelow
    have hattributes : a.attributeCount ≤ UInt64.size := by
      rw [← hfits.choices_eq]
      exact hchoices _ (Skeleton.self_mem_subtrees _)
    obtain ⟨word, hword⟩ := Draw.exists_steers_weighted (hfits.mem_candidates hfree) hfits.weighted htotal
    obtain ⟨words, hwords⟩ := exists_steers_drawChildren parts hparts hbelow
      fun n hn => hchoices n (List.mem_cons_of_mem _ hn)
    obtain ⟨last, hlast⟩ := exists_steers_drawChoice hfits.choice hattributes
    refine ⟨[word] ++ (words ++ last), ?_⟩
    intro depth hdepth
    cases depth with
    | zero => simp [Skeleton.height] at hdepth
    | succ depth =>
      have hlower : Skeleton.heightOfAll parts ≤ depth := by
        simpa only [Skeleton.height, Nat.add_le_add_iff_right] using hdepth
      have hchildren := hwords depth hlower
      rw [show parts.map Skeleton.category = a.slots from hfits.slots] at hchildren
      rw [requests, hfits.choices_eq]
      -- the alternative, then the children, then the attribute
      apply Draw.steers_bind hword
      apply Draw.steers_bind hchildren
      exact hlast.bind_done rfl

theorem exists_steers_drawChildren : ∀ (parts : List Skeleton) {reaching : Option TagSet}
    {active after : TagSet}, g.ThreadsAll reaching parts active after → g.LightAll reaching parts active →
    (∀ n ∈ Skeleton.subtreesOfAll parts, g.choices n ≤ UInt64.size) →
    ∃ words, ∀ depth, Skeleton.heightOfAll parts ≤ depth →
      (drawChildren (g.draw depth) reaching (parts.map Skeleton.category) active).Steers words
        (g.requestsOfAll parts) (.ok (parts, after))
  | [], reaching, active, after, hthreads, _, _ => by
    have hafter : after = active := hthreads
    subst hafter
    exact ⟨[], fun _ _ => Draw.steers_done _⟩
  | s :: rest, reaching, active, after, hthreads, hlight, hchoices => by
    obtain ⟨between, hs, hrest⟩ := hthreads
    obtain ⟨hlights, hlightrest⟩ := hlight
    have hnext : g.LightAll reaching rest (if reaching.isSome then active else between) := by
      cases reaching with
      | some tags => exact hlightrest
      | none =>
        -- a tree hands on the tags of its own region
        obtain ⟨-, hbetween⟩ := exclusive_region_of_threads s hs
        rw [hbetween]
        exact hlightrest
    obtain ⟨words, hwords⟩ := exists_steers_draw s hs hlights
      fun n hn => hchoices n (List.mem_append_left _ hn)
    obtain ⟨more, hmore⟩ := exists_steers_drawChildren rest hrest hnext
      fun n hn => hchoices n (List.mem_append_right _ hn)
    refine ⟨words ++ more, ?_⟩
    intro depth hdepth
    have hheights : s.height ≤ depth ∧ Skeleton.heightOfAll rest ≤ depth := Nat.max_le.mp hdepth
    rw [requestsOfAll]
    apply Draw.steers_bind (hwords depth hheights.1)
    exact (hmore depth hheights.2).bind_done rfl

end

/-! ## Light trees -/

theorem totalWeight_filter_le {α : Type} (chosen : α × Nat → Bool) : ∀ candidates : List (α × Nat),
    Draw.totalWeight (candidates.filter chosen) ≤ Draw.totalWeight candidates
  | [] => Nat.le_refl _
  | (a, w) :: rest => by
    have ih := totalWeight_filter_le chosen rest
    rw [List.filter_cons]
    split
    · simp only [Draw.totalWeight]
      omega
    · simp only [Draw.totalWeight]
      omega

/-- Tags only ever leave alternatives out. -/
theorem totalWeight_candidates_le (g : Grammar) (c : Category) (active : TagSet) :
    Draw.totalWeight (g.candidates c active) ≤
      Draw.totalWeight ((g.numbered c).map fun entry => (entry, entry.2.weight.toNat)) := by
  have h := totalWeight_filter_le (fun candidate => candidate.1.2.isEligible active)
    ((g.numbered c).map fun entry => (entry, entry.2.weight.toNat))
  rwa [List.filter_map] at h

mutual

/-- Every tree is light over a grammar whose categories each weigh less than
there are short words. -/
theorem light_of_totalWeight_lt
    (h : ∀ c, Draw.totalWeight ((g.numbered c).map fun entry => (entry, entry.2.weight.toNat)) < UInt32.size) :
    ∀ (s : Skeleton) (active : TagSet), g.Light s active
  | .node c _ parts _, active =>
    ⟨Nat.lt_of_le_of_lt (totalWeight_candidates_le g c active) (h c), lightAll_of_totalWeight_lt h parts _ _⟩

theorem lightAll_of_totalWeight_lt
    (h : ∀ c, Draw.totalWeight ((g.numbered c).map fun entry => (entry, entry.2.weight.toNat)) < UInt32.size) :
    ∀ (parts : List Skeleton) (reaching : Option TagSet) (active : TagSet), g.LightAll reaching parts active
  | [], _, _ => trivial
  | s :: rest, _, _ => ⟨light_of_totalWeight_lt h s _, lightAll_of_totalWeight_lt h rest _ _⟩

end

theorem light_standard (s : Skeleton) (active : TagSet) : standard.Light s active := by
  apply light_of_totalWeight_lt
  intro c
  cases c <;> decide

/-! ## Every fitting tree -/

/-- **Every tree that fits can be drawn.** A tree whose nodes fit the grammar
under the tags active at them is drawn, with those active around it, over some
words: a short one for each node, and a long one after the children of each
that has attributes to choose from, none of them rejected. An attribute is
chosen by a long word, so a list has to have no more of them than there are
such words; lists in memory are shorter. -/
theorem exists_words_of_threads (g : Grammar) (s : Skeleton) (active after : TagSet)
    (hthreads : g.Threads s active after) (hlight : g.Light s active)
    (hchoices : ∀ n ∈ s.subtrees, g.choices n ≤ UInt64.size) :
    ∃ words : List Nat, words.length = (g.requests s).length ∧
      ∀ (depth patience : Nat) (rest : List Nat) (trace : List Width), s.height ≤ depth → 0 < patience →
        (g.draw depth s.category active).run patience (⟨⟨words ++ rest⟩, trace⟩ : Traced Script) =
          some (.ok (s, after), ⟨⟨rest⟩, trace ++ g.requests s⟩) := by
  obtain ⟨words, hwords⟩ := exists_steers_draw s hthreads hlight hchoices
  refine ⟨words, (hwords s.height (Nat.le_refl _)).1, ?_⟩
  intro depth patience rest trace hdepth hpatience
  exact (hwords depth hdepth).2 patience rest trace hpatience

/-- Every blank cell is adjacent to a yellow symbol: drawn from four short
words, one for each node, and a long one for the color. -/
theorem blank_adjacent_has_words :
    ∃ words : List Nat, words.length = 5 ∧
      ∀ (depth patience : Nat) (rest : List Nat) (trace : List Width), 3 ≤ depth → 0 < patience →
        (standard.draw depth .rule .empty).run patience (⟨⟨words ++ rest⟩, trace⟩ : Traced Script) =
          some (.ok (.every .blank (.adjacentTo (.noun 0 1)), ⟨true, true, true⟩),
            ⟨⟨rest⟩, trace ++ [.short, .short, .short, .short, .long]⟩) := by
  have hrun : (standard.draw 3 .rule .empty).run 1
      (Script.mk [0, 4000000000, 3000000000, 4000, 0x8000000000000001]) =
      some (.ok (.every .blank (.adjacentTo (.noun 0 1)), ⟨true, true, true⟩), ⟨[]⟩) := rfl
  obtain ⟨-, hthreads⟩ := threads_of_yields 3 .rule .empty _ _ (Draw.yields_of_run hrun)
  exact exists_words_of_threads standard _ .empty _ hthreads (light_standard _ _) (by decide)

end Grammar

end HiddenRule
