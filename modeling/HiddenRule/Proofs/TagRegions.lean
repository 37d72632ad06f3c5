import HiddenRule.Grammar.Standard
import HiddenRule.Proofs.TagThreads
import HiddenRule.Skeleton.Standard

/-
  The regions of a drawn skeleton. The region of a node is the node and
  whatever lies below it without an alternative between that chooses its
  children apart; each child of such an alternative starts a region of its
  own. A tree drawn under active tags never repeats a tag within a region, nor
  carries one of the tags the region starts from. Of the tags around them,
  regions that start below another know only the tag of position.

  What is proved:
    1. `exclusive_region_of_threads`: the tags of a tree's own region exclude
       each other, and are the tags the tree hands on.
    2. `threads_of_hasRegion`: every region starts from the tags that `HasRegion`
       names for it.
    3. `drawn_regions_exclusive`: both together, for every run of a draw over
       every source of words.
-/

namespace HiddenRule

namespace TagSet

theorem intersects_comm (s t : TagSet) : s.intersects t = t.intersects s := by
  simp only [intersects, Bool.and_comm]

theorem intersects_union (s t u : TagSet) :
    s.intersects (t.union u) = (s.intersects t || s.intersects u) := by
  rw [Bool.eq_iff_iff, Bool.or_eq_true]
  simp only [intersects_eq_true_iff, contains_union, Bool.or_eq_true, and_or_left, exists_or]

end TagSet

namespace Grammar

/-- The tags of the alternative a node names. -/
def tagsOf (g : Grammar) (n : Skeleton) : TagSet := ((g.chosen? n).map Alternative.tags).getD .empty

/-- Whether a node's children are chosen apart. -/
def isApart (g : Grammar) (n : Skeleton) : Bool := (g.chosen? n).any Alternative.independent

theorem NodeFits.tagsOf_eq {g : Grammar} {n : Skeleton} {a : Alternative} (h : g.NodeFits n a) :
    g.tagsOf n = a.tags := by
  rw [tagsOf, h.named]
  rfl

theorem NodeFits.isApart_eq {g : Grammar} {n : Skeleton} {a : Alternative} (h : g.NodeFits n a) :
    g.isApart n = a.independent := by
  rw [isApart, h.named]
  rfl

/-! ## Regions -/

mutual

/-- The nodes of the region that a tree starts, each before those below it. -/
def region (g : Grammar) : Skeleton → List Skeleton
  | .node c i parts choice =>
    .node c i parts choice :: if g.isApart (.node c i parts choice) then [] else regionOfAll g parts

/-- The nodes of the regions that the trees start, one tree after the other. -/
def regionOfAll (g : Grammar) : List Skeleton → List Skeleton
  | [] => []
  | s :: rest => region g s ++ regionOfAll g rest

end

/-- The tags active after nodes that follow each other. -/
def activeAfter (g : Grammar) (active : TagSet) (nodes : List Skeleton) : TagSet :=
  nodes.foldl (fun tags n => tags.union (g.tagsOf n)) active

/-- The tags that the children of a node chosen apart start from: position, if
the node's region starts from it, or the node or one before it in the region
carries it. -/
def startBelow (g : Grammar) (start : TagSet) (before : List Skeleton) (m : Skeleton) : TagSet :=
  if start.contains .position || (before ++ [m]).any fun n => (g.tagsOf n).contains .position then
    .single .position
  else .empty

/-- The trees that start a region of a tree under active tags, with the tags
they start from: the tree itself, and every child of a node in a region whose
children are chosen apart. -/
inductive HasRegion (g : Grammar) (s : Skeleton) (active : TagSet) : Skeleton → TagSet → Prop where
  | root : HasRegion g s active s active
  | inner {r m child : Skeleton} {start : TagSet} {before rest : List Skeleton} :
    HasRegion g s active r start → g.region r = before ++ m :: rest → g.isApart m = true →
    child ∈ m.children → HasRegion g s active child (g.startBelow start before m)

/-- Nodes none of which carries a tag of the start or of another. -/
def Exclusive (g : Grammar) (start : TagSet) (nodes : List Skeleton) : Prop :=
  (∀ n ∈ nodes, (g.tagsOf n).intersects start = false) ∧
    nodes.Pairwise fun m n => (g.tagsOf m).intersects (g.tagsOf n) = false

variable {g : Grammar}

/-! ## Tags along a list of nodes -/

theorem activeAfter_append (active : TagSet) (nodes others : List Skeleton) :
    g.activeAfter active (nodes ++ others) = g.activeAfter (g.activeAfter active nodes) others :=
  List.foldl_append

theorem contains_activeAfter (t : Tag) : ∀ (nodes : List Skeleton) (active : TagSet),
    (g.activeAfter active nodes).contains t =
      (active.contains t || nodes.any fun n => (g.tagsOf n).contains t)
  | [], active => by simp [activeAfter]
  | n :: rest, active => by
    have ih := contains_activeAfter t rest (active.union (g.tagsOf n))
    simp only [activeAfter, List.foldl_cons, List.any_cons] at ih ⊢
    rw [ih, TagSet.contains_union, Bool.or_assoc]

theorem exclusive_nil (start : TagSet) : g.Exclusive start [] := by simp [Exclusive]

/-- A node excludes those after it exactly if they exclude its tags, too, from
their start. -/
theorem exclusive_cons {start : TagSet} {n : Skeleton} {rest : List Skeleton} :
    g.Exclusive start (n :: rest) ↔
      (g.tagsOf n).intersects start = false ∧ g.Exclusive (start.union (g.tagsOf n)) rest := by
  have hunion : ∀ m, (g.tagsOf m).intersects (start.union (g.tagsOf n)) = false ↔
      (g.tagsOf m).intersects start = false ∧ (g.tagsOf n).intersects (g.tagsOf m) = false := by
    intro m
    rw [TagSet.intersects_union, Bool.or_eq_false_iff, TagSet.intersects_comm (g.tagsOf n)]
  simp only [Exclusive, List.forall_mem_cons, List.pairwise_cons, hunion, forall_and]
  refine ⟨?_, ?_⟩
  · intro h
    exact ⟨h.1.1, ⟨h.1.2, h.2.1⟩, h.2.2⟩
  · intro h
    exact ⟨⟨h.1, h.2.1.1⟩, h.2.1.2, h.2.2⟩

theorem exclusive_append {nodes others : List Skeleton} : ∀ {start : TagSet},
    g.Exclusive start (nodes ++ others) ↔
      g.Exclusive start nodes ∧ g.Exclusive (g.activeAfter start nodes) others := by
  induction nodes with
  | nil => intro start; simp [exclusive_nil, activeAfter]
  | cons n rest ih =>
    intro start
    rw [List.cons_append, exclusive_cons, exclusive_cons, ih, and_assoc]
    rfl

/-! ## A tree's own region -/

/-- Children chosen apart hand no tags on. -/
theorem eq_of_threadsAll_some {tags active after : TagSet} : ∀ {parts : List Skeleton},
    g.ThreadsAll (some tags) parts active after → after = active
  | [], h => h
  | _ :: _, h => eq_of_threadsAll_some (threadsAll_apart.mp h).2

mutual

/-- The tags of a tree's own region exclude each other, and the tree hands
them on with those it starts from. -/
theorem exclusive_region_of_threads : ∀ (s : Skeleton) {active after : TagSet},
    g.Threads s active after →
    g.Exclusive active (g.region s) ∧ after = g.activeAfter active (g.region s)
  | .node c i parts choice, active, after, h => by
    obtain ⟨a, hfits, hfree, hparts⟩ := h
    rw [← hfits.tagsOf_eq] at hfree hparts
    rw [region, hfits.isApart_eq, exclusive_cons]
    cases hind : a.independent with
    | true =>
      rw [Alternative.reaching_eq_some hind] at hparts
      exact ⟨⟨hfree, exclusive_nil _⟩, eq_of_threadsAll_some hparts⟩
    | false =>
      rw [Alternative.reaching_eq_none hind] at hparts
      obtain ⟨hexcl, hafter⟩ := exclusive_region_of_threadsAll parts hparts
      exact ⟨⟨hfree, hexcl⟩, hafter⟩

theorem exclusive_region_of_threadsAll : ∀ (parts : List Skeleton) {active after : TagSet},
    g.ThreadsAll none parts active after →
    g.Exclusive active (g.regionOfAll parts) ∧ after = g.activeAfter active (g.regionOfAll parts)
  | [], active, after, h => ⟨exclusive_nil _, h⟩
  | s :: rest, active, after, h => by
    obtain ⟨between, hs, hrest⟩ := threadsAll_shared.mp h
    obtain ⟨hexcl, rfl⟩ := exclusive_region_of_threads s hs
    obtain ⟨hexclrest, hafter⟩ := exclusive_region_of_threadsAll rest hrest
    rw [regionOfAll, exclusive_append, activeAfter_append]
    exact ⟨⟨hexcl, hexclrest⟩, hafter⟩

end

/-! ## The regions below -/

mutual

/-- Every node of a tree's own region threads the tags that the nodes before
it leave active. -/
theorem threads_of_region_eq : ∀ (s : Skeleton) (before : List Skeleton) {active after : TagSet}
    {m : Skeleton} {rest : List Skeleton}, g.Threads s active after → g.region s = before ++ m :: rest →
    ∃ last, g.Threads m (g.activeAfter active before) last
  | .node c i parts choice, before, active, after, m, rest, h, hregion => by
    rw [region] at hregion
    cases before with
    | nil =>
      obtain ⟨hm, -⟩ := List.cons.inj hregion
      exact ⟨after, hm ▸ h⟩
    | cons n before =>
      obtain ⟨rfl, hbelow⟩ := List.cons.inj hregion
      obtain ⟨a, hfits, -, hparts⟩ := h
      rw [← hfits.tagsOf_eq] at hparts
      rw [hfits.isApart_eq] at hbelow
      cases hind : a.independent with
      | true => simp [hind] at hbelow
      | false =>
        rw [Alternative.reaching_eq_none hind] at hparts
        rw [if_neg (by simp [hind])] at hbelow
        exact threads_of_regionOfAll_eq parts before hparts hbelow

theorem threads_of_regionOfAll_eq : ∀ (parts before : List Skeleton) {active after : TagSet}
    {m : Skeleton} {rest : List Skeleton}, g.ThreadsAll none parts active after →
    g.regionOfAll parts = before ++ m :: rest →
    ∃ last, g.Threads m (g.activeAfter active before) last
  | [], before, _, _, m, rest, _, hregion => by simp [regionOfAll] at hregion
  | s :: others, before, active, after, m, rest, h, hregion => by
    obtain ⟨between, hs, hothers⟩ := threadsAll_shared.mp h
    obtain ⟨-, rfl⟩ := exclusive_region_of_threads s hs
    rw [regionOfAll] at hregion
    -- the node lies after the region of the first tree, or in it
    rcases List.append_eq_append_iff.mp hregion with ⟨later, hbefore, hlater⟩ | ⟨within, hfirst, hwithin⟩
    · rw [hbefore, activeAfter_append]
      exact threads_of_regionOfAll_eq others later hothers hlater
    · cases within with
      | nil =>
        rw [List.append_nil] at hfirst
        rw [← hfirst]
        exact threads_of_regionOfAll_eq others [] hothers hwithin.symm
      | cons n within =>
        obtain ⟨rfl, -⟩ := List.cons.inj hwithin
        exact threads_of_region_eq s before hs hfirst

end

/-- Trees that tags reach from around them each thread those tags. -/
theorem threads_of_threadsAll_some {tags active after : TagSet} : ∀ {parts : List Skeleton},
    g.ThreadsAll (some tags) parts active after → ∀ s ∈ parts, ∃ last, g.Threads s tags last
  | [], _, s, hs => absurd hs List.not_mem_nil
  | _ :: _, h, s, hs => by
    obtain ⟨hfirst, hrest⟩ := threadsAll_apart.mp h
    rcases List.mem_cons.mp hs with hhere | hlater
    · exact hhere ▸ hfirst
    · exact threads_of_threadsAll_some hrest s hlater

/-- A child chosen apart threads the tag of position or no tag. -/
theorem threads_child_of_isApart {m child : Skeleton} {active after : TagSet}
    (h : g.Threads m active after) (hapart : g.isApart m = true) (hchild : child ∈ m.children) :
    ∃ last, g.Threads child (apart (active.union (g.tagsOf m))) last := by
  cases m with
  | node c i parts choice =>
    obtain ⟨a, hfits, -, hparts⟩ := h
    rw [hfits.isApart_eq] at hapart
    rw [Alternative.reaching_eq_some hapart, ← hfits.tagsOf_eq] at hparts
    exact threads_of_threadsAll_some hparts child hchild

/-- What reaches a child chosen apart is position, where it is among the tags
of the region so far. -/
theorem apart_activeAfter (start : TagSet) (before : List Skeleton) (m : Skeleton) :
    apart ((g.activeAfter start before).union (g.tagsOf m)) = g.startBelow start before m := by
  have hactive : (g.activeAfter start before).union (g.tagsOf m) = g.activeAfter start (before ++ [m]) := by
    rw [activeAfter_append]
    rfl
  rw [apart, startBelow, hactive, contains_activeAfter]

/-- Every region of a tree is the region of a tree that threads the tags the
region starts from. -/
theorem threads_of_hasRegion {s r : Skeleton} {active after start : TagSet}
    (h : g.Threads s active after) (hr : g.HasRegion s active r start) :
    ∃ last, g.Threads r start last := by
  induction hr with
  | root => exact ⟨after, h⟩
  | inner _ hregion hapart hchild ih =>
    obtain ⟨last, hlast⟩ := ih
    obtain ⟨lastOf, hm⟩ := threads_of_region_eq _ _ hlast hregion
    rw [← apart_activeAfter]
    exact threads_child_of_isApart hm hapart hchild

/-! ## Every node lies in a region -/

theorem regionOfAll_append (parts others : List Skeleton) :
    g.regionOfAll (parts ++ others) = g.regionOfAll parts ++ g.regionOfAll others := by
  induction parts with
  | nil => rfl
  | cons s rest ih => rw [List.cons_append, regionOfAll, ih, regionOfAll, List.append_assoc]

/-- A tree whose region is part of a region has all its nodes in regions. -/
theorem exists_hasRegion_of_region_eq {s : Skeleton} {active : TagSet} (t : Skeleton) :
    ∀ (before rest : List Skeleton) {r : Skeleton} {start : TagSet}, g.HasRegion s active r start →
    g.region r = before ++ (g.region t ++ rest) →
    ∀ n ∈ t.subtrees, ∃ r' start', g.HasRegion s active r' start' ∧ n ∈ g.region r' := by
  induction t using Skeleton.partsInduction with
  | step c i parts choice ih =>
    intro before rest r start hr hregion n hn
    rw [region] at hregion
    rcases Skeleton.mem_subtrees.mp hn with hself | ⟨child, hchild, hbelow⟩
    · subst hself
      exact ⟨r, start, hr, by rw [hregion]; simp⟩
    · cases hapart : g.isApart (.node c i parts choice) with
      | true =>
        -- the child starts a region
        have hstart := HasRegion.inner hr hregion hapart hchild
        exact ih child hchild [] [] hstart (by simp) n hbelow
      | false =>
        -- the child's region is part of the same one
        obtain ⟨left, right, hparts⟩ := List.append_of_mem hchild
        change parts = left ++ child :: right at hparts
        rw [hapart, if_neg (by simp), hparts, regionOfAll_append, regionOfAll] at hregion
        refine ih child hchild (before ++ .node c i (left ++ child :: right) choice :: g.regionOfAll left)
          (g.regionOfAll right ++ rest) hr ?_ n hbelow
        rw [hregion]
        simp

theorem exists_hasRegion {s n : Skeleton} (active : TagSet) (hn : n ∈ s.subtrees) :
    ∃ r start, g.HasRegion s active r start ∧ n ∈ g.region r :=
  exists_hasRegion_of_region_eq s [] [] .root (by simp) n hn

/-! ## Every drawn tree -/

/-- What a drawn tree promises: its nodes fit their alternatives, each of them
lies in a region, no region repeats a tag or carries one it starts from, and
the tags handed on are those of the tree's own region with those around it. -/
structure Excludes (g : Grammar) (c : Category) (active : TagSet) (s : Skeleton) (after : TagSet) :
    Prop where
  category : s.category = c
  fits : ∀ n ∈ s.subtrees, ∃ a, g.NodeFits n a
  covered : ∀ n ∈ s.subtrees, ∃ r start, g.HasRegion s active r start ∧ n ∈ g.region r
  exclusive : ∀ r start, g.HasRegion s active r start → g.Exclusive start (g.region r)
  handsOn : after = g.activeAfter active (g.region s)

/-- **No region of a drawn tree repeats a tag.** For every grammar, category
and set of active tags, and every source of words: whatever tree a run of the
draw ends with. -/
theorem drawn_regions_exclusive {σ : Type} [WordSource σ] (g : Grammar) (c : Category) (active : TagSet)
    (depth patience : Nat) (source rest : σ) (s : Skeleton) (after : TagSet)
    (h : (g.draw depth c active).run patience source = some (.ok (s, after), rest)) :
    g.Excludes c active s after := by
  obtain ⟨hcategory, hthreads⟩ := threads_of_yields depth c active s after (Draw.yields_of_run h)
  refine ⟨hcategory, nodeFits_of_threads s hthreads, fun n hn => exists_hasRegion active hn, ?_,
    (exclusive_region_of_threads s hthreads).2⟩
  intro r start hr
  obtain ⟨last, hlast⟩ := threads_of_hasRegion hthreads hr
  exact (exclusive_region_of_threads r hlast).1

/-- A rule of the standard grammar, drawn from five words: every blank cell is
adjacent to a yellow symbol. The yellow noun repeats the color tag of the
blank one, in a region of its own. -/
theorem blank_adjacent_regions_exclusive :
    (standard.draw 3 .rule .empty).run 1 (Script.mk [0, 4000000000, 3000000000, 4000, 0x8000000000000001]) =
        some (.ok (.every .blank (.adjacentTo (.noun 0 1)), ⟨true, true, true⟩), ⟨[]⟩) ∧
      standard.Excludes .rule .empty (.every .blank (.adjacentTo (.noun 0 1))) ⟨true, true, true⟩ := by
  have hrun : (standard.draw 3 .rule .empty).run 1
      (Script.mk [0, 4000000000, 3000000000, 4000, 0x8000000000000001]) =
      some (.ok (.every .blank (.adjacentTo (.noun 0 1)), ⟨true, true, true⟩), ⟨[]⟩) := rfl
  exact ⟨hrun, drawn_regions_exclusive standard .rule .empty 3 1 _ _ _ _ hrun⟩

end Grammar

end HiddenRule
