import HiddenRule.Proofs.CellClusters
import Mathlib.Data.List.Chain

/-
  Clusters by paths. A path is a list of cells, each beside the next in a row or
  in a column; the search never speaks of paths, and works on lists in which
  cells can stand more than once and in any order. Each look of the search takes
  one cell off its two lists, so it is over after as many looks as there are
  cells.

  What is proved:
    1. `exists_path_iff_joined`: being joined is having a path.
    2. `iterate_look`: looks at one cell after the other come to an end, with
       the cells that are not reached.
    3. `connected_iff_paths`: listed cells form one cluster exactly if paths
       within them lead from each to each, and only the set of them matters.
-/

namespace HiddenRule.Cell

/-- Whether two cells lie next to each other, in a row or in a column. -/
def Beside (i j : Nat) : Prop :=
  (row i = row j ∧ (column i + 1 = column j ∨ column j + 1 = column i)) ∨
    (column i = column j ∧ (row i + 1 = row j ∨ row j + 1 = row i))

instance (i j : Nat) : Decidable (Beside i j) :=
  inferInstanceAs (Decidable ((row i = row j ∧ (column i + 1 = column j ∨ column j + 1 = column i)) ∨
    (column i = column j ∧ (row i + 1 = row j ∨ row j + 1 = row i))))

/-- On the board, lying next to each other is sharing an edge. -/
theorem beside_iff_adjacent : ∀ i < count, ∀ j < count, (Beside i j ↔ adjacent i j = true) := by decide

/-- Whether a path leads from one cell to another, within listed cells. -/
structure Path (cells : List Nat) (i j : Nat) (path : List Nat) : Prop where
  starts : path.head? = some i
  ends : path.getLast? = some j
  inside : ∀ k ∈ path, k ∈ cells
  steps : path.IsChain Beside

/-! ## Paths and joined cells -/

section
variable {cells : List Nat} {i j : Nat}

/-- A path joins the cells that it leads along. -/
theorem Path.joined (hboard : ∀ k ∈ cells, k < count) : ∀ {path : List Nat} {i : Nat},
    Path cells i j path → Joined cells i j
  | [], _, h => absurd h.starts nofun
  | [k], i, h => by
    have hi : k = i := Option.some.inj h.starts
    have hj : k = j := Option.some.inj h.ends
    exact hi ▸ hj ▸ .refl
  | k :: l :: rest, i, h => by
    have hi : k = i := Option.some.inj h.starts
    subst hi
    obtain ⟨hstep, hsteps⟩ := List.isChain_cons_cons.mp h.steps
    obtain ⟨hk, hinside⟩ := List.forall_mem_cons.mp h.inside
    have hl : l ∈ cells := hinside l List.mem_cons_self
    have hrest : Path cells l j (l :: rest) :=
      ⟨rfl, by rw [← h.ends, List.getLast?_cons_cons], hinside, hsteps⟩
    have hadjacent : adjacent k l = true := (beside_iff_adjacent k (hboard k hk) l (hboard l hl)).mp hstep
    exact .head ⟨hk, hl, hadjacent⟩ (hrest.joined hboard)

/-- Joined cells have a path, gone from its end. -/
theorem exists_path_of_joined (hboard : ∀ k ∈ cells, k < count) (hj : j ∈ cells) (h : Joined cells i j) :
    ∃ path, Path cells i j path := by
  induction h using Relation.ReflTransGen.head_induction_on with
  | refl => exact ⟨[j], rfl, rfl, by simpa using hj, .singleton j⟩
  | @head k l hstep _ ih =>
    obtain ⟨path, hpath⟩ := ih
    obtain ⟨hk, hl, hadjacent⟩ := hstep
    have hbeside : Beside k l := (beside_iff_adjacent k (hboard k hk) l (hboard l hl)).mpr hadjacent
    obtain _ | ⟨m, rest⟩ := path
    · exact absurd hpath.starts nofun
    · have hm : m = l := Option.some.inj hpath.starts
      subst hm
      have hends : (k :: m :: rest).getLast? = some j := by
        rw [List.getLast?_cons_cons]
        exact hpath.ends
      have hinside : ∀ l ∈ k :: m :: rest, l ∈ cells := List.forall_mem_cons.mpr ⟨hk, hpath.inside⟩
      exact ⟨k :: m :: rest, rfl, hends, hinside, .cons_cons hbeside hpath.steps⟩

theorem exists_path_iff_joined (hboard : ∀ k ∈ cells, k < count) (hj : j ∈ cells) :
    (∃ path, Path cells i j path) ↔ Joined cells i j :=
  ⟨fun ⟨_, h⟩ => h.joined hboard, exists_path_of_joined hboard hj⟩

end

/-! ## The looks of a search -/

/-- One look of the search: at the first cell of the frontier, if there is one. -/
def look : List Nat × List Nat → List Nat × List Nat
  | ([], waiting) => ([], waiting)
  | (i :: frontier, waiting) => (near i waiting ++ frontier, far i waiting)

/-- As many looks as there are cells leave no frontier, and leave waiting what
is not reached. -/
theorem iterate_look (frontier waiting : List Nat) :
    look^[frontier.length + waiting.length] (frontier, waiting) = ([], unreached frontier waiting) := by
  induction frontier, waiting using unreached.induct with
  | case1 waiting =>
    rw [unreached]
    exact Function.iterate_fixed rfl _
  | case2 i frontier waiting ih =>
    have hlooks : (i :: frontier).length + waiting.length =
        (near i waiting ++ frontier).length + (far i waiting).length + 1 := by
      have hsplit := length_near_add_length_far i waiting
      rw [List.length_append, List.length_cons]
      omega
    rw [hlooks, Function.iterate_succ_apply, unreached]
    exact ih

/-! ## Clusters -/

/-- Whether cells are joined within a list depends on the set of listed cells. -/
theorem joined_congr {cells others : List Nat} (h : ∀ i, i ∈ cells ↔ i ∈ others) :
    Joined cells = Joined others := by
  unfold Joined
  simp only [h]

/-- **The search finds out whether cells form one cluster.** Whatever cells are
listed, in whatever order and however often, the search says that they form one
cluster exactly if none are listed, or all of them lie on the board and paths
within them lead from each to each. So its answer depends on the set of listed
cells alone. From whatever cell it starts, it is over after as many looks as
there are cells. -/
theorem connected_iff_paths :
    (∀ cells, connected cells = true ↔ cells = [] ∨
      ((∀ i ∈ cells, i < count) ∧ ∀ i ∈ cells, ∀ j ∈ cells, ∃ path, Path cells i j path)) ∧
    (∀ cells others, (∀ i, i ∈ cells ↔ i ∈ others) → connected cells = connected others) ∧
    ∀ i rest, look^[rest.length + 1] ([i], rest) = ([], unreached [i] rest) := by
  refine ⟨?_, ?_, ?_⟩
  · intro cells
    have hpaths : ((∀ i ∈ cells, i < count) ∧ ∀ i ∈ cells, ∀ j ∈ cells, ∃ path, Path cells i j path) ↔
        connected cells = true := by
      rw [connected_iff]
      refine and_congr_right fun hboard => ?_
      exact forall₂_congr fun i _ => forall₂_congr fun j hj => exists_path_iff_joined hboard hj
    rw [hpaths]
    refine ⟨.inr, ?_⟩
    intro h
    rcases h with rfl | hconnected
    · rw [connected]
    · exact hconnected
  · intro cells others h
    rw [Bool.eq_iff_iff, connected_iff, connected_iff, joined_congr h]
    simp only [h]
  · intro i rest
    rw [← iterate_look, Nat.add_comm]
    rfl

/-- A bent cluster, listed with a cell twice and listed in order: a path leads
from its one end to the other. Between the end of a row and the start of the next
there is none. -/
theorem bent_cluster_connected :
    connected [8, 0, 3, 6, 7, 3] = connected [0, 3, 6, 7, 8] ∧ (∃ path, Path [8, 0, 3, 6, 7, 3] 8 0 path) ∧
      ¬∀ i ∈ [2, 3], ∀ j ∈ [2, 3], ∃ path, Path [2, 3] i j path := by
  obtain ⟨hdecides, hset, -⟩ := connected_iff_paths
  refine ⟨?_, ?_, ?_⟩
  · apply hset
    intro i
    simp only [List.mem_cons, List.not_mem_nil, or_false]
    omega
  · have hbent : connected [8, 0, 3, 6, 7, 3] = true := by cbv
    obtain hnil | ⟨-, hpaths⟩ := (hdecides _).mp hbent
    · contradiction
    · exact hpaths 8 (by decide) 0 (by decide)
  · intro hpaths
    have hconnected : connected [2, 3] = true := (hdecides _).mpr (.inr ⟨by decide, hpaths⟩)
    have hapart : connected [2, 3] = false := by cbv
    rw [hapart] at hconnected
    contradiction

end HiddenRule.Cell
