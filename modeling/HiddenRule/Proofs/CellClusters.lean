import HiddenRule.Cell.Cluster
import Mathlib.Logic.Relation

/-
  What the search for a cluster decides. Two cells are joined within a list if
  cells of the list lead from one to the other, each sharing an edge with the
  next.

  What is proved:
    1. `exists_joined_of_not_mem_unreached`: whatever leaves the waiting cells
       is joined to a cell of the frontier.
    2. `touches_eq_false_of_mem_unreached`: no cell that was reached touches
       one that was not.
    3. `connected_iff`: listed cells form one cluster exactly if all of them lie
       on the board and each is joined to each.
-/

namespace HiddenRule.Cell

/-- Whether listed cells lead from one to another, edge by edge. -/
def Joined (cells : List Nat) : Nat → Nat → Prop :=
  Relation.ReflTransGen fun i j => i ∈ cells ∧ j ∈ cells ∧ adjacent i j = true

theorem adjacent_comm : ∀ i < count, ∀ j < count, adjacent i j = adjacent j i := by decide

theorem touches_self (i : Nat) : touches i i = true := by simp [touches]

/-- A cell is joined to the listed cells it touches. -/
theorem joined_of_touches {cells : List Nat} {i j : Nat} (hi : i ∈ cells) (hj : j ∈ cells)
    (h : touches i j = true) : Joined cells i j := by
  rw [touches, Bool.or_eq_true] at h
  rcases h with heq | hadj
  · rw [beq_iff_eq] at heq
    exact heq ▸ .refl
  · exact .single ⟨hi, hj, hadj⟩

theorem Joined.symm {cells : List Nat} (hboard : ∀ i ∈ cells, i < count) {i j : Nat}
    (h : Joined cells i j) : Joined cells j i := by
  induction h with
  | refl => exact .refl
  | tail _ hstep ih =>
    obtain ⟨hk, hl, hadj⟩ := hstep
    rw [adjacent_comm _ (hboard _ hk) _ (hboard _ hl)] at hadj
    exact .head ⟨hl, hk, hadj⟩ ih

/-! ## The search -/

theorem mem_near {i j : Nat} {waiting : List Nat} :
    j ∈ near i waiting ↔ j ∈ waiting ∧ touches i j = true := List.mem_filter

theorem mem_far {i j : Nat} {waiting : List Nat} :
    j ∈ far i waiting ↔ j ∈ waiting ∧ touches i j = false := by
  rw [far, List.mem_filter, Bool.not_eq_true']

theorem mem_of_mem_unreached {frontier waiting : List Nat} {j : Nat}
    (h : j ∈ unreached frontier waiting) : j ∈ waiting := by
  induction frontier, waiting using unreached.induct with
  | case1 waiting => rwa [unreached] at h
  | case2 i frontier waiting ih =>
    rw [unreached] at h
    exact (mem_far.mp (ih h)).1

/-- Whatever leaves the waiting cells is joined to a cell of the frontier. -/
theorem exists_joined_of_not_mem_unreached {cells frontier waiting : List Nat} {j : Nat}
    (hfrontier : ∀ i ∈ frontier, i ∈ cells) (hwaiting : ∀ i ∈ waiting, i ∈ cells) (hj : j ∈ waiting)
    (h : j ∉ unreached frontier waiting) : ∃ i ∈ frontier, Joined cells i j := by
  induction frontier, waiting using unreached.induct with
  | case1 waiting =>
    rw [unreached] at h
    exact absurd hj h
  | case2 i frontier waiting ih =>
    rw [unreached] at h
    have hi : i ∈ cells := hfrontier i List.mem_cons_self
    cases htouch : touches i j with
    | true => exact ⟨i, List.mem_cons_self, joined_of_touches hi (hwaiting j hj) htouch⟩
    | false =>
      -- the search goes on with what the first cell touches on its frontier
      have hreached : ∀ k ∈ near i waiting ++ frontier, k ∈ cells := by
        intro k hk
        rcases List.mem_append.mp hk with hnear | hrest
        · exact hwaiting k (mem_near.mp hnear).1
        · exact hfrontier k (List.mem_cons_of_mem _ hrest)
      have hleft : ∀ k ∈ far i waiting, k ∈ cells := fun k hk => hwaiting k (mem_far.mp hk).1
      obtain ⟨k, hk, hjoined⟩ := ih hreached hleft (mem_far.mpr ⟨hj, htouch⟩) h
      rcases List.mem_append.mp hk with hnear | hrest
      · obtain ⟨hkw, hik⟩ := mem_near.mp hnear
        exact ⟨i, List.mem_cons_self, (joined_of_touches hi (hwaiting k hkw) hik).trans hjoined⟩
      · exact ⟨k, List.mem_cons_of_mem _ hrest, hjoined⟩

/-- No cell that was reached touches one that was not. -/
theorem touches_eq_false_of_mem_unreached {frontier waiting : List Nat} {j k : Nat}
    (h : j ∈ unreached frontier waiting)
    (hk : k ∈ frontier ∨ (k ∈ waiting ∧ k ∉ unreached frontier waiting)) : touches k j = false := by
  induction frontier, waiting using unreached.induct with
  | case1 waiting =>
    rw [unreached] at hk
    rcases hk with hnil | ⟨hin, hout⟩
    · exact absurd hnil List.not_mem_nil
    · exact absurd hin hout
  | case2 i frontier waiting ih =>
    rw [unreached] at h hk
    rcases hk with hfront | ⟨hin, hout⟩
    · rcases List.mem_cons.mp hfront with rfl | hrest
      · exact (mem_far.mp (mem_of_mem_unreached h)).2
      · exact ih h (.inl (List.mem_append_right _ hrest))
    · -- a reached cell entered the frontier just now, or it is reached later
      cases htouch : touches i k with
      | true => exact ih h (.inl (List.mem_append_left _ (mem_near.mpr ⟨hin, htouch⟩)))
      | false => exact ih h (.inr ⟨mem_far.mpr ⟨hin, htouch⟩, hout⟩)

/-! ## Clusters -/

/-- A path from a cell of the frontier never enters what was not reached. -/
theorem not_mem_unreached_of_joined {i j : Nat} {rest : List Nat} (h : Joined (i :: rest) i j) :
    j ∉ unreached [i] rest := by
  induction h with
  | refl =>
    intro hi
    have := touches_eq_false_of_mem_unreached hi (.inl List.mem_cons_self)
    rw [touches_self] at this
    contradiction
  | @tail k l _ hstep ih =>
    intro hl
    obtain ⟨hk, -, hadj⟩ := hstep
    have hreached : k ∈ [i] ∨ (k ∈ rest ∧ k ∉ unreached [i] rest) := by
      rcases List.mem_cons.mp hk with rfl | hrest
      · exact .inl List.mem_cons_self
      · exact .inr ⟨hrest, ih⟩
    have := touches_eq_false_of_mem_unreached hl hreached
    rw [touches, hadj, Bool.or_true] at this
    contradiction

/-- Listed cells form one cluster exactly if all of them lie on the board and
each is joined to each. -/
theorem connected_iff {cells : List Nat} :
    connected cells = true ↔
      (∀ i ∈ cells, i < count) ∧ ∀ i ∈ cells, ∀ j ∈ cells, Joined cells i j := by
  cases cells with
  | nil => simp [connected]
  | cons i rest =>
    rw [connected, Bool.and_eq_true, List.all_eq_true, List.isEmpty_iff]
    simp only [decide_eq_true_eq]
    apply and_congr_right
    intro hboard
    have hfrontier : ∀ k ∈ [i], k ∈ i :: rest := by simp
    have hwaiting : ∀ k ∈ rest, k ∈ i :: rest := fun k hk => List.mem_cons_of_mem _ hk
    refine ⟨?_, ?_⟩
    · intro hnil
      have hfirst : ∀ j ∈ i :: rest, Joined (i :: rest) i j := by
        intro j hj
        rcases List.mem_cons.mp hj with rfl | hrest
        · exact .refl
        · obtain ⟨k, hk, hjoined⟩ :=
            exists_joined_of_not_mem_unreached hfrontier hwaiting hrest (by simp [hnil])
          exact List.mem_singleton.mp hk ▸ hjoined
      intro j hj k hk
      exact ((hfirst j hj).symm hboard).trans (hfirst k hk)
    · intro hall
      -- whatever stays unreached is joined to the first cell, and so was reached
      apply List.eq_nil_iff_forall_not_mem.mpr
      intro j hj
      have hin : j ∈ i :: rest := hwaiting j (mem_of_mem_unreached hj)
      exact not_mem_unreached_of_joined (hall i List.mem_cons_self j hin) hj

end HiddenRule.Cell
