/-
  Search by halving. In a row of entries, some of them below what is sought, the
  search looks for a place that parts them: the entry before it is below, the one
  at it is not. It looks at the middle of the stretch that is left, and goes on
  with the half behind it if the entry there is below, with the one before it
  otherwise. Where all entries that are below come first there is one such place.
  In any other row there may be several, and the search ends at one of them.
-/

namespace HiddenRule

/-- The start of the stretch that is left after so many steps. A stretch of one
entry is not halved any more. -/
def narrow (below : Nat → Bool) : (steps start length : Nat) → Nat
  | 0, start, _ => start
  | steps + 1, start, length =>
    if length ≤ 1 then start
    else
      narrow below steps (if below (start + length / 2) then start + length / 2 else start)
        (length - length / 2)

/-- Where the search ends in a row of so many entries. It takes fewer steps than
there are entries. -/
def halving (below : Nat → Bool) (length : Nat) : Nat :=
  if length = 0 then 0
  else if below (narrow below length 0 length) then narrow below length 0 length + 1
  else narrow below length 0 length

/-- Whether a place parts the entries next to it: the one before it is below, the
one at it is not. -/
structure Parts (below : Nat → Bool) (length place : Nat) : Prop where
  le : place ≤ length
  before : ∀ i, i + 1 = place → below i = true
  after : place < length → below place = false

/-- What the search keeps of its stretch: the entry at its start is below, unless
it is the first of all. Of the entry behind it and the last in it one is not
below, unless it ends with the row: the middle is left in a stretch of odd length,
though it is not below. -/
structure Enclosed (below : Nat → Bool) (length start size : Nat) : Prop where
  head : start = 0 ∨ below start = true
  tail : start + size = length ∨ below (start + size) = false ∨ below (start + size - 1) = false

theorem enclosed_narrow {below : Nat → Bool} {length : Nat} :
    ∀ (steps : Nat) {start size : Nat}, 0 < size → size ≤ steps → Enclosed below length start size →
      narrow below steps start size < start + size ∧
        Enclosed below length (narrow below steps start size) 1
  | 0, _, _, hpos, hsteps, _ => by omega
  | steps + 1, start, size, hpos, hsteps, h => by
    rw [narrow]
    split
    · next hone =>
      obtain rfl : size = 1 := by omega
      exact ⟨Nat.lt_succ_self start, h⟩
    · next hmore =>
      have hrest : start + size / 2 + (size - size / 2) = start + size := by omega
      split
      · next hbelow =>
        have hnext : Enclosed below length (start + size / 2) (size - size / 2) :=
          ⟨.inr hbelow, by rw [hrest]; exact h.tail⟩
        have ih := enclosed_narrow steps (by omega) (by omega) hnext
        rwa [hrest] at ih
      · next habove =>
        have hmiddle : below (start + size / 2) = false := by simpa using habove
        have hnext : Enclosed below length start (size - size / 2) := by
          refine ⟨h.head, .inr ?_⟩
          have hparity : start + (size - size / 2) = start + size / 2 ∨
              start + (size - size / 2) - 1 = start + size / 2 := by omega
          rcases hparity with heven | hodd
          · exact .inl (heven ▸ hmiddle)
          · exact .inr (hodd ▸ hmiddle)
        obtain ⟨hlt, hlast⟩ := enclosed_narrow steps (by omega) (by omega) hnext
        exact ⟨by omega, hlast⟩

/-- The search ends at a place that parts the entries next to it. -/
theorem parts_halving (below : Nat → Bool) (length : Nat) : Parts below length (halving below length) := by
  unfold halving
  split
  · next hnone => exact ⟨Nat.zero_le _, fun i hi => by omega, fun hlt => by omega⟩
  · next hsome =>
    have hall : Enclosed below length 0 length := ⟨.inl rfl, .inl (Nat.zero_add _)⟩
    obtain ⟨hlt, hlast⟩ := enclosed_narrow length (Nat.pos_of_ne_zero hsome) (Nat.le_refl _) hall
    generalize narrow below length 0 length = last at hlt hlast
    split
    · next hbelow =>
      refine ⟨by omega, ?_, ?_⟩
      · intro i hi
        obtain rfl : i = last := by omega
        exact hbelow
      · intro hmore
        rcases hlast.tail with hend | hnext | hself
        · omega
        · exact hnext
        · exact absurd hbelow (by simpa using hself)
    · next habove =>
      refine ⟨by omega, ?_, fun _ => by simpa using habove⟩
      intro i hi
      rcases hlast.head with hzero | hbelow
      · omega
      · exact absurd hbelow habove

end HiddenRule
