import HiddenRule.Grammar.Standard
import HiddenRule.Proofs.Building
import HiddenRule.Skeleton.Standard

/-
  Grammars that grow. A skeleton names alternatives by their positions, and a
  grammar grows at the ends of its categories, so whatever a skeleton names
  stays where it is. All that can change is a position where nothing stood: a
  skeleton that was refused for such a position may now get past it.

  What is proved:
    1. `extends_add`, `extends_addAll`: a grammar with more alternatives extends
       the one before.
    2. `build_eq_iff_of_extends`: over a grammar that extends another one, a
       skeleton builds the same or is refused with the same error, unless it
       was refused for a position that is filled now.
    3. `skeletons_outlast_additions`: for one more alternative, that is one
       position of one category; and whatever was built is built the same after
       any number of them.
-/

namespace HiddenRule

/-! ## Larger grammars -/

namespace Grammar

variable {g h : Grammar}

/-- Whether every alternative of another grammar stands in the same place of
this one. -/
def Extends (h g : Grammar) : Prop :=
  ∀ ⦃c i a⦄, g.alternative? c i = some a → h.alternative? c i = some a

theorem Extends.refl (g : Grammar) : g.Extends g := fun _ _ _ hnamed => hnamed

theorem Extends.trans {k : Grammar} (hk : k.Extends h) (hg : h.Extends g) : k.Extends g :=
  fun _ _ _ hnamed => hk (hg hnamed)

/-- One more alternative stands in the first place that was free. -/
theorem alternative?_add (g : Grammar) (c d : Category) (a : Alternative) (i : Nat) :
    (g.add c a).alternative? d i =
      if d = c ∧ i = (g.alternatives c).length then some a else g.alternative? d i := by
  rw [alternative?, alternatives_add, alternative?]
  by_cases hd : d = c
  · subst hd
    rw [if_pos rfl, List.getElem?_append]
    by_cases hi : i < (g.alternatives d).length
    · have hne : i ≠ (g.alternatives d).length := by omega
      simp [hi, hne]
    · rw [if_neg hi, List.getElem?_singleton]
      have hfirst : i - (g.alternatives d).length = 0 ↔ i = (g.alternatives d).length := by omega
      simp [hfirst, List.getElem?_eq_none (Nat.le_of_not_lt hi)]
  · simp [hd]

theorem extends_add (g : Grammar) (c : Category) (a : Alternative) : (g.add c a).Extends g := by
  intro d i b hnamed
  rw [alternative?_add, if_neg]
  · exact hnamed
  · rintro ⟨rfl, rfl⟩
    have hlt := (List.getElem?_eq_some_iff.mp hnamed).1
    omega

theorem extends_addAll (g : Grammar) (entries : List (Category × Alternative)) : (g.addAll entries).Extends g := by
  induction entries generalizing g with
  | nil => exact .refl g
  | cons entry rest ih => exact (ih (g.add entry.1 entry.2)).trans (extends_add g entry.1 entry.2)

end Grammar

/-! ## What is built over them -/

namespace Fragment

variable {g h : Grammar} {s : Skeleton}

/-- A skeleton is refused for a missing alternative only where there is none. -/
theorem alternative?_eq_none_of_build {c : Category} {i : Nat}
    (hmissing : build g s = .error (.missingAlternative c i)) : g.alternative? c i = none := by
  obtain ⟨n, -, hfault⟩ := fault_of_build_eq_error s hmissing
  cases hfault with
  | missing hnone => exact hnone

mutual

/-- Over a grammar that extends another one, a skeleton builds the same, if a
position that it was refused for is still free. -/
theorem build_eq_of_extends (hext : h.Extends g) : ∀ (s : Skeleton),
    (∀ c i, build g s = .error (.missingAlternative c i) → h.alternative? c i = none) →
    build h s = build g s
  | .node c i parts choice, hfree => by
    cases hnamed : g.alternative? c i with
    | none =>
      have hnone : h.alternative? c i = none := hfree c i (by rw [build, hnamed])
      rw [build, hnone, build, hnamed]
    | some a =>
      rw [build, hext hnamed, build, hnamed]
      by_cases hslots : parts.map Skeleton.category = a.slots
      · have hbelow : buildAll h parts = buildAll g parts := by
          apply buildAll_eq_of_extends hext parts
          intro d j hmissing
          -- the first fault of the children is that of the node
          apply hfree d j
          rw [build, hnamed]
          simp only [hslots, if_true]
          rw [hmissing]
          rfl
        simp only [hslots, if_true]
        rw [hbelow]
      · simp only [hslots, if_false]

theorem buildAll_eq_of_extends (hext : h.Extends g) : ∀ (ss : List Skeleton),
    (∀ c i, buildAll g ss = .error (.missingAlternative c i) → h.alternative? c i = none) →
    buildAll h ss = buildAll g ss
  | [], _ => by rw [buildAll, buildAll]
  | s :: rest, hfree => by
    have hfirst : build h s = build g s := by
      apply build_eq_of_extends hext s
      intro c i hmissing
      apply hfree c i
      rw [buildAll, hmissing]
      rfl
    rw [buildAll, hfirst, buildAll]
    cases hbuild : build g s with
    | error e => rfl
    | ok f =>
      have hlater : buildAll h rest = buildAll g rest := by
        apply buildAll_eq_of_extends hext rest
        intro c i hmissing
        apply hfree c i
        rw [buildAll, hbuild, hmissing]
        rfl
      rw [hlater]

end

/-- Over a grammar that extends another one, a skeleton builds the same exactly
if it was not refused for a position that is filled now. -/
theorem build_eq_iff_of_extends (hext : h.Extends g) :
    build h s = build g s ↔
      ∀ c i, build g s = .error (.missingAlternative c i) → h.alternative? c i = none := by
  refine ⟨?_, build_eq_of_extends hext s⟩
  intro heq c i hmissing
  exact alternative?_eq_none_of_build (heq.trans hmissing)

theorem build_eq_ok_of_extends (hext : h.Extends g) {f : Fragment} (hbuild : build g s = .ok f) :
    build h s = .ok f := by
  rw [build_eq_of_extends hext s, hbuild]
  intro c i hmissing
  rw [hbuild] at hmissing
  contradiction

/-- One more alternative fills one position of one category. -/
theorem build_add_eq_iff (c : Category) (a : Alternative) :
    build (g.add c a) s = build g s ↔
      build g s ≠ .error (.missingAlternative c (g.alternatives c).length) := by
  rw [build_eq_iff_of_extends (Grammar.extends_add g c a)]
  refine ⟨?_, ?_⟩
  · intro hfree hmissing
    have hnone := hfree _ _ hmissing
    rw [Grammar.alternative?_add, if_pos ⟨rfl, rfl⟩] at hnone
    contradiction
  · intro hne d i hmissing
    rw [Grammar.alternative?_add, if_neg]
    · exact alternative?_eq_none_of_build hmissing
    · rintro ⟨rfl, rfl⟩
      exact hne hmissing

end Fragment

namespace Rule

theorem build_eq_ok_of_extends {g h : Grammar} (hext : h.Extends g) {s : Skeleton} {r : Rule}
    (hbuild : build g s = .ok r) : build h s = .ok r := by
  obtain ⟨hrule, hskeleton, hroot⟩ := build_eq_ok_iff.mp hbuild
  exact build_eq_ok_iff.mpr ⟨hrule, hskeleton, Fragment.build_eq_ok_of_extends hext hroot⟩

end Rule

/-- **Skeletons outlast additions to their grammar.** For every grammar, one more
alternative leaves what a skeleton builds, or the error that it is refused with,
exactly as it was, unless the skeleton was refused because its category had no
alternative where the new one stands. After any number of additions a skeleton
builds the same unless it was refused for a position that is filled now. So
whatever was built before, a fragment or a rule, is built the same, and says the
same of every board. -/
theorem Grammar.skeletons_outlast_additions (g : Grammar) (s : Skeleton) :
    (∀ c a, Fragment.build (g.add c a) s = Fragment.build g s ↔
      Fragment.build g s ≠ .error (.missingAlternative c (g.alternatives c).length)) ∧
    ∀ entries : List (Category × Alternative),
      (Fragment.build (g.addAll entries) s = Fragment.build g s ↔ ∀ c i,
        Fragment.build g s = .error (.missingAlternative c i) → (g.addAll entries).alternative? c i = none) ∧
      (∀ f, Fragment.build g s = .ok f → Fragment.build (g.addAll entries) s = .ok f) ∧
      ∀ r, Rule.build g s = .ok r → ∃ r', Rule.build (g.addAll entries) s = .ok r' ∧ r'.root = r.root ∧
        ∀ b, r'.judge b = r.judge b := by
  refine ⟨fun c a => Fragment.build_add_eq_iff c a, ?_⟩
  intro entries
  have hext : (g.addAll entries).Extends g := extends_addAll g entries
  refine ⟨Fragment.build_eq_iff_of_extends hext, ?_, ?_⟩
  · intro f hbuild
    exact Fragment.build_eq_ok_of_extends hext hbuild
  · intro r hbuild
    exact ⟨r, Rule.build_eq_ok_of_extends hext hbuild, rfl, fun _ => rfl⟩

/-- That every blank cell is adjacent to a yellow symbol is still said with two
more nouns. The first of them is the sixth noun, which was missing; the eighth
noun is missing before and after. -/
theorem Grammar.blank_adjacent_outlasts_nouns :
    ∃ r r', Rule.build standard (.every .blank (.adjacentTo (.noun 0 1))) = .ok r ∧
      Rule.build (standard.addAll [(.noun, .bare "corner" none), (.noun, .bare "center" none)])
        (.every .blank (.adjacentTo (.noun 0 1))) = .ok r' ∧ (∀ b, r'.judge b = r.judge b) ∧
      Fragment.build standard (.noun 5 0) = .error (.missingAlternative .noun 5) ∧
      Fragment.build (standard.add .noun (.bare "corner" none)) (.noun 5 0) ≠
        Fragment.build standard (.noun 5 0) ∧
      Fragment.build (standard.addAll [(.noun, .bare "corner" none), (.noun, .bare "center" none)]) (.noun 7 0) =
        Fragment.build standard (.noun 7 0) := by
  obtain ⟨r, hbuild⟩ : ∃ r, Rule.build standard (.every .blank (.adjacentTo (.noun 0 1))) = .ok r := ⟨_, rfl⟩
  have hmissing : Fragment.build standard (.noun 5 0) = .error (.missingAlternative .noun 5) := rfl
  have hlast : Fragment.build standard (.noun 7 0) = .error (.missingAlternative .noun 7) := rfl
  obtain ⟨-, hafter⟩ := skeletons_outlast_additions standard (.every .blank (.adjacentTo (.noun 0 1)))
  obtain ⟨hone, -⟩ := skeletons_outlast_additions standard (.noun 5 0)
  obtain ⟨-, hseveral⟩ := skeletons_outlast_additions standard (.noun 7 0)
  obtain ⟨-, -, hrules⟩ := hafter [(.noun, .bare "corner" none), (.noun, .bare "center" none)]
  obtain ⟨r', hbuild', -, hjudge⟩ := hrules r hbuild
  refine ⟨r, r', hbuild, hbuild', hjudge, hmissing, ?_, ?_⟩
  · intro heq
    exact (hone .noun (.bare "corner" none)).mp heq hmissing
  · refine (hseveral _).1.mpr ?_
    intro c i hother
    rw [hlast] at hother
    cases hother
    rfl

end HiddenRule
