import HiddenRule.Grammar.Closure

/-
  What the check of a grammar decides, and which fault it reports. A grammar is
  closed or violated at some sites, each of them the meaning of an alternative,
  a slot of one, or the rules as a whole. The check looks at the sites by rank:
  category, position in the category, the meaning before the slots, the slots
  left to right, and the rules last.

  What is proved:
    1. `mem_violations`, `pairwise_violations`: the faults of a grammar are its
       violations, one for each violated site, in the order of the ranks.
    2. `check_eq_ok_iff`: the check accepts exactly the closed grammars.
    3. `check_eq_error_iff`: it reports the violation of the lowest rank.
    4. `check_decides_closure`: both, and when a closed grammar stays closed with
       one more alternative.
-/

namespace HiddenRule.Grammar

variable {g : Grammar}

/-- A grammar in which every alternative is listed under the category that its
meaning belongs to, every slot takes its child from a category with alternatives,
and there are rules. -/
structure Closed (g : Grammar) : Prop where
  kinds : ∀ c, ∀ a ∈ g.alternatives c, ∀ kind, a.kind = some kind → kind.category = c
  slots : ∀ c, ∀ a ∈ g.alternatives c, ∀ slot ∈ a.slots, g.alternatives slot ≠ []
  rules : g.alternatives .rule ≠ []

/-- A place in a grammar where something can be wrong. -/
inductive Site where
  /-- The meaning of the alternative at a position of a category. -/
  | meaning (c : Category) (i : Nat)
  /-- A slot of the alternative at a position of a category. -/
  | slot (c : Category) (i k : Nat)
  | rules

/-- When a site is looked at: ranks are compared number by number. -/
def Site.rank : Site → List Nat
  | meaning c i => [c.index, i, 0]
  | slot c i k => [c.index, i, k + 1]
  | rules => [Category.all.length]

/-- What is wrong at a site, and how it is reported. -/
inductive Violation (g : Grammar) : Site → GrammarError → Prop
  | meaning {c : Category} {i : Nat} {a : Alternative} {kind : Kind} : g.alternative? c i = some a →
    a.kind = some kind → kind.category ≠ c →
    Violation g (.meaning c i) (.categoryMismatch a.name c kind.category)
  | slot {c d : Category} {i k : Nat} {a : Alternative} : g.alternative? c i = some a →
    a.slots[k]? = some d → g.alternatives d = [] →
    Violation g (.slot c i k) (.emptyCategory d (c.name ++ "/" ++ a.name))
  | rules : g.alternatives .rule = [] → Violation g .rules (.emptyCategory .rule "the root")

theorem closed_iff : g.Closed ↔ ∀ site e, ¬g.Violation site e := by
  refine ⟨?_, ?_⟩
  · intro h site e hviolation
    cases hviolation with
    | meaning hnamed hkind hne => exact hne (h.kinds _ _ (List.mem_of_getElem? hnamed) _ hkind)
    | slot hnamed hslot hnone => exact h.slots _ _ (List.mem_of_getElem? hnamed) _ (List.mem_of_getElem? hslot) hnone
    | rules hnone => exact h.rules hnone
  · intro h
    refine ⟨?_, ?_, fun hnone => h _ _ (.rules hnone)⟩
    · intro c a ha kind hkind
      obtain ⟨i, hnamed⟩ := List.mem_iff_getElem?.mp ha
      exact Decidable.byContradiction fun hne => h _ _ (.meaning hnamed hkind hne)
    · intro c a ha d hd hnone
      obtain ⟨i, hnamed⟩ := List.mem_iff_getElem?.mp ha
      obtain ⟨k, hslot⟩ := List.mem_iff_getElem?.mp hd
      exact h _ _ (.slot hnamed hslot hnone)

/-! ## Faults with their sites -/

/-- The faults of the alternative at a position, with their sites. -/
def alternativeViolations (g : Grammar) (c : Category) (i : Nat) (a : Alternative) : List (Site × GrammarError) :=
  (kindFaults c a).map (fun e => (.meaning c i, e)) ++
    (a.slots.zipIdx.filter fun entry => (g.alternatives entry.1).isEmpty).map fun entry =>
      (.slot c i entry.2, .emptyCategory entry.1 (c.name ++ "/" ++ a.name))

/-- The faults of the alternatives of a category, with their sites. -/
def categoryViolations (g : Grammar) (c : Category) : List (Site × GrammarError) :=
  (g.alternatives c).zipIdx.flatMap fun entry => g.alternativeViolations c entry.2 entry.1

/-- The faults of a grammar with their sites, in the order in which they are
reported. -/
def violations (g : Grammar) : List (Site × GrammarError) :=
  Category.all.flatMap g.categoryViolations ++ g.rootFaults.map fun e => (.rules, e)

theorem map_alternativeViolations (c : Category) (i : Nat) (a : Alternative) :
    (g.alternativeViolations c i a).map Prod.snd = kindFaults c a ++ g.slotFaults c a := by
  have hslots : (a.slots.zipIdx.filter fun entry => (g.alternatives entry.1).isEmpty).map Prod.fst =
      a.slots.filter fun slot => (g.alternatives slot).isEmpty := by
    conv => rhs; rw [← List.zipIdx_map_fst 0 a.slots, List.filter_map]
    rfl
  rw [alternativeViolations, slotFaults, List.map_append, List.map_map, List.map_map, ← hslots, List.map_map]
  simp [Function.comp_def]

theorem map_categoryViolations (c : Category) : (g.categoryViolations c).map Prod.snd = g.categoryFaults c := by
  rw [categoryViolations, categoryFaults, List.map_flatMap]
  simp only [map_alternativeViolations]
  conv => rhs; rw [← List.zipIdx_map_fst 0 (g.alternatives c), List.flatMap_map]

theorem map_violations : g.violations.map Prod.snd = g.faults := by
  rw [violations, faults, List.map_append, List.map_flatMap, List.map_map]
  simp [map_categoryViolations, Function.comp_def]

/-! ## The violations of a grammar -/

theorem mem_kindFaults {c : Category} {a : Alternative} {e : GrammarError} :
    e ∈ kindFaults c a ↔
      ∃ kind, a.kind = some kind ∧ kind.category ≠ c ∧ e = .categoryMismatch a.name c kind.category := by
  unfold kindFaults
  split
  · next kind hkind =>
    split
    · next hfits => simp [hkind, hfits]
    · next hne => simp [hkind, hne]
  · next hnone => simp [hnone]

theorem mem_rootFaults {e : GrammarError} :
    e ∈ g.rootFaults ↔ g.alternatives .rule = [] ∧ e = .emptyCategory .rule "the root" := by
  unfold rootFaults
  split
  · next hnone => simpa using fun _ => List.isEmpty_iff.mp hnone
  · next hsome => simpa using fun hnone => absurd (List.isEmpty_iff.mpr hnone) hsome

theorem mem_alternativeViolations {c : Category} {i : Nat} {a : Alternative} {v : Site × GrammarError} :
    v ∈ g.alternativeViolations c i a ↔
      (∃ e ∈ kindFaults c a, v = (.meaning c i, e)) ∨
      ∃ k d, a.slots[k]? = some d ∧ g.alternatives d = [] ∧
        v = (.slot c i k, .emptyCategory d (c.name ++ "/" ++ a.name)) := by
  rw [alternativeViolations, List.mem_append]
  refine or_congr ?_ ?_
  · simp only [List.mem_map, eq_comm]
  · simp only [List.mem_map, List.mem_filter, List.mem_zipIdx_iff_getElem?, List.isEmpty_iff]
    refine ⟨?_, ?_⟩
    · rintro ⟨⟨d, k⟩, ⟨hslot, hnone⟩, rfl⟩
      exact ⟨k, d, hslot, hnone, rfl⟩
    · rintro ⟨k, d, hslot, hnone, rfl⟩
      exact ⟨(d, k), ⟨hslot, hnone⟩, rfl⟩

theorem mem_categoryViolations {c : Category} {v : Site × GrammarError} :
    v ∈ g.categoryViolations c ↔ ∃ i a, g.alternative? c i = some a ∧ v ∈ g.alternativeViolations c i a := by
  simp only [categoryViolations, List.mem_flatMap, List.mem_zipIdx_iff_getElem?, alternative?]
  refine ⟨?_, ?_⟩
  · rintro ⟨⟨a, i⟩, hnamed, hv⟩
    exact ⟨i, a, hnamed, hv⟩
  · rintro ⟨i, a, hnamed, hv⟩
    exact ⟨(a, i), hnamed, hv⟩

/-- The faults of a grammar are its violations, each at its site. -/
theorem mem_violations {site : Site} {e : GrammarError} : (site, e) ∈ g.violations ↔ g.Violation site e := by
  rw [violations, List.mem_append, List.mem_flatMap, List.mem_map]
  refine ⟨?_, ?_⟩
  · rintro (⟨c, -, hv⟩ | ⟨_, hroot, hv⟩)
    · obtain ⟨i, a, hnamed, hv⟩ := mem_categoryViolations.mp hv
      rcases mem_alternativeViolations.mp hv with ⟨e, he, hv⟩ | ⟨k, d, hslot, hnone, hv⟩
      · obtain ⟨kind, hkind, hne, rfl⟩ := mem_kindFaults.mp he
        cases hv
        exact .meaning hnamed hkind hne
      · cases hv
        exact .slot hnamed hslot hnone
    · obtain ⟨hnone, rfl⟩ := mem_rootFaults.mp hroot
      cases hv
      exact .rules hnone
  · intro h
    cases h with
    | @meaning c i a kind hnamed hkind hne =>
      refine .inl ⟨c, c.mem_all, mem_categoryViolations.mpr ⟨i, a, hnamed, ?_⟩⟩
      exact mem_alternativeViolations.mpr (.inl ⟨_, mem_kindFaults.mpr ⟨kind, hkind, hne, rfl⟩, rfl⟩)
    | @slot c d i k a hnamed hslot hnone =>
      refine .inl ⟨c, c.mem_all, mem_categoryViolations.mpr ⟨i, a, hnamed, ?_⟩⟩
      exact mem_alternativeViolations.mpr (.inr ⟨k, d, hslot, hnone, rfl⟩)
    | rules hnone => exact .inr ⟨_, mem_rootFaults.mpr ⟨hnone, rfl⟩, rfl⟩

/-! ## Their order -/

theorem pairwise_zipIdx {α : Type} (l : List α) : l.zipIdx.Pairwise fun x y => x.2 < y.2 := by
  have hpositions : (l.zipIdx.map Prod.snd).Pairwise (· < ·) := by
    rw [List.zipIdx_map_snd]
    exact List.pairwise_lt_range'
  exact List.pairwise_map.mp hpositions

theorem exists_rank_eq_of_mem_alternativeViolations {c : Category} {i : Nat} {a : Alternative}
    {v : Site × GrammarError}
    (hv : v ∈ g.alternativeViolations c i a) : ∃ p, v.1.rank = [c.index, i, p] := by
  rcases mem_alternativeViolations.mp hv with ⟨e, -, rfl⟩ | ⟨k, d, -, -, rfl⟩
  · exact ⟨0, rfl⟩
  · exact ⟨k + 1, rfl⟩

theorem exists_rank_eq_of_mem_categoryViolations {c : Category} {v : Site × GrammarError}
    (hv : v ∈ g.categoryViolations c) : ∃ i p, v.1.rank = [c.index, i, p] := by
  obtain ⟨entry, -, hv⟩ := List.mem_flatMap.mp hv
  exact ⟨_, exists_rank_eq_of_mem_alternativeViolations hv⟩

theorem pairwise_alternativeViolations (c : Category) (i : Nat) (a : Alternative) :
    (g.alternativeViolations c i a).Pairwise fun v w => v.1.rank < w.1.rank := by
  rw [alternativeViolations, List.pairwise_append]
  refine ⟨?_, ?_, ?_⟩
  · -- a meaning has one fault at most
    unfold kindFaults
    split
    · split <;> simp
    · simp
  · rw [List.pairwise_map]
    refine ((pairwise_zipIdx a.slots).filter _).imp ?_
    intro x y hlt
    simpa [Site.rank, List.cons_lt_cons_iff] using hlt
  · intro v hv w hw
    obtain ⟨e, -, rfl⟩ := List.mem_map.mp hv
    obtain ⟨x, -, rfl⟩ := List.mem_map.mp hw
    simp [Site.rank, List.cons_lt_cons_iff]

/-- The faults of a grammar are reported in the order of the ranks of their
sites. -/
theorem pairwise_violations : g.violations.Pairwise fun v w => v.1.rank < w.1.rank := by
  rw [violations, List.pairwise_append, List.pairwise_flatMap]
  refine ⟨⟨?_, ?_⟩, ?_, ?_⟩
  · intro c _
    rw [categoryViolations, List.pairwise_flatMap]
    refine ⟨fun entry _ => pairwise_alternativeViolations c entry.2 entry.1, ?_⟩
    refine (pairwise_zipIdx (g.alternatives c)).imp ?_
    intro x y hlt v hv w hw
    obtain ⟨p, hp⟩ := exists_rank_eq_of_mem_alternativeViolations hv
    obtain ⟨q, hq⟩ := exists_rank_eq_of_mem_alternativeViolations hw
    simp [hp, hq, List.cons_lt_cons_iff, hlt]
  · have hcategories : Category.all.Pairwise fun c d => c.index < d.index := by decide
    refine hcategories.imp ?_
    intro c d hlt v hv w hw
    obtain ⟨i, p, hp⟩ := exists_rank_eq_of_mem_categoryViolations hv
    obtain ⟨j, q, hq⟩ := exists_rank_eq_of_mem_categoryViolations hw
    simp [hp, hq, List.cons_lt_cons_iff, hlt]
  · unfold rootFaults
    split <;> simp
  · intro v hv w hw
    obtain ⟨c, -, hv⟩ := List.mem_flatMap.mp hv
    obtain ⟨i, p, hp⟩ := exists_rank_eq_of_mem_categoryViolations hv
    obtain ⟨e, -, rfl⟩ := List.mem_map.mp hw
    have hlt : c.index < Category.all.length := by cases c <;> decide
    rw [hp]
    exact List.cons_lt_cons_iff.mpr (.inl hlt)

/-! ## The check -/

theorem check_eq_ok_iff_faults : g.check = .ok () ↔ g.faults = [] := by
  unfold check
  split
  · next hnone => simp [hnone]
  · next hsome => simp [hsome]

theorem check_eq_error_iff_head? {e : GrammarError} : g.check = .error e ↔ g.faults.head? = some e := by
  unfold check
  split
  · next hnone => simp [hnone]
  · next hsome => simp [hsome]

/-- The check accepts exactly the closed grammars. -/
theorem check_eq_ok_iff : g.check = .ok () ↔ g.Closed := by
  rw [check_eq_ok_iff_faults, ← map_violations, List.map_eq_nil_iff, List.eq_nil_iff_forall_not_mem, closed_iff]
  simp only [Prod.forall, mem_violations]

/-- Where the ranks rise along a list, the first entry is the one of the lowest
rank. -/
theorem head?_eq_some_iff_of_pairwise {vs : List (Site × GrammarError)} {e : GrammarError}
    (h : vs.Pairwise fun v w => v.1.rank < w.1.rank) :
    (vs.map Prod.snd).head? = some e ↔ ∃ site, (site, e) ∈ vs ∧ ∀ v ∈ vs, ¬v.1.rank < site.rank := by
  cases vs with
  | nil => simp
  | cons first rest =>
    obtain ⟨hfirst, -⟩ := List.pairwise_cons.mp h
    rw [List.map_cons, List.head?_cons, Option.some.injEq]
    refine ⟨?_, ?_⟩
    · rintro rfl
      refine ⟨first.1, List.mem_cons_self, List.forall_mem_cons.mpr ⟨List.lt_irrefl _, ?_⟩⟩
      intro v hv
      exact List.lt_asymm (hfirst v hv)
    · rintro ⟨site, hsite, hleast⟩
      rcases List.mem_cons.mp hsite with heq | hrest
      · rw [← heq]
      · exact absurd (hfirst _ hrest) (hleast first List.mem_cons_self)

/-- The check reports the violation of the lowest rank. -/
theorem check_eq_error_iff {e : GrammarError} : g.check = .error e ↔
    ∃ site, g.Violation site e ∧ ∀ other e', g.Violation other e' → ¬other.rank < site.rank := by
  rw [check_eq_error_iff_head?, ← map_violations, head?_eq_some_iff_of_pairwise pairwise_violations]
  simp only [Prod.forall, mem_violations]

/-! ## One alternative more -/

theorem closed_add_iff (h : g.Closed) {c : Category} {a : Alternative} :
    (g.add c a).Closed ↔ (∀ kind, a.kind = some kind → kind.category = c) ∧
      ∀ slot ∈ a.slots, (g.add c a).alternatives slot ≠ [] := by
  have hlast : a ∈ (g.add c a).alternatives c := by simp [alternatives_add]
  have hmore : ∀ d, g.alternatives d ≠ [] → (g.add c a).alternatives d ≠ [] := by
    intro d hd
    rw [alternatives_add]
    exact List.append_ne_nil_of_left_ne_nil hd _
  have hcases : ∀ {d b}, b ∈ (g.add c a).alternatives d → b ∈ g.alternatives d ∨ (d = c ∧ b = a) := by
    intro d b hb
    rw [alternatives_add] at hb
    split at hb
    · next hd => simpa [hd] using hb
    · exact .inl (by simpa using hb)
  refine ⟨fun hclosed => ⟨hclosed.kinds c a hlast, hclosed.slots c a hlast⟩, ?_⟩
  rintro ⟨hkind, hslots⟩
  refine ⟨?_, ?_, hmore _ h.rules⟩
  · intro d b hb
    rcases hcases hb with hold | ⟨rfl, rfl⟩
    · exact h.kinds d b hold
    · exact hkind
  · intro d b hb slot hslot
    rcases hcases hb with hold | ⟨rfl, rfl⟩
    · exact hmore slot (h.slots d b hold slot hslot)
    · exact hslots slot hslot

/-- **The check decides closure, and reports the first violation.** A grammar is
accepted exactly if there are rules, every alternative with a meaning is listed
under the category of its meaning, and every slot of every alternative takes its
child from a category with alternatives. It is refused with an error exactly if
this is the violation of the lowest rank: categories in their order, alternatives
in the order of their positions, the meaning of an alternative before its slots,
these from left to right, and missing rules last. And an accepted grammar is
accepted with one more alternative exactly if the meaning of this one belongs to
its category and its slots have alternatives once it is there. -/
theorem check_decides_closure (g : Grammar) :
    (g.check = .ok () ↔ g.Closed) ∧
    (∀ e, g.check = .error e ↔
      ∃ site, g.Violation site e ∧ ∀ other e', g.Violation other e' → ¬other.rank < site.rank) ∧
    ∀ c a, g.check = .ok () →
      ((g.add c a).check = .ok () ↔ (∀ kind, a.kind = some kind → kind.category = c) ∧
        ∀ slot ∈ a.slots, (g.add c a).alternatives slot ≠ []) := by
  refine ⟨check_eq_ok_iff, fun _ => check_eq_error_iff, ?_⟩
  intro c a haccepted
  rw [check_eq_ok_iff]
  exact closed_add_iff (check_eq_ok_iff.mp haccepted)

/-- A grammar with nothing but a placeholder for a rule. A noun over another noun
can be added, since it is a noun itself; a group over a noun cannot, since there
are no nouns, and listed as a noun it cannot for its meaning. -/
theorem nested_noun_added :
    (empty.add .rule (.bare "any" none)).check = .ok () ∧
    ((empty.add .rule (.bare "any" none)).add .noun
      { Alternative.bare "nested" (some (.noun .blank)) with slots := [.noun] }).check = .ok () ∧
    ((empty.add .rule (.bare "any" none)).add .group
      { Alternative.bare "nested" (some (.group .rows)) with slots := [.noun] }).check ≠ .ok () ∧
    ((empty.add .rule (.bare "any" none)).add .noun
      { Alternative.bare "nested" (some (.group .rows)) with slots := [.noun] }).check ≠ .ok () := by
  have haccepted : (empty.add .rule (.bare "any" none)).check = .ok () := rfl
  obtain ⟨-, -, hadd⟩ := check_decides_closure (empty.add .rule (.bare "any" none))
  refine ⟨haccepted, (hadd _ _ haccepted).mpr (by decide), ?_, ?_⟩
  · intro hgroup
    exact absurd ((hadd _ _ haccepted).mp hgroup).2 (by decide)
  · intro hnoun
    exact absurd ((hadd _ _ haccepted).mp hnoun).1 (by simp [Alternative.bare, Kind.category])

/-- Three violations at once: of the two of one alternative, its meaning is
reported before its slot, and the missing rules are not reached. -/
example : (empty.add .noun { Alternative.bare "stray" (some (.group .rows)) with slots := [.groupPred] }).check =
    .error (.categoryMismatch "stray" .noun .group) := rfl

end HiddenRule.Grammar
