import HiddenRule.Proofs.Subtrees
import HiddenRule.Rule
import Mathlib.Data.List.Forall2

/-
  When a fragment can be built from a skeleton, and what stands in the way
  where it cannot. `Builds` is the condition at one node, `Fault` names the
  error that a node breaking it is reported with.

  What is proved:
    1. `exists_of_build_eq_ok`: a built fragment is its alternative's, made of
       the fragments built from the children.
    2. `fault_of_build_eq_error`: an error is the fault of some node.
    3. `exists_build_eq_ok_iff`: a fragment is built exactly where every node
       can be.
-/

namespace HiddenRule

/-! ## Sequences that can fail -/

section
variable {ε α β : Type}

theorem bind_eq_ok_iff {x : Except ε α} {f : α → Except ε β} {b : β} :
    (x >>= f) = .ok b ↔ ∃ a, x = .ok a ∧ f a = .ok b := by
  cases x with
  | error e => simp [bind, Except.bind]
  | ok a => simp [bind, Except.bind]

theorem bind_eq_error_iff {x : Except ε α} {f : α → Except ε β} {e : ε} :
    (x >>= f) = .error e ↔ x = .error e ∨ ∃ a, x = .ok a ∧ f a = .error e := by
  cases x with
  | error e' => simp [bind, Except.bind]
  | ok a => simp [bind, Except.bind]

end

namespace Grammar

/-- Whether a node can be built, if the nodes below it can: it names an
alternative, has children of the categories asked for, and an attribute among
those listed. -/
def Builds (g : Grammar) (n : Skeleton) : Prop := ∃ a, g.chosen? n = some a ∧
  n.children.map Skeleton.category = a.slots ∧ ∀ texts, a.attributes = some texts → n.choice < texts.length

/-- The errors that a node is reported with. -/
inductive Fault (g : Grammar) (n : Skeleton) : RuleError → Prop where
  | missing : g.chosen? n = none → Fault g n (.missingAlternative n.category n.index)
  | mismatch {a : Alternative} : g.chosen? n = some a → n.children.map Skeleton.category ≠ a.slots →
    Fault g n (.slotMismatch n.category n.index a.slots (n.children.map Skeleton.category))
  | outOfRange {a : Alternative} {texts : List String} : g.chosen? n = some a →
    a.attributes = some texts → texts.length ≤ n.choice →
    Fault g n (.attributeOutOfRange n.category n.index n.choice texts.length)

/-- A node that can be built has no fault. -/
theorem not_fault_of_builds {g : Grammar} {n : Skeleton} {e : RuleError} (h : g.Builds n) : ¬g.Fault n e := by
  obtain ⟨a, hnamed, hslots, hchoice⟩ := h
  intro hfault
  cases hfault with
  | missing hnone => simp [hnone] at hnamed
  | mismatch hnamed' hne =>
    rw [hnamed] at hnamed'
    exact hne (Option.some.inj hnamed' ▸ hslots)
  | outOfRange hnamed' htexts hle =>
    rw [hnamed] at hnamed'
    have := hchoice _ (Option.some.inj hnamed' ▸ htexts)
    omega

end Grammar

/-! ## The attribute of a node -/

theorem Alternative.chosenAttribute_eq_error {a : Alternative} {c : Category} {index choice : Nat}
    {e : RuleError} (h : a.chosenAttribute c index choice = .error e) :
    ∃ texts, a.attributes = some texts ∧ texts.length ≤ choice ∧
      e = .attributeOutOfRange c index choice texts.length := by
  unfold chosenAttribute at h
  split at h
  · contradiction
  · next texts htexts =>
    split at h
    · contradiction
    · next hnone => exact ⟨texts, htexts, List.getElem?_eq_none_iff.mp hnone, (Except.error.inj h).symm⟩

theorem Alternative.lt_of_chosenAttribute_eq_ok {a : Alternative} {c : Category} {index choice : Nat}
    {chosen : Option String} (h : a.chosenAttribute c index choice = .ok chosen) :
    ∀ texts, a.attributes = some texts → choice < texts.length := by
  intro texts htexts
  simp only [chosenAttribute, htexts] at h
  split at h
  · next text hsome => exact (List.getElem?_eq_some_iff.mp hsome).1
  · contradiction

namespace Fragment

variable {g : Grammar}

/-! ## What is built -/

/-- A built fragment is its alternative's, made of what the children build. -/
theorem exists_of_build_eq_ok {s : Skeleton} {f : Fragment} (h : build g s = .ok f) :
    ∃ a parts chosen, g.chosen? s = some a ∧ s.children.map Skeleton.category = a.slots ∧
      buildAll g s.children = .ok parts ∧ a.chosenAttribute s.category s.index s.choice = .ok chosen ∧
      f = ofParts a s.category s.choice parts chosen := by
  cases s with
  | node c i children choice =>
    rw [build] at h
    split at h
    · contradiction
    · next a hnamed =>
      split at h
      · next hslots =>
        obtain ⟨parts, hparts, h⟩ := bind_eq_ok_iff.mp h
        obtain ⟨chosen, hchosen, h⟩ := bind_eq_ok_iff.mp h
        exact ⟨a, parts, chosen, hnamed, hslots, hparts, hchosen, (Except.ok.inj h).symm⟩
      · contradiction

/-- What is built of a node that names an alternative, has the children that it
asks for and an attribute of it. -/
theorem build_node {c : Category} {i choice : Nat} {ss : List Skeleton} {a : Alternative} {parts : List Fragment}
    {chosen : Option String} (hnamed : g.alternative? c i = some a) (hslots : ss.map Skeleton.category = a.slots)
    (hparts : buildAll g ss = .ok parts) (hchosen : a.chosenAttribute c i choice = .ok chosen) :
    build g (.node c i ss choice) = .ok (ofParts a c choice parts chosen) := by
  rw [build, hnamed]
  simp only [hslots, if_true]
  rw [hparts]
  show (a.chosenAttribute c i choice >>= fun chosen => Except.ok (ofParts a c choice parts chosen)) = _
  rw [hchosen]
  rfl

theorem buildAll_nil_eq_ok_iff {parts : List Fragment} : buildAll g [] = .ok parts ↔ parts = [] := by
  rw [buildAll]
  exact ⟨fun h => (Except.ok.inj h).symm, fun h => congrArg _ h.symm⟩

theorem buildAll_cons_eq_ok_iff {s : Skeleton} {rest : List Skeleton} {parts : List Fragment} :
    buildAll g (s :: rest) = .ok parts ↔
      ∃ f others, build g s = .ok f ∧ buildAll g rest = .ok others ∧ parts = f :: others := by
  rw [buildAll, bind_eq_ok_iff]
  refine exists_congr fun f => ?_
  rw [bind_eq_ok_iff]
  refine ⟨?_, ?_⟩
  · rintro ⟨hf, others, hothers, h⟩
    exact ⟨others, hf, hothers, (Except.ok.inj h).symm⟩
  · rintro ⟨others, hf, hothers, rfl⟩
    exact ⟨hf, others, hothers, rfl⟩

/-- What several skeletons build, each on its own. -/
theorem forall₂_of_buildAll_eq_ok : ∀ {ss : List Skeleton} {parts : List Fragment},
    buildAll g ss = .ok parts → List.Forall₂ (fun s f => build g s = .ok f) ss parts
  | [], parts, h => buildAll_nil_eq_ok_iff.mp h ▸ .nil
  | s :: rest, parts, h => by
    obtain ⟨f, others, hf, hothers, rfl⟩ := buildAll_cons_eq_ok_iff.mp h
    exact .cons hf (forall₂_of_buildAll_eq_ok hothers)

/-- Each fragment is built from one of the skeletons. -/
theorem exists_mem_of_buildAll_eq_ok {ss : List Skeleton} {parts : List Fragment}
    (h : buildAll g ss = .ok parts) : ∀ part ∈ parts, ∃ s ∈ ss, build g s = .ok part := by
  have hforall := forall₂_of_buildAll_eq_ok h
  clear h
  induction hforall with
  | nil => simp
  | cons hbuild _ ih =>
    intro part hpart
    rcases List.mem_cons.mp hpart with rfl | hrest
    · exact ⟨_, List.mem_cons_self, hbuild⟩
    · obtain ⟨s, hs, hsbuild⟩ := ih part hrest
      exact ⟨s, List.mem_cons_of_mem _ hs, hsbuild⟩

mutual

/-- Every node of a skeleton that builds a fragment can be built. -/
theorem builds_of_build_eq_ok : ∀ (s : Skeleton) {f : Fragment}, build g s = .ok f →
    ∀ n ∈ s.subtrees, g.Builds n
  | .node c i children choice, f, h, n, hn => by
    obtain ⟨a, parts, chosen, hnamed, hslots, hparts, hchosen, -⟩ := exists_of_build_eq_ok h
    rcases List.mem_cons.mp hn with hroot | hbelow
    · rw [hroot]
      exact ⟨a, hnamed, hslots, Alternative.lt_of_chosenAttribute_eq_ok hchosen⟩
    · exact builds_of_buildAll_eq_ok children hparts n hbelow

theorem builds_of_buildAll_eq_ok : ∀ (ss : List Skeleton) {parts : List Fragment},
    buildAll g ss = .ok parts → ∀ n ∈ Skeleton.subtreesOfAll ss, g.Builds n
  | [], _, _, n, hn => absurd hn List.not_mem_nil
  | s :: rest, parts, h, n, hn => by
    obtain ⟨f, others, hf, hothers, -⟩ := buildAll_cons_eq_ok_iff.mp h
    rcases List.mem_append.mp hn with hfirst | hlater
    · exact builds_of_build_eq_ok s hf n hfirst
    · exact builds_of_buildAll_eq_ok rest hothers n hlater

end

/-! ## What is reported -/

mutual

/-- An error is the fault of some node. -/
theorem fault_of_build_eq_error : ∀ (s : Skeleton) {e : RuleError}, build g s = .error e →
    ∃ n ∈ s.subtrees, g.Fault n e
  | .node c i children choice, e, h => by
    rw [build] at h
    split at h
    · next hnone =>
      exact ⟨_, Skeleton.self_mem_subtrees _, Except.error.inj h ▸ .missing hnone⟩
    · next a hnamed =>
      split at h
      · next hslots =>
        -- the children are built before the attribute is looked up
        rcases bind_eq_error_iff.mp h with hparts | ⟨parts, -, h⟩
        · obtain ⟨n, hn, hfault⟩ := fault_of_buildAll_eq_error children hparts
          exact ⟨n, List.mem_cons_of_mem _ hn, hfault⟩
        · rcases bind_eq_error_iff.mp h with hchosen | ⟨chosen, -, h⟩
          · obtain ⟨texts, htexts, hle, rfl⟩ := Alternative.chosenAttribute_eq_error hchosen
            exact ⟨_, Skeleton.self_mem_subtrees _, .outOfRange hnamed htexts hle⟩
          · contradiction
      · next hne =>
        exact ⟨_, Skeleton.self_mem_subtrees _, Except.error.inj h ▸ .mismatch hnamed hne⟩

theorem fault_of_buildAll_eq_error : ∀ (ss : List Skeleton) {e : RuleError}, buildAll g ss = .error e →
    ∃ n ∈ Skeleton.subtreesOfAll ss, g.Fault n e
  | [], _, h => by
    rw [buildAll] at h
    contradiction
  | s :: rest, e, h => by
    rw [buildAll] at h
    rcases bind_eq_error_iff.mp h with hs | ⟨f, -, h⟩
    · obtain ⟨n, hn, hfault⟩ := fault_of_build_eq_error s hs
      exact ⟨n, List.mem_append_left _ hn, hfault⟩
    · rcases bind_eq_error_iff.mp h with hrest | ⟨others, -, h⟩
      · obtain ⟨n, hn, hfault⟩ := fault_of_buildAll_eq_error rest hrest
        exact ⟨n, List.mem_append_right _ hn, hfault⟩
      · contradiction

end

/-- A fragment is built exactly where every node can be. -/
theorem exists_build_eq_ok_iff {s : Skeleton} : (∃ f, build g s = .ok f) ↔ ∀ n ∈ s.subtrees, g.Builds n := by
  refine ⟨?_, ?_⟩
  · intro h
    obtain ⟨f, hf⟩ := h
    exact builds_of_build_eq_ok s hf
  · intro h
    cases hb : build g s with
    | ok f => exact ⟨f, rfl⟩
    | error e =>
      obtain ⟨n, hn, hfault⟩ := fault_of_build_eq_error s hb
      exact absurd hfault (Grammar.not_fault_of_builds (h n hn))

theorem exists_build_of_mem {ss : List Skeleton} {parts : List Fragment} (h : buildAll g ss = .ok parts)
    {s : Skeleton} (hs : s ∈ ss) : ∃ f, build g s = .ok f :=
  exists_build_eq_ok_iff.mpr fun n hn =>
    builds_of_buildAll_eq_ok ss h n (Skeleton.mem_subtreesOfAll.mpr ⟨s, hs, hn⟩)

end Fragment

/-! ## Rules -/

namespace Rule

variable {g : Grammar} {s : Skeleton}

/-- A rule is built of a skeleton of the category of rules, from its fragment. -/
theorem build_eq_ok_iff {r : Rule} :
    build g s = .ok r ↔ s.category = .rule ∧ r.skeleton = s ∧ Fragment.build g s = .ok r.root := by
  unfold build
  split
  · next hrule =>
    rw [bind_eq_ok_iff]
    refine ⟨?_, ?_⟩
    · intro h
      obtain ⟨root, hroot, h⟩ := h
      have hr := Except.ok.inj h
      rw [← hr]
      exact ⟨hrule, rfl, hroot⟩
    · intro h
      obtain ⟨-, hs, hroot⟩ := h
      exact ⟨r.root, hroot, by rw [← hs]; rfl⟩
  · next hother => simp [hother]

theorem build_eq_error_iff {e : RuleError} :
    build g s = .error e ↔ (s.category ≠ .rule ∧ e = .notARule s.category) ∨
      (s.category = .rule ∧ Fragment.build g s = .error e) := by
  unfold build
  split
  · next hrule =>
    rw [bind_eq_error_iff]
    refine ⟨?_, ?_⟩
    · intro h
      rcases h with hroot | ⟨root, -, h⟩
      · exact .inr ⟨hrule, hroot⟩
      · contradiction
    · intro h
      rcases h with ⟨hother, -⟩ | ⟨-, hroot⟩
      · exact absurd hrule hother
      · exact .inl hroot
  · next hother => simp [hother, eq_comm]

end Rule

end HiddenRule
