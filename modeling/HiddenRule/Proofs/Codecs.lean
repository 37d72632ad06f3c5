import HiddenRule.Grammar.Standard
import HiddenRule.Proofs.Building
import HiddenRule.Sampling.Record
import HiddenRule.Skeleton.Record
import HiddenRule.Skeleton.Standard

/-
  Logged values. A Json form is faithful to the values of a type if those that
  the form can hold are read back from it, and no others are ever read, however
  a value was written: a record as a list, a case as an object, with fields that
  nobody asked for. So what is read is what reading its own form gives.

  What is proved:
    1. `faithful_whole`, `faithful_variant`, `Faithful.list`,
       `Faithful.nullable`: the forms of numbers, cases, lists and missing values.
    2. `Skeleton.faithful_toJson`, `Board.faithful_toJson`,
       `Examples.faithful_toJson`: the forms of what is logged.
    3. `logged_values_read_back`: logged values are read back, whatever is read
       can be logged, and a logged skeleton builds the rule that it was taken
       from.
-/

namespace HiddenRule

namespace Json

/-- Whether a form is read back for the values that it can hold, and only these
are ever read. -/
structure Faithful {α : Type} (Holds : α → Prop) (encode : α → Json) (decode : Json → Option α) : Prop where
  decode_encode : ∀ a, Holds a → decode (encode a) = some a
  holds_of_decode : ∀ v a, decode v = some a → Holds a

variable {α : Type} {Holds : α → Prop} {encode : α → Json} {decode : Json → Option α}

/-- What is read is read again from its own form. -/
theorem Faithful.decode_encode_of_decode (h : Faithful Holds encode decode) {v : Json} {a : α}
    (ha : decode v = some a) : decode (encode a) = some a :=
  h.decode_encode a (h.holds_of_decode v a ha)

/-! ## Forms of simple values -/

theorem faithful_whole : Faithful (· < wholeBound) natural whole? where
  decode_encode := fun _ hn => if_pos hn
  holds_of_decode := by
    intro v n h
    cases v with
    | natural m =>
      rw [whole?] at h
      split at h
      · next hm => exact Option.some.inj h ▸ hm
      · contradiction
    | _ => contradiction

theorem faithful_variant {named : List (String × α)} {name : α → String}
    (h : ∀ a, named.lookup (name a) = some a) :
    Faithful (fun _ => True) (fun a => string (name a)) (variant? named) where
  decode_encode := fun a _ => h a
  holds_of_decode := fun _ _ _ => trivial

theorem Faithful.list (h : Faithful Holds encode decode) :
    Faithful (fun items => ∀ a ∈ items, Holds a) (fun items => array (items.map encode)) (list? decode) where
  decode_encode := by
    intro items hitems
    rw [list?]
    induction items with
    | nil => rfl
    | cons a rest ih =>
      obtain ⟨ha, hrest⟩ := List.forall_mem_cons.mp hitems
      simp only [List.map_cons, List.mapM_cons, h.decode_encode a ha, ih hrest]
      rfl
  holds_of_decode := by
    intro v items hitems
    cases v with
    | array values =>
      rw [list?] at hitems
      induction values generalizing items with
      | nil =>
        cases hitems
        exact List.forall_mem_nil _
      | cons value rest ih =>
        simp only [List.mapM_cons, Option.bind_eq_bind, Option.bind_eq_some_iff, Option.pure_def,
          Option.some.injEq] at hitems
        obtain ⟨a, ha, others, hothers, rfl⟩ := hitems
        exact List.forall_mem_cons.mpr ⟨h.holds_of_decode value a ha, ih others hothers⟩
    | _ => contradiction

theorem nullable?_of_ne_null (decode : Json → Option α) {v : Json} (h : v ≠ null) :
    nullable? decode v = (decode v).map some := by
  cases v <;> first | rfl | contradiction

/-- A missing value is told from all others if none of these is null. -/
theorem Faithful.nullable (h : Faithful Holds encode decode) (hnull : ∀ a, encode a ≠ null) :
    Faithful (fun content => ∀ a ∈ content, Holds a) (ofOption encode) (nullable? decode) where
  decode_encode := by
    intro content hcontent
    cases content with
    | none => rfl
    | some a =>
      have hread := h.decode_encode a (hcontent a rfl)
      simp only [ofOption, Option.map_some, Option.getD_some, nullable?_of_ne_null decode (hnull a), hread]
  holds_of_decode := by
    intro v content hcontent
    by_cases hv : v = null
    · subst hv
      cases hcontent
      exact fun a ha => by contradiction
    · rw [nullable?_of_ne_null decode hv] at hcontent
      obtain ⟨a, ha, rfl⟩ := Option.map_eq_some_iff.mp hcontent
      intro b hb
      cases hb
      exact h.holds_of_decode v a ha

end Json

open Json (Faithful)

/-! ## Boards -/

theorem Color.faithful_toJson : Faithful (fun _ => True) Color.toJson Color.ofJson? :=
  Json.faithful_variant (by intro c; cases c <;> decide)

theorem Shape.faithful_toJson : Faithful (fun _ => True) Shape.toJson Shape.ofJson? :=
  Json.faithful_variant (by intro s; cases s <;> decide)

theorem Symbol.faithful_toJson : Faithful (fun _ => True) Symbol.toJson Symbol.ofJson? where
  decode_encode := by
    intro s _
    have hfields : Json.record? ["color", "shape"] s.toJson = some [s.color.toJson, s.shape.toJson] := rfl
    simp only [ofJson?, hfields, Color.faithful_toJson.decode_encode s.color trivial,
      Shape.faithful_toJson.decode_encode s.shape trivial, Option.bind_eq_bind, Option.bind_some,
      Option.pure_def]
  holds_of_decode := fun _ _ _ => trivial

theorem Board.faithful_toJson : Faithful (fun _ => True) Board.toJson Board.ofJson? where
  decode_encode := by
    intro b _
    have hcells := (Symbol.faithful_toJson.nullable fun _ => nofun).list.decode_encode b.contents
      fun _ _ _ _ => trivial
    rw [ofJson?, toJson, hcells]
    simp only [Option.bind_eq_bind, Option.bind_some, length_contents, if_true, Option.pure_def, ofCells_contents]
  holds_of_decode := fun _ _ _ => trivial

/-! ## Examples -/

theorem Examples.faithful_toJson :
    Faithful (fun e => e.attempts < Json.wholeBound) Examples.toJson Examples.ofJson? where
  decode_encode := by
    intro e he
    have hfields : Json.record? ["valid", "invalid", "attempts"] e.toJson =
        some [.array (e.valid.map Board.toJson), .array (e.invalid.map Board.toJson), .natural e.attempts] := rfl
    have hboards := fun boards => Board.faithful_toJson.list.decode_encode boards fun _ _ => trivial
    simp only [ofJson?, hfields, hboards, Json.faithful_whole.decode_encode _ he, Option.bind_eq_bind,
      Option.bind_some, Option.pure_def]
  holds_of_decode := by
    intro v e h
    obtain ⟨fields, -, hread⟩ := Option.bind_eq_some_iff.mp h
    split at hread
    · simp only [Option.bind_eq_bind, Option.bind_eq_some_iff, Option.pure_def, Option.some.injEq] at hread
      obtain ⟨valid, -, invalid, -, attempts, hattempts, rfl⟩ := hread
      exact Json.faithful_whole.holds_of_decode _ _ hattempts
    · contradiction

/-! ## Skeletons -/

namespace Skeleton

/-- Whether the positions at all nodes are whole numbers that a form can hold. -/
def IsWhole (s : Skeleton) : Prop := ∀ n ∈ s.nodes, n.2.1 < Json.wholeBound ∧ n.2.2 < Json.wholeBound

instance (s : Skeleton) : Decidable s.IsWhole :=
  inferInstanceAs (Decidable (∀ n ∈ s.nodes, n.2.1 < Json.wholeBound ∧ n.2.2 < Json.wholeBound))

theorem isWhole_node {c : Category} {i a : Nat} {parts : List Skeleton} :
    (node c i parts a).IsWhole ↔
      (i < Json.wholeBound ∧ a < Json.wholeBound) ∧ ∀ s ∈ parts, s.IsWhole := by
  simp only [IsWhole, nodes, List.forall_mem_cons, nodesOfAll_eq_flatMap, List.mem_flatMap]
  refine and_congr_right fun _ => ⟨?_, ?_⟩
  · intro h s hs n hn
    exact h n ⟨s, hs, hn⟩
  · rintro h n ⟨s, hs, hn⟩
    exact h s hs n hn

theorem category_faithful_toJson : Faithful (fun _ => True) Category.toJson Category.ofJson? :=
  Json.faithful_variant (by intro c; cases c <;> decide)

mutual

theorem ofJson?_toJson : ∀ s : Skeleton, s.IsWhole → ofJson? s.toJson = some s
  | node c i parts a, h => by
    obtain ⟨⟨hi, ha⟩, hparts⟩ := isWhole_node.mp h
    have hchildren := allOfJson?_toJsonAll parts hparts
    have hcategory := category_faithful_toJson.decode_encode c trivial
    have hindex := Json.faithful_whole.decode_encode i hi
    have hchoice := Json.faithful_whole.decode_encode a ha
    simp [toJson, ofJson?, Json.field?, List.lookup_cons, childrenOfFields?, listOfJson?, hchildren, hcategory,
      hindex, hchoice]

theorem allOfJson?_toJsonAll : ∀ parts : List Skeleton, (∀ s ∈ parts, s.IsWhole) →
    allOfJson? (toJsonAll parts) = some parts
  | [], _ => rfl
  | s :: rest, h => by
    obtain ⟨hs, hrest⟩ := List.forall_mem_cons.mp h
    rw [toJsonAll, allOfJson?, ofJson?_toJson s hs, allOfJson?_toJsonAll rest hrest]
    rfl

end

mutual

theorem isWhole_of_ofJson? : ∀ (v : Json) (s : Skeleton), ofJson? v = some s → s.IsWhole
  | .object fields, s, h => by
    simp only [ofJson?, Option.bind_eq_bind, Option.bind_eq_some_iff, Option.pure_def, Option.some.injEq] at h
    obtain ⟨_, -, _, -, parts, hparts, _, -, c, -, i, hi, a, ha, rfl⟩ := h
    have hindex := Json.faithful_whole.holds_of_decode _ _ hi
    have hchoice := Json.faithful_whole.holds_of_decode _ _ ha
    exact isWhole_node.mpr ⟨⟨hindex, hchoice⟩, forall_isWhole_of_childrenOfFields? fields parts hparts⟩
  | .array [_, _, items, _], s, h => by
    simp only [ofJson?, Option.bind_eq_bind, Option.bind_eq_some_iff, Option.pure_def, Option.some.injEq] at h
    obtain ⟨c, -, i, hi, parts, hparts, a, ha, rfl⟩ := h
    have hindex := Json.faithful_whole.holds_of_decode _ _ hi
    have hchoice := Json.faithful_whole.holds_of_decode _ _ ha
    exact isWhole_node.mpr ⟨⟨hindex, hchoice⟩, forall_isWhole_of_listOfJson? items parts hparts⟩

theorem forall_isWhole_of_listOfJson? : ∀ (v : Json) (parts : List Skeleton), listOfJson? v = some parts →
    ∀ s ∈ parts, s.IsWhole
  | .array items, parts, h => forall_isWhole_of_allOfJson? items parts h

theorem forall_isWhole_of_allOfJson? : ∀ (items : List Json) (parts : List Skeleton),
    allOfJson? items = some parts → ∀ s ∈ parts, s.IsWhole
  | [], parts, h => by
    cases h
    exact List.forall_mem_nil _
  | item :: rest, parts, h => by
    simp only [allOfJson?, Option.bind_eq_bind, Option.bind_eq_some_iff, Option.pure_def, Option.some.injEq] at h
    obtain ⟨s, hs, others, hothers, rfl⟩ := h
    exact List.forall_mem_cons.mpr ⟨isWhole_of_ofJson? item s hs, forall_isWhole_of_allOfJson? rest others hothers⟩

theorem forall_isWhole_of_childrenOfFields? : ∀ (fields : List (String × Json)) (parts : List Skeleton),
    childrenOfFields? fields = some parts → ∀ s ∈ parts, s.IsWhole
  | (name, value) :: rest, parts, h => by
    rw [childrenOfFields?] at h
    split at h
    · exact forall_isWhole_of_listOfJson? value parts h
    · exact forall_isWhole_of_childrenOfFields? rest parts h

end

theorem faithful_toJson : Faithful IsWhole toJson ofJson? where
  decode_encode := ofJson?_toJson
  holds_of_decode := isWhole_of_ofJson?

end Skeleton

/-! ## Logs -/

/-- A rule is built again from its logged skeleton. -/
theorem Rule.exists_build_ofJson? {g : Grammar} {s : Skeleton} {r : Rule} (hs : s.IsWhole)
    (h : build g s = .ok r) :
    ∃ t, Skeleton.ofJson? r.skeleton.toJson = some t ∧ build g t = .ok r := by
  obtain ⟨-, hskeleton, -⟩ := build_eq_ok_iff.mp h
  refine ⟨s, ?_, h⟩
  rw [hskeleton]
  exact Skeleton.faithful_toJson.decode_encode s hs

/-- **Logged values are read back.** Every skeleton, every board and all examples
that a form can hold are read back from it. Whatever Json value a skeleton, a
board or examples were read from, reading their own form gives the same again.
And over the same grammar a logged skeleton builds the same rule, texts
included. -/
theorem logged_values_read_back :
    (∀ s : Skeleton, s.IsWhole → Skeleton.ofJson? s.toJson = some s) ∧
      (∀ b : Board, Board.ofJson? b.toJson = some b) ∧
      (∀ e : Examples, e.attempts < Json.wholeBound → Examples.ofJson? e.toJson = some e) ∧
      (∀ v s, Skeleton.ofJson? v = some s → Skeleton.ofJson? s.toJson = some s) ∧
      (∀ v b, Board.ofJson? v = some b → Board.ofJson? b.toJson = some b) ∧
      (∀ v e, Examples.ofJson? v = some e → Examples.ofJson? e.toJson = some e) ∧
      ∀ (g : Grammar) (s : Skeleton) (r : Rule), s.IsWhole → Rule.build g s = .ok r →
        ∃ t, Skeleton.ofJson? r.skeleton.toJson = some t ∧ Rule.build g t = .ok r :=
  ⟨Skeleton.faithful_toJson.decode_encode,
    fun b => Board.faithful_toJson.decode_encode b trivial,
    Examples.faithful_toJson.decode_encode,
    fun _ _ => Skeleton.faithful_toJson.decode_encode_of_decode,
    fun _ _ => Board.faithful_toJson.decode_encode_of_decode,
    fun _ _ => Examples.faithful_toJson.decode_encode_of_decode,
    fun _ _ _ => Rule.exists_build_ofJson?⟩

/-- A rule with a nested noun and examples of it, logged and read; and a noun
written as a list, with its category as an object, the largest attribute and a
child that has a field too many. -/
theorem blank_adjacent_logged :
    (∃ r t, Rule.build Grammar.standard (.every .blank (.adjacentTo (.noun 0 1))) = .ok r ∧
        Skeleton.ofJson? r.skeleton.toJson = some t ∧ Rule.build Grammar.standard t = .ok r) ∧
      Examples.ofJson? (Examples.toJson ⟨[.ofCells [some ⟨.yellow, .circle⟩]], [.empty], 2⟩) =
        some ⟨[.ofCells [some ⟨.yellow, .circle⟩]], [.empty], 2⟩ ∧
      ∃ s, Skeleton.ofJson? (.array [.object [("noun", .null)], .natural 4,
          .array [.object [("index", .natural 0), ("category", .string "group"), ("note", .null),
            ("attribute", .natural 0), ("children", .array [])]],
          .natural 18446744073709551615]) = some s ∧
        Skeleton.ofJson? s.toJson = some s := by
  obtain ⟨-, -, hexamples, hagain, -, -, hrule⟩ := logged_values_read_back
  have hwhole : (Skeleton.every .blank (.adjacentTo (.noun 0 1))).IsWhole := by decide
  obtain ⟨r, hr⟩ : ∃ r, Rule.build Grammar.standard (.every .blank (.adjacentTo (.noun 0 1))) = .ok r :=
    ⟨_, rfl⟩
  obtain ⟨t, ht, hbuilt⟩ := hrule _ _ r hwhole hr
  have hread : Skeleton.ofJson? (.array [.object [("noun", .null)], .natural 4,
      .array [.object [("index", .natural 0), ("category", .string "group"), ("note", .null),
        ("attribute", .natural 0), ("children", .array [])]],
      .natural 18446744073709551615]) = some (.node .noun 4 [.group 0] 18446744073709551615) := rfl
  exact ⟨⟨r, t, hr, ht, hbuilt⟩, hexamples _ (by decide), _, hread, hagain _ _ hread⟩

end HiddenRule
