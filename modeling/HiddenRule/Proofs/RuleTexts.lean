import HiddenRule.Proofs.SettledTrees
import HiddenRule.Proofs.Substitution
import HiddenRule.Proofs.Wording

/-
  Rule texts tell the rules apart. Different alternatives share words, and texts
  are put together without marks between them. But every rule ends with the text
  of its last part, and what stands before it, the opening, can be cut off: no
  opening is the beginning of another one. So a text has one opening, which tells
  all of the rule but its last part, and what is left tells the last part.

  What is proved:
    1. `eq_of_append_eq`: texts none of which begins with another one can be cut
       off from whatever follows.
    2. `texts_of_build`: the texts of a built fragment, computed from its tree.
    3. `openings_apart`, `closings_apart`: the openings of the standard rules can
       be cut off, and what follows an opening tells the part that it describes.
    4. `exists_begun`, `singular_begun`: every rule is a begun rule with its last part,
       and its text is the opening followed by what this part makes of it.
    5. `description_identifies`: two rules have the same text exactly if they are
       the same up to attributes that are not looked at, and they judge alike then.
-/

namespace HiddenRule

namespace Text

/-! ## Texts that can be cut off -/

variable {ι : Type} {text : ι → List Char} {entries : List ι}

/-- Whether no text of the listed entries begins with that of another one. -/
def PrefixFree (text : ι → List Char) (entries : List ι) : Prop :=
  entries.Pairwise fun e e' => ¬text e <+: text e' ∧ ¬text e' <+: text e

instance : Decidable (PrefixFree text entries) := inferInstanceAs (Decidable (entries.Pairwise _))

theorem PrefixFree.eq_of_prefix (h : PrefixFree text entries) {e e' : ι} (he : e ∈ entries) (he' : e' ∈ entries)
    (hbegins : text e <+: text e') : e = e' := by
  have hsymm : Std.Symm fun e e' => ¬text e <+: text e' ∧ ¬text e' <+: text e := ⟨fun _ _ hapart => hapart.symm⟩
  by_contra hne
  exact (List.Pairwise.forall h he he' hne).1 hbegins

/-- A text can be cut off from whatever follows it. -/
theorem PrefixFree.eq_of_append_eq (h : PrefixFree text entries) {e e' : ι} (he : e ∈ entries) (he' : e' ∈ entries)
    {rest rest' : List Char} (heq : text e ++ rest = text e' ++ rest') : e = e' ∧ rest = rest' := by
  have hsame : e = e' := by
    have hbegins : text e <+: text e' ++ rest' := heq ▸ List.prefix_append _ _
    rcases List.prefix_or_prefix_of_prefix hbegins (List.prefix_append _ _) with hshorter | hlonger
    · exact h.eq_of_prefix he he' hshorter
    · exact (h.eq_of_prefix he' he hlonger).symm
  subst hsame
  exact ⟨rfl, List.append_cancel_left heq⟩

end Text

/-! ## Texts of trees -/

/-- The attribute at a position, if there is one. -/
def Alternative.attributeText (a : Alternative) (choice : Nat) : Option (List Char) :=
  (a.attributes.bind fun texts => texts[choice]?).map String.toList

theorem Alternative.attributeText_eq {a : Alternative} {c : Category} {i choice : Nat} {chosen : Option String}
    (h : a.chosenAttribute c i choice = .ok chosen) : a.attributeText choice = chosen.map String.toList := by
  unfold chosenAttribute at h
  split at h
  · next hnone => rw [attributeText, hnone, ← Except.ok.inj h]; rfl
  · next texts htexts =>
    split at h
    · next text htext => rw [attributeText, htexts, Option.bind_some, htext, ← Except.ok.inj h]
    · contradiction

namespace Grammar

mutual

/-- The texts of a tree, singular and plural. -/
def texts (g : Grammar) : Skeleton → List Char × List Char
  | .node c i parts choice =>
    match g.alternative? c i with
    | none => ([], [])
    | some a =>
      (Text.fill (textsAll g parts) (a.attributeText choice) a.singularTemplate.toList,
        Text.fill (textsAll g parts) (a.attributeText choice) a.pluralTemplate.toList)

/-- The texts of the trees, each singular and plural. -/
def textsAll (g : Grammar) : List Skeleton → List (List Char × List Char)
  | [] => []
  | s :: rest => texts g s :: textsAll g rest

end

theorem textsAll_eq_map (g : Grammar) (ss : List Skeleton) : g.textsAll ss = ss.map g.texts := by
  induction ss with
  | nil => rfl
  | cons s rest ih => rw [textsAll, ih, List.map_cons]

theorem texts_node {g : Grammar} {c : Category} {i : Nat} {a : Alternative} (hnamed : g.alternative? c i = some a)
    (ss : List Skeleton) (choice : Nat) :
    g.texts (.node c i ss choice) = (Text.fill (ss.map g.texts) (a.attributeText choice) a.singularTemplate.toList,
      Text.fill (ss.map g.texts) (a.attributeText choice) a.pluralTemplate.toList) := by
  rw [texts, hnamed, textsAll_eq_map]

mutual

/-- The texts of a built fragment are those of its tree. -/
theorem texts_of_build {g : Grammar} : ∀ (s : Skeleton) {f : Fragment}, Fragment.build g s = .ok f →
    g.texts s = (f.singular.toList, f.plural.toList)
  | .node c i ss choice, f, h => by
    obtain ⟨a, parts, chosen, hnamed, -, hparts, hchosen, rfl⟩ := Fragment.exists_of_build_eq_ok h
    change g.alternative? c i = some a at hnamed
    have hattribute : a.attributeText choice = chosen.map String.toList := Alternative.attributeText_eq hchosen
    rw [texts_node hnamed, ← textsAll_eq_map, textsAll_of_buildAll ss hparts, hattribute]
    simp only [Fragment.ofParts, Fragment.singular, Fragment.plural, Fragment.label, Fragment.describe,
      String.toList_ofList]

theorem textsAll_of_buildAll {g : Grammar} : ∀ (ss : List Skeleton) {parts : List Fragment},
    Fragment.buildAll g ss = .ok parts → g.textsAll ss = parts.map fun f => (f.singular.toList, f.plural.toList)
  | [], parts, h => by
    rw [Fragment.buildAll_nil_eq_ok_iff.mp h]
    rfl
  | s :: rest, parts, h => by
    obtain ⟨f, others, hf, hothers, rfl⟩ := Fragment.buildAll_cons_eq_ok_iff.mp h
    rw [textsAll, texts_of_build s hf, textsAll_of_buildAll rest hothers, List.map_cons]

end

/-- No mark begins in the texts of what can be built over the standard grammar. -/
theorem plain_texts_of_build {s : Skeleton} {f : Fragment} (h : Fragment.build standard s = .ok f) :
    Text.Plain (standard.texts s).1 ∧ Text.Plain (standard.texts s).2 := by
  have hdescribed := Fragment.described_of_build standard_worded h
  rw [texts_of_build s h]
  exact ⟨hdescribed.singular.2, hdescribed.plural.2⟩

/-! ## Openings and closings -/

/-- What stands in a text before that of the last child: the text that there would
be if the last child had none. -/
def opening (a : Alternative) (before : List (List Char × List Char)) : List Char :=
  Text.fill (before ++ [([], [])]) none a.singularTemplate.toList

/-- The rules without their last parts: the position of a rule, and the settled
trees that come before the last. -/
def begunRules : List (Nat × List Skeleton) :=
  (standard.alternatives .rule).zipIdx.flatMap fun entry =>
    (entry.1.slots.dropLast.map (standard.trees 2)).sections.map fun before => (entry.2, before)

/-- What stands in the text of a rule before that of its last part. -/
def ruleOpening (begun : Nat × List Skeleton) : List Char :=
  ((standard.alternative? .rule begun.1).map fun a => opening a (standard.textsAll begun.2)).getD []

/-- The opening of a rule can be cut off. -/
theorem openings_apart : Text.PrefixFree ruleOpening begunRules := by
  decide +kernel

/-- What follows an opening tells the part that it describes. -/
theorem closings_apart : ∀ a ∈ standard.alternatives .rule, ∀ c ∈ a.slots.getLast?,
    ((standard.trees 2 c).map fun t => Text.closing a.singularTemplate.toList (standard.texts t)).Nodup := by
  decide +kernel

/-- A standard rule has no attributes, and its text ends with that of its last
part. -/
theorem standard_rule_ends : ∀ a ∈ standard.alternatives .rule, a.attributes = none ∧ a.slots ≠ [] ∧
    a.slots.length ≤ 9 ∧ Text.SignsNumbered a.singularTemplate.toList ∧
      Text.EndsWith a.singularTemplate.toList a.slots.length := by
  decide +kernel

/-- A settled rule is a begun rule with its last part. -/
theorem exists_begun {s : Skeleton} {f : Fragment} (h : Fragment.build standard s = .ok f)
    (hrule : s.category = .rule) : ∃ i a c before last, standard.alternative? .rule i = some a ∧
      a.slots.getLast? = some c ∧ (i, before) ∈ begunRules ∧ last ∈ standard.trees 2 c ∧
      standard.settled s = .node .rule i (before ++ [last]) 0 := by
  have hmem := settled_mem_trees s f 3 h (by rw [hrule]; decide)
  rw [hrule] at hmem
  obtain ⟨i, a, parts, choice, hnamed, hchoice, hparts, hsettled⟩ := mem_trees_succ.mp hmem
  obtain ⟨hnone, hne, -, -, -⟩ := standard_rule_ends a (List.mem_of_getElem? hnamed)
  have hzero : choice = 0 := by
    rw [Alternative.attributeCount, hnone] at hchoice
    exact Nat.lt_one_iff.mp hchoice
  -- the last part takes the last slot
  rw [← List.dropLast_append_getLast hne] at hparts
  have hbefore := List.forall₂_take_append _ _ _ hparts
  obtain ⟨last, others, hlast, hothers, hdrop⟩ :=
    List.forall₂_cons_right_iff.mp (List.forall₂_drop_append _ _ _ hparts)
  obtain rfl : others = [] := List.forall₂_nil_right_iff.mp hothers
  refine ⟨i, a, a.slots.getLast hne, parts.take a.slots.dropLast.length, last, hnamed,
    List.getLast?_eq_some_getLast hne, ?_, hlast, ?_⟩
  · refine List.mem_flatMap.mpr ⟨(a, i), List.mem_zipIdx_iff_getElem?.mpr hnamed,
      List.mem_map.mpr ⟨_, ?_, rfl⟩⟩
    rwa [List.mem_sections, List.forall₂_map_right_iff]
  · rw [← hdrop, List.take_append_drop, ← hsettled, hzero]

/-- The text of a rule that has been begun ends with what its last part makes of
it. -/
theorem singular_begun {i : Nat} {a : Alternative} {before : List Skeleton} {last : Skeleton} {f : Fragment}
    (hnamed : standard.alternative? .rule i = some a)
    (h : Fragment.build standard (.node .rule i (before ++ [last]) 0) = .ok f) :
    f.singular.toList = ruleOpening (i, before) ++ Text.closing a.singularTemplate.toList (standard.texts last) := by
  obtain ⟨hnone, -, hnine, hnumbered, hends⟩ := standard_rule_ends a (List.mem_of_getElem? hnamed)
  obtain ⟨a', parts, -, hnamed', hslots, hparts, -, -⟩ := Fragment.exists_of_build_eq_ok h
  obtain rfl : a' = a := Option.some.inj (hnamed'.symm.trans hnamed)
  change (before ++ [last]).map Skeleton.category = a'.slots at hslots
  have hplain : ∀ t ∈ before ++ [last], Text.Plain (standard.texts t).1 ∧ Text.Plain (standard.texts t).2 := by
    intro t ht
    obtain ⟨ft, hft⟩ := Fragment.exists_build_of_mem hparts ht
    exact plain_texts_of_build hft
  obtain ⟨hbefore, hlast⟩ := List.forall_mem_append.mp hplain
  have hlength : a'.slots.length = before.length + 1 := by
    rw [← hslots, List.length_map, List.length_append, List.length_singleton]
  have htexts : Text.fill (before.map standard.texts ++ [standard.texts last]) none a'.singularTemplate.toList =
      f.singular.toList := by
    have hattribute : a'.attributeText 0 = none := by rw [Alternative.attributeText, hnone]; rfl
    have hbuilt := texts_of_build _ h
    rw [texts_node hnamed, List.map_append, List.map_singleton, hattribute] at hbuilt
    exact congrArg Prod.fst hbuilt
  rw [← List.length_map standard.texts] at hlength
  rw [← htexts, Text.fill_concat hnumbered (hlength ▸ hends) (by omega) (List.forall_mem_map.mpr hbefore)
    (hlast last (List.mem_singleton_self last)), ruleOpening, hnamed, Option.map_some, Option.getD_some, opening,
    textsAll_eq_map]

/-- Rules with the same text are the same, settled. -/
theorem settled_eq_of_singular_eq {s s' : Skeleton} {f f' : Fragment} (h : Fragment.build standard s = .ok f)
    (h' : Fragment.build standard s' = .ok f') (hrule : s.category = .rule) (hrule' : s'.category = .rule)
    (htext : f.singular = f'.singular) : standard.settled s = standard.settled s' := by
  obtain ⟨i, a, c, before, last, hnamed, hslot, hbegun, hlast, hsettled⟩ := exists_begun h hrule
  obtain ⟨i', a', c', before', last', hnamed', hslot', hbegun', hlast', hsettled'⟩ := exists_begun h' hrule'
  obtain ⟨_, hbuild, hsame⟩ := Fragment.exists_build_settled s f h
  obtain ⟨_, hbuild', hsame'⟩ := Fragment.exists_build_settled s' f' h'
  rw [hsettled] at hbuild
  rw [hsettled'] at hbuild'
  -- one text, opened in two ways
  have hsplit := singular_begun hnamed hbuild
  rw [← hsame.singular, htext, hsame'.singular, singular_begun hnamed' hbuild'] at hsplit
  obtain ⟨hopening, hclosing⟩ := openings_apart.eq_of_append_eq hbegun' hbegun hsplit
  obtain ⟨rfl, rfl⟩ := Prod.mk.inj hopening
  obtain rfl : a' = a := Option.some.inj (hnamed'.symm.trans hnamed)
  obtain rfl : c' = c := Option.some.inj (hslot'.symm.trans hslot)
  have hapart := closings_apart a' (List.mem_of_getElem? hnamed) c' hslot
  obtain rfl : last' = last := List.inj_on_of_nodup_map hapart hlast' hlast hclosing
  rw [hsettled, hsettled']

end Grammar

/-- **The text of a rule identifies the rule.** Two rules that can be built over
the standard grammar have the same text exactly if their skeletons are the same
up to the attributes of nodes that have none to choose from; and two rules with
the same text judge every board alike. -/
theorem Rule.description_identifies {s s' : Skeleton} {r r' : Rule} (h : build Grammar.standard s = .ok r)
    (h' : build Grammar.standard s' = .ok r') :
    (r.description = r'.description ↔ Grammar.standard.settled s = Grammar.standard.settled s') ∧
      (r.description = r'.description → ∀ b, r.judge b = r'.judge b) := by
  obtain ⟨hrule, -, hroot⟩ := build_eq_ok_iff.mp h
  obtain ⟨hrule', -, hroot'⟩ := build_eq_ok_iff.mp h'
  obtain ⟨f, hsettled, hsame⟩ := Fragment.exists_build_settled s r.root hroot
  obtain ⟨f', hsettled', hsame'⟩ := Fragment.exists_build_settled s' r'.root hroot'
  have hroots : Grammar.standard.settled s = Grammar.standard.settled s' → f = f' := by
    intro heq
    rw [heq, hsettled'] at hsettled
    exact (Except.ok.inj hsettled).symm
  have hidentifies : r.description = r'.description → Grammar.standard.settled s = Grammar.standard.settled s' :=
    Grammar.settled_eq_of_singular_eq hroot hroot' hrule hrule'
  refine ⟨⟨hidentifies, ?_⟩, ?_⟩
  · intro heq
    exact hsame.singular.trans ((congrArg Fragment.singular (hroots heq)).trans hsame'.singular.symm)
  · intro htext b
    have hmeaning : r.root.meaning b = r'.root.meaning b := by
      rw [hsame.meaning b, hroots (hidentifies htext), hsame'.meaning b]
    simp only [judge, Fragment.holds, hmeaning]

/-- Numbers where there is no attribute to choose do not show, neither at the
rule nor at its blank cells nor at a predicate; a middle row is told from a middle
column. -/
theorem Rule.ignored_choices_described : ∃ r r' row column,
    build Grammar.standard (.node .rule 0 [.noun 4 7, .node .nounPred 4 [.noun 0 1] 3] 9) = .ok r ∧
    build Grammar.standard (.every .blank (.adjacentTo (.noun 0 1))) = .ok r' ∧
    build Grammar.standard (.noneIs (.noun 2 1) (.pred 0 0)) = .ok row ∧
    build Grammar.standard (.noneIs (.noun 3 1) (.pred 0 0)) = .ok column ∧
    r.description = r'.description ∧ (∀ b, r.judge b = r'.judge b) ∧ row.description ≠ column.description := by
  refine ⟨_, _, _, _, rfl, rfl, rfl, rfl, ?_⟩
  obtain ⟨hsame, hjudge⟩ := description_identifies
    (rfl : build Grammar.standard (.node .rule 0 [.noun 4 7, .node .nounPred 4 [.noun 0 1] 3] 9) = .ok _)
    (rfl : build Grammar.standard (.every .blank (.adjacentTo (.noun 0 1))) = .ok _)
  obtain ⟨hapart, -⟩ := description_identifies
    (rfl : build Grammar.standard (.noneIs (.noun 2 1) (.pred 0 0)) = .ok _)
    (rfl : build Grammar.standard (.noneIs (.noun 3 1) (.pred 0 0)) = .ok _)
  have hdescription := hsame.mpr rfl
  refine ⟨hdescription, hjudge hdescription, ?_⟩
  intro heq
  have hsettled := hapart.mp heq
  simp [Skeleton.noneIs, Skeleton.noun, Skeleton.leaf, Grammar.settled_eq_iff] at hsettled

end HiddenRule
