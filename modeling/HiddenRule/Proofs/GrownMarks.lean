import HiddenRule.Proofs.Building
import HiddenRule.Proofs.Substitution
import HiddenRule.Skeleton.Standard
import HiddenRule.Grammar.Standard

/-
  Marks that grow. A mark that occurs more than once in a template is left in
  place but for the first time. If the text put in after it begins with a digit,
  the two together read as the mark of another child, from the tenth on, and
  are replaced in turn. Nothing else keeps a template from being filled in as
  if at once.

  What is proved:
    1. `replaceFirst_cases`: a replacement puts a text in the place of a mark
       that is there, or leaves all as it was.
    2. `foldl_replaceFirst_cases`: replacing the marks of children takes signs
       away exactly if one of the marks is there.
    3. `fill_eq_fillAtOnce_iff`: a template is filled in as if at once exactly
       if no mark grows.
    4. `templates_filled_at_once`: the same of the texts of a fragment.
-/

namespace HiddenRule

namespace Text

variable {texts : List (List Char × List Char)} {chosen : Option (List Char)}

/-- Whether a mark of the tenth child or a later one stands in a text. -/
def HasLateMark (children : Nat) (text : List Char) : Prop :=
  ∃ k ≤ children, 10 ≤ k ∧ (singularMark k <:+: text ∨ pluralMark k <:+: text)

instance (children : Nat) (text : List Char) : Decidable (HasLateMark children text) :=
  inferInstanceAs (Decidable (∃ k ≤ children, _))

/-! ## Signs -/

/-- The number of signs of children's marks in a text. -/
def signs (text : List Char) : Nat := text.countP fun c => c == '%' || c == '$'

theorem signs_append (text more : List Char) : signs (text ++ more) = signs text + signs more :=
  List.countP_append

theorem signs_eq_zero_of_plain {text : List Char} (h : Plain text) : signs text = 0 := by
  rw [signs, List.countP_eq_zero]
  intro c hc
  have hopens := h c hc
  simp only [opens, Bool.or_eq_false_iff] at hopens
  simp [hopens.1]

theorem plain_toDigits (k : Nat) : Plain (Nat.toDigits 10 k) := by
  intro c hc
  have hdigit : c.isDigit = true := Nat.isDigit_of_mem_toDigits (by decide) (by decide) hc
  cases hopens : opens c with
  | false => rfl
  | true =>
    -- none of the three signs is a digit
    simp only [opens, Bool.or_eq_true, beq_iff_eq] at hopens
    rcases hopens with (rfl | rfl) | rfl <;> exact absurd hdigit (by decide)

/-- A replacement puts a text in the place of a mark that is there, or leaves all
as it was. -/
theorem replaceFirst_cases {mark : List Char} (hmark : mark ≠ []) (new : List Char) : ∀ text : List Char,
    (¬mark <:+: text ∧ replaceFirst mark new text = text) ∨
      ∃ before after, text = before ++ (mark ++ after) ∧ replaceFirst mark new text = before ++ (new ++ after)
  | [] => .inl ⟨by simpa using hmark, rfl⟩
  | c :: rest => by
    rw [replaceFirst]
    by_cases hhere : mark <+: c :: rest
    · obtain ⟨after, hafter⟩ := hhere
      refine .inr ⟨[], after, hafter.symm, ?_⟩
      rw [← hafter, if_pos (by simp), List.drop_left]
      rfl
    · have hmiss : ¬mark.isPrefixOf (c :: rest) = true := by rwa [List.isPrefixOf_iff_prefix]
      rw [if_neg hmiss]
      rcases replaceFirst_cases hmark new rest with ⟨hno, hsame⟩ | ⟨before, after, hrest, hnew⟩
      · exact .inl ⟨by simp [List.infix_cons_iff, hhere, hno], by rw [hsame]⟩
      · exact .inr ⟨c :: before, after, by rw [hrest]; rfl, by rw [hnew]; rfl⟩

/-! ## Marks of children -/

/-- A child's mark has one sign, and is no place for the attribute. -/
theorem signs_written {m : Mark} (hm : m ≠ .choice) : signs m.written = 1 ∧ '@' ∉ m.written := by
  have hdigits : ∀ k, signs (Nat.toDigits 10 k) = 0 := fun k => signs_eq_zero_of_plain (plain_toDigits k)
  have hplace : ∀ k, '@' ∉ Nat.toDigits 10 k := fun k => not_mem_of_plain rfl (plain_toDigits k)
  cases m with
  | singular k =>
    refine ⟨?_, List.not_mem_cons_of_ne_of_not_mem (by decide) (hplace k)⟩
    rw [show Mark.written (.singular k) = ['%'] ++ Nat.toDigits 10 k from rfl, signs_append, hdigits]
    rfl
  | plural k =>
    refine ⟨?_, List.not_mem_cons_of_ne_of_not_mem (by decide) (hplace k)⟩
    rw [show Mark.written (.plural k) = ['$'] ++ Nat.toDigits 10 k from rfl, signs_append, hdigits]
    rfl
  | choice => exact absurd rfl hm

theorem written_ne_nil (m : Mark) : m.written ≠ [] := by
  cases m <;> exact List.cons_ne_nil _ _

/-- Whether a replacement is that of a child's mark by a text in which no mark
begins. -/
def FillsChild (step : Mark × List Char) : Prop := step.1 ≠ .choice ∧ Plain step.2

/-- Replacing marks of children takes signs away if one of the marks is there,
and otherwise leaves all as it was. -/
theorem foldl_replaceFirst_cases : ∀ (steps : List (Mark × List Char)) (text : List Char),
    (∀ step ∈ steps, FillsChild step) →
    ((∀ step ∈ steps, ¬step.1.written <:+: text) ∧
        steps.foldl (fun text step => replaceFirst step.1.written step.2 text) text = text) ∨
      ((∃ step ∈ steps, step.1.written <:+: text) ∧
        signs (steps.foldl (fun text step => replaceFirst step.1.written step.2 text) text) < signs text)
  | [], text, _ => .inl ⟨by simp, rfl⟩
  | step :: rest, text, hsteps => by
    obtain ⟨⟨hmark, hplain⟩, hrest⟩ := List.forall_mem_cons.mp hsteps
    rw [List.foldl_cons]
    rcases replaceFirst_cases (written_ne_nil step.1) step.2 text with
      ⟨hno, hsame⟩ | ⟨before, after, htext, hnew⟩
    · rw [hsame]
      rcases foldl_replaceFirst_cases rest text hrest with ⟨hnone, heq⟩ | ⟨hsome, hlt⟩
      · exact .inl ⟨List.forall_mem_cons.mpr ⟨hno, hnone⟩, heq⟩
      · obtain ⟨later, hmem, hthere⟩ := hsome
        exact .inr ⟨⟨later, List.mem_cons_of_mem _ hmem, hthere⟩, hlt⟩
    · have hless : signs (replaceFirst step.1.written step.2 text) < signs text := by
        rw [hnew, htext, signs_append, signs_append, signs_append, signs_append, (signs_written hmark).1,
          signs_eq_zero_of_plain hplain]
        omega
      have hthere : step.1.written <:+: text := ⟨before, after, by rw [htext, List.append_assoc]⟩
      refine .inr ⟨⟨step, List.mem_cons_self, hthere⟩, ?_⟩
      -- the replacements after it do not bring signs back
      rcases foldl_replaceFirst_cases rest (replaceFirst step.1.written step.2 text) hrest with
        ⟨-, heq⟩ | ⟨-, hlt⟩
      · rwa [heq]
      · omega

/-- The place of the attribute is neither made nor lost. -/
theorem at_mem_foldl_replaceFirst : ∀ (steps : List (Mark × List Char)) (text : List Char),
    (∀ step ∈ steps, FillsChild step) →
    ('@' ∈ steps.foldl (fun text step => replaceFirst step.1.written step.2 text) text ↔ '@' ∈ text)
  | [], _, _ => Iff.rfl
  | step :: rest, text, hsteps => by
    obtain ⟨⟨hmark, hplain⟩, hrest⟩ := List.forall_mem_cons.mp hsteps
    rw [List.foldl_cons, at_mem_foldl_replaceFirst rest _ hrest]
    rcases replaceFirst_cases (written_ne_nil step.1) step.2 text with
      ⟨-, hsame⟩ | ⟨before, after, htext, hnew⟩
    · rw [hsame]
    · have hnew' : '@' ∉ step.2 := not_mem_of_plain rfl hplain
      rw [hnew, htext]
      simp [(signs_written hmark).2, hnew']

/-- The text of the attribute brings its own signs, where there is a place for
it. -/
theorem signs_fillAttribute (chosen : Option (List Char)) (text : List Char) :
    signs (fillAttribute chosen text) = signs text + if '@' ∈ text then signs (chosen.getD []) else 0 := by
  cases chosen with
  | none => simp [fillAttribute, signs]
  | some new =>
    have hplace : attributeMark ≠ [] := by decide
    rcases replaceFirst_cases hplace new text with ⟨hno, hsame⟩ | ⟨before, after, htext, hnew⟩
    · have hmem : '@' ∉ text := by
        intro hmem
        obtain ⟨before, after, htext⟩ := List.append_of_mem hmem
        exact hno ⟨before, after, by rw [htext]; simp [attributeMark]⟩
      rw [fillAttribute, hsame, if_neg hmem, Nat.add_zero]
    · have hmem : '@' ∈ text := by simp [htext, attributeMark]
      have hsigns : signs attributeMark = 0 := rfl
      rw [fillAttribute, hnew, if_pos hmem, htext]
      simp only [signs_append, hsigns, Option.getD_some]
      omega

/-! ## Ten children and more -/

theorem fillChildren_append (more : List (List Char × List Char)) :
    ∀ (k : Nat) (texts : List (List Char × List Char)) (template : List Char),
      fillChildren k (texts ++ more) template =
        fillChildren (k + texts.length) more (fillChildren k texts template)
  | _, [], _ => rfl
  | k, _ :: rest, template => by
    rw [List.cons_append, fillChildren, fillChildren, fillChildren_append more (k + 1) rest, List.length_cons,
      Nat.add_right_comm, Nat.add_assoc]

theorem exists_mem_childSteps_iff {P : List Char → Prop} (k : Nat) (texts : List (List Char × List Char)) :
    (∃ step ∈ childSteps k texts, P step.1.written) ↔
      ∃ j < k + texts.length, k ≤ j ∧ (P (singularMark j) ∨ P (pluralMark j)) := by
  have hmarks : (∃ step ∈ childSteps k texts, P step.1.written) ↔
      ∃ m ∈ (childSteps k texts).map Prod.fst, P m.written := by simp
  rw [hmarks, map_fst_childSteps]
  refine ⟨?_, ?_⟩
  · intro h
    obtain ⟨m, hm, hP⟩ := h
    obtain ⟨j, hj, hm⟩ := List.mem_flatMap.mp hm
    obtain ⟨hle, hlt⟩ := List.mem_range'_1.mp hj
    refine ⟨j, hlt, hle, ?_⟩
    simp only [List.mem_cons, List.not_mem_nil, or_false] at hm
    rcases hm with rfl | rfl
    · exact .inl hP
    · exact .inr hP
  · intro h
    obtain ⟨j, hlt, hle, hP⟩ := h
    have hj : j ∈ List.range' k texts.length := List.mem_range'_1.mpr ⟨hle, hlt⟩
    rcases hP with hP | hP
    · exact ⟨.singular j, List.mem_flatMap.mpr ⟨j, hj, by simp⟩, hP⟩
    · exact ⟨.plural j, List.mem_flatMap.mpr ⟨j, hj, by simp⟩, hP⟩

/-- The first nine children are all that the marks of a template speak of. -/
theorem fillAtOnce_take {template : List Char} (htemplate : SignsNumbered template) :
    fillAtOnce (texts.take 9) chosen template = fillAtOnce texts chosen template := by
  rw [fillAtOnce, fillAtOnce]
  congr 1
  apply putAll_congr
  intro m hm
  have hshort : m.IsShort := steady_scan htemplate _ hm
  cases m with
  | choice => rfl
  | singular k | plural k =>
    have hlt : k - 1 < 9 := by
      have hk : k < 10 := hshort
      omega
    simp only [textOf, List.getElem?_take, if_pos hlt]

/-- The replacements for the children from the tenth on. -/
def lateSteps (texts : List (List Char × List Char)) : List (Mark × List Char) :=
  childSteps (1 + (texts.take 9).length) (texts.drop 9)

theorem hasLateMark_iff {text : List Char} :
    HasLateMark texts.length text ↔ ∃ step ∈ lateSteps texts, step.1.written <:+: text := by
  rw [lateSteps, exists_mem_childSteps_iff (P := fun mark => mark <:+: text)]
  refine exists_congr fun k => ?_
  have hrange : (k ≤ texts.length ∧ 10 ≤ k) ↔
      (k < 1 + (texts.take 9).length + (texts.drop 9).length ∧ 1 + (texts.take 9).length ≤ k) := by
    rw [List.length_take, List.length_drop]
    omega
  rw [← and_assoc, hrange, and_assoc]

section
variable {template : List Char} (htemplate : SignsNumbered template) (htexts : ∀ t ∈ texts, Plain t.1 ∧ Plain t.2)
include htemplate htexts

/-- The first nine children are put in as if at once, whatever attribute is put
in after them. -/
theorem fill_take_eq_fillAtOnce (chosen : Option (List Char)) :
    fill (texts.take 9) chosen template = fillAtOnce texts chosen template := by
  have hearly : ∀ t ∈ texts.take 9, Plain t.1 ∧ Plain t.2 := fun t ht => htexts t (List.mem_of_mem_take ht)
  rw [fill_eq_fillAtOnce htemplate (List.length_take_le 9 texts) hearly, fillAtOnce_take htemplate]

/-- At once, the attribute may as well be put in last. -/
theorem fillAtOnce_eq_fillAttribute (chosen : Option (List Char)) :
    fillAtOnce texts chosen template = fillAttribute chosen (fillAtOnce texts none template) := by
  rw [← fill_take_eq_fillAtOnce htemplate htexts, ← fill_take_eq_fillAtOnce htemplate htexts]
  rfl

/-- The children from the tenth on are put into what the first nine are put in
at once, and the attribute after them. -/
theorem fill_eq_fillAttribute_lateSteps (chosen : Option (List Char)) :
    fill texts chosen template = fillAttribute chosen ((lateSteps texts).foldl
      (fun text step => replaceFirst step.1.written step.2 text) (fillAtOnce texts none template)) := by
  have hnine : fillChildren 1 (texts.take 9) template = fillAtOnce texts none template :=
    fill_take_eq_fillAtOnce htemplate htexts none
  rw [← hnine, lateSteps, ← fillChildren_eq_foldl, ← fillChildren_append, List.take_append_drop]
  rfl

/-- **A template is filled in as if at once, unless a mark grows.** -/
theorem fill_eq_fillAtOnce_iff (chosen : Option (List Char)) :
    fill texts chosen template = fillAtOnce texts chosen template ↔
      ¬HasLateMark texts.length (fillAtOnce texts none template) := by
  have hsteps : ∀ step ∈ lateSteps texts, FillsChild step :=
    of_mem_childSteps (M := fun m => m ≠ .choice) _ _ (fun _ _ => ⟨by simp, by simp⟩)
      fun t ht => htexts t (List.mem_of_mem_drop ht)
  rw [fill_eq_fillAttribute_lateSteps htemplate htexts, fillAtOnce_eq_fillAttribute htemplate htexts chosen,
    hasLateMark_iff]
  rcases foldl_replaceFirst_cases (lateSteps texts) (fillAtOnce texts none template) hsteps with
    ⟨hnone, hsame⟩ | ⟨hsome, hless⟩
  · rw [hsame]
    simpa using hnone
  · -- signs are lost, and the attribute makes up for none of them
    refine iff_of_false ?_ (not_not_intro hsome)
    intro heq
    have hsigns := congrArg signs heq
    simp only [signs_fillAttribute, at_mem_foldl_replaceFirst _ _ hsteps] at hsigns
    omega

end

end Text

/-! ## The texts of a fragment -/

/-- The attribute that is looked up without an error. -/
theorem Alternative.eq_of_chosenAttribute_eq_ok {a : Alternative} {c : Category} {index choice : Nat}
    {chosen : Option String} (h : a.chosenAttribute c index choice = .ok chosen) :
    chosen = a.attributes.bind fun texts => texts[choice]? := by
  unfold chosenAttribute at h
  split at h
  · next hnone =>
    rw [hnone]
    exact (Except.ok.inj h).symm
  · next texts htexts =>
    split at h
    · next text htext => rw [htexts, Option.bind_some, htext, Except.ok.inj h]
    · contradiction

namespace Fragment

/-- The texts of the fragments that a fragment is made of. -/
def partTexts (f : Fragment) : List (List Char × List Char) :=
  f.children.map fun part => (part.singular.toList, part.plural.toList)

/-- **Templates are filled in as if at once, unless a mark grows.** Let a fragment
be built of any number of parts, in whose texts no mark begins, and let every
sign in one of its alternative's two templates be followed by exactly one digit.
The text made of it is the template with the first occurrence of each child's
mark and of the attribute's replaced at once and all else in place, exactly if
no mark of the tenth part or a later one stands in the template so filled in
but for the attribute. Of nine parts or fewer this is always so. -/
theorem templates_filled_at_once {g : Grammar} {s : Skeleton} {f : Fragment} {a : Alternative}
    (hbuild : build g s = .ok f) (hnamed : g.chosen? s = some a)
    (hparts : ∀ t ∈ f.partTexts, Text.Plain t.1 ∧ Text.Plain t.2) (template text : String)
    (htext : (template, text) = (a.singular.getD "", f.singular) ∨
      (template, text) = (a.plural.getD (a.singular.getD ""), f.plural))
    (htemplate : Text.SignsNumbered template.toList) :
    text.toList = Text.fillAtOnce f.partTexts
        ((a.attributes.bind fun texts => texts[s.choice]?).map String.toList) template.toList ↔
      ¬Text.HasLateMark f.partTexts.length (Text.fillAtOnce f.partTexts none template.toList) := by
  obtain ⟨a', parts, chosen, hnamed', -, -, hchosen, rfl⟩ := exists_of_build_eq_ok hbuild
  obtain rfl : a' = a := Option.some.inj (hnamed'.symm.trans hnamed)
  have hfilled : text = describe template parts chosen := by
    rcases htext with h | h <;> obtain ⟨rfl, rfl⟩ := Prod.mk.inj h <;> rfl
  rw [← Text.fill_eq_fillAtOnce_iff htemplate hparts, ← Alternative.eq_of_chosenAttribute_eq_ok hchosen, hfilled,
    describe, String.toList_ofList]
  rfl

end Fragment

/-- A grammar with an alternative of ten children, whose two templates differ in
their blanks. -/
def Grammar.tenfold : Grammar :=
  empty.addAll
    [(.noun, nounOf "sign" .color 1 (some ["a", "0", "j"]) [] "@" "@"),
      (.nounPred, { Alternative.bare "ten" (some (.nounPred .adjacentTo)) with
        slots := List.replicate 10 .noun, singular := some "%1 %1 %2", plural := some "%1%1%2" })]

/-- Ten nouns: the second is a digit. -/
def Skeleton.tenNouns : Skeleton :=
  node .nounPred 0 ([noun 0 0, noun 0 1] ++ List.replicate 7 (noun 0 0) ++ [noun 0 2]) 0

/-- Of ten children, only the tenth has a late mark. -/
theorem Text.hasLateMark_ten_iff {text : List Char} :
    HasLateMark 10 text ↔ ['%', '1', '0'] <:+: text ∨ ['$', '1', '0'] <:+: text := by
  refine ⟨?_, fun h => ⟨10, by omega, by omega, h⟩⟩
  rintro ⟨k, hle, hge, h⟩
  obtain rfl : k = 10 := by omega
  exact h

/-- What is built of the ten nouns, with the texts of its parts. -/
theorem Fragment.exists_build_tenNouns :
    ∃ f a, build Grammar.tenfold .tenNouns = .ok f ∧ Grammar.tenfold.chosen? .tenNouns = some a ∧
      f.singular = "a %1 0" ∧ f.plural = "aj" ∧ a.attributes = none ∧
      a.singular = some "%1 %1 %2" ∧ a.plural = some "%1%1%2" ∧
      f.partTexts =
        [(['a'], ['a']), (['0'], ['0'])] ++ List.replicate 7 (['a'], ['a']) ++ [(['j'], ['j'])] :=
  ⟨_, _, rfl, rfl, rfl, rfl, rfl, rfl, rfl, rfl⟩

/-- With a blank behind it, the mark that is left stays what it is, and the
template is filled in as if at once. Without it, the mark grows, and the text
is another. -/
theorem Fragment.blank_keeps_mark_from_growing :
    ∃ f, build Grammar.tenfold .tenNouns = .ok f ∧ f.singular = "a %1 0" ∧
      f.singular.toList = Text.fillAtOnce f.partTexts none "%1 %1 %2".toList ∧
      f.plural.toList ≠ Text.fillAtOnce f.partTexts none "%1%1%2".toList := by
  obtain ⟨f, a, hbuild, hnamed, htext, -, hnone, hone, hmany, hparts⟩ := exists_build_tenNouns
  have hplain : ∀ t ∈ f.partTexts, Text.Plain t.1 ∧ Text.Plain t.2 := by
    rw [hparts]
    decide
  have hsingular := templates_filled_at_once hbuild hnamed hplain "%1 %1 %2" f.singular
    (.inl (by rw [hone]; rfl)) (by decide)
  have hplural := templates_filled_at_once hbuild hnamed hplain "%1%1%2" f.plural
    (.inr (by rw [hmany]; rfl)) (by decide)
  have hten : f.partTexts.length = 10 := by
    rw [hparts]
    rfl
  rw [hnone, hten, Text.hasLateMark_ten_iff] at hsingular hplural
  refine ⟨f, hbuild, htext, hsingular.mpr ?_, fun h => hplural.mp h ?_⟩
  · rw [hparts]
    decide +kernel
  · rw [hparts]
    decide +kernel

/-- A template filled in otherwise than at once: the first of the two marks of
the first noun gives way to its text, the second stays, and with the digit that
the second noun puts in after it becomes the mark of the tenth. -/
theorem Fragment.leftover_mark_grows :
    ∃ f a, build Grammar.tenfold .tenNouns = .ok f ∧ Grammar.tenfold.chosen? .tenNouns = some a ∧
      (∀ t ∈ f.partTexts, Text.Plain t.1 ∧ Text.Plain t.2) ∧ a.attributes = none ∧
      a.plural = some "%1%1%2" ∧ Text.SignsNumbered "%1%1%2".toList ∧
      f.plural = "aj" ∧ Text.fillAtOnce f.partTexts none "%1%1%2".toList = "a%10".toList := by
  obtain ⟨f, a, hbuild, hnamed, -, htext, hnone, -, hmany, hparts⟩ := exists_build_tenNouns
  refine ⟨f, a, hbuild, hnamed, ?_, hnone, hmany, by decide, htext, ?_⟩
  · rw [hparts]
    decide
  · rw [hparts]
    rfl

end HiddenRule
