import HiddenRule.Proofs.Templates

/-
  Filling in a template at once. The program replaces mark after mark in a text
  that has changed in the meantime. Filling in at once looks at the template
  only: the first occurrence of each mark gives way to its text, and all else
  stays. With nine children or fewer the two come to the same, as long as no
  mark begins in the texts of the children. The text of the attribute is put in
  last, and may hold whatever it likes.

  What is proved:
    1. `putAll_put`: in a row of pieces, a mark may as well be replaced before
       the others.
    2. `steady_scan`: where every sign has its digit, a template is a row of
       pieces that no replacement makes or breaks.
    3. `fill_eq_fillAtOnce`: with nine children or fewer, a template is filled
       in as if at once.
    4. `fill_concat`: so a template that ends with the mark of its last child
       ends with the text of this child.
-/

namespace HiddenRule.Text

variable {texts : List (List Char × List Char)} {chosen : Option (List Char)}

/-! ## All marks at once -/

/-- What a mark stands for, if anything: the texts of the children, numbered
from `first` on, and that of the attribute. -/
def textOf (first : Nat) (texts : List (List Char × List Char)) (chosen : Option (List Char)) :
    Mark → Option (List Char)
  | .singular k => if k < first then none else texts[k - first]?.map Prod.fst
  | .plural k => if k < first then none else texts[k - first]?.map Prod.snd
  | .choice => chosen

/-- The row with words for the first occurrence of each mark that stands for
some. What becomes of a piece depends on the row as it was, and on nothing that
is put in elsewhere. -/
def putAll (value : Mark → Option (List Char)) (pieces : List Piece) : List Piece :=
  pieces.mapIdx fun i p =>
    match p with
    | .words text => .words text
    | .mark m => if pieces.idxOf (.mark m) = i then (value m).elim (.mark m) .words else .mark m

/-- A template filled in at once. -/
def fillAtOnce (texts : List (List Char × List Char)) (chosen : Option (List Char)) (template : List Char) :
    List Char :=
  write (putAll (textOf 1 texts chosen) (scan template))

theorem getElem?_putAll (value : Mark → Option (List Char)) (pieces : List Piece) (i : Nat) :
    (putAll value pieces)[i]? = pieces[i]?.map fun p =>
      match p with
      | .words text => .words text
      | .mark m => if pieces.idxOf (.mark m) = i then (value m).elim (.mark m) .words else .mark m :=
  List.getElem?_mapIdx

theorem putAll_congr {value value' : Mark → Option (List Char)} {pieces : List Piece}
    (h : ∀ m, .mark m ∈ pieces → value m = value' m) : putAll value pieces = putAll value' pieces := by
  apply List.ext_getElem?
  intro i
  rw [getElem?_putAll, getElem?_putAll]
  cases hp : pieces[i]? with
  | none => rfl
  | some p =>
    cases p with
    | words text => rfl
    | mark m => simp [h m (List.mem_of_getElem? hp)]

theorem putAll_none (pieces : List Piece) : putAll (fun _ => none) pieces = pieces := by
  apply List.ext_getElem?
  intro i
  rw [getElem?_putAll]
  cases hp : pieces[i]? with
  | none => rfl
  | some p =>
    cases p with
    | words text => rfl
    | mark m => simp

/-! ## One mark more -/

theorem put_eq_set (m : Mark) (new : List Char) : ∀ pieces : List Piece,
    put m new pieces = pieces.set (pieces.idxOf (.mark m)) (.words new)
  | [] => rfl
  | p :: rest => by
    rw [put]
    by_cases hp : p = .mark m
    · rw [if_pos hp, hp, List.idxOf_cons_self]
      rfl
    · rw [if_neg hp, List.idxOf_cons_ne _ hp, put_eq_set m new rest]
      rfl

theorem idxOf_put_of_ne {m m' : Mark} (hne : m ≠ m') (new : List Char) : ∀ pieces : List Piece,
    (put m new pieces).idxOf (.mark m') = pieces.idxOf (.mark m')
  | [] => rfl
  | p :: rest => by
    rw [put]
    by_cases hp : p = .mark m
    · rw [if_pos hp, hp, List.idxOf_cons_ne _ (by simp), List.idxOf_cons_ne _ (by simpa using hne)]
    · rw [if_neg hp, List.idxOf_cons, List.idxOf_cons, idxOf_put_of_ne hne new rest]

/-- Replacing a mark before all others is replacing it with them. -/
theorem putAll_put {value : Mark → Option (List Char)} {m : Mark} (hm : value m = none) (new : List Char)
    (pieces : List Piece) :
    putAll value (put m new pieces) = putAll (Function.update value m (some new)) pieces := by
  apply List.ext_getElem?
  intro i
  rw [getElem?_putAll, getElem?_putAll]
  by_cases hi : pieces.idxOf (.mark m) = i
  · -- the piece that is replaced
    rw [put_eq_set, List.getElem?_set, if_pos hi]
    by_cases hlt : i < pieces.length
    · have hpiece : pieces[i]? = some (.mark m) := by
        subst hi
        rw [List.getElem?_eq_getElem hlt, List.getElem_idxOf hlt]
      rw [hpiece, hi, if_pos hlt]
      simp [hi]
    · rw [hi, if_neg hlt, List.getElem?_eq_none (by omega)]
      rfl
  · have hother : (put m new pieces)[i]? = pieces[i]? := by
      rw [put_eq_set, List.getElem?_set, if_neg hi]
    rw [hother]
    cases hp : pieces[i]? with
    | none => rfl
    | some p =>
      cases p with
      | words text => rfl
      | mark m' =>
        by_cases hm' : m = m'
        · subst hm'
          simp [hm, hi]
        · simp [idxOf_put_of_ne hm', Function.update_of_ne (Ne.symm hm')]

theorem put_eq_putAll (m : Mark) (new : List Char) (pieces : List Piece) :
    put m new pieces = putAll (Function.update (fun _ => none) m (some new)) pieces := by
  rw [← putAll_put rfl, putAll_none]

/-! ## One child more -/

theorem textOf_nil (first : Nat) (m : Mark) : textOf first [] chosen m = if m = .choice then chosen else none := by
  cases m <;> simp [textOf]

theorem textOf_cons (first : Nat) (singular plural : List Char) (texts : List (List Char × List Char)) :
    textOf first ((singular, plural) :: texts) chosen =
      Function.update (Function.update (textOf (first + 1) texts chosen) (.plural first) (some plural))
        (.singular first) (some singular) := by
  funext m
  cases m with
  | choice => simp [textOf]
  | singular k | plural k =>
    rcases Nat.lt_trichotomy k first with hlt | heq | hgt
    · simp [textOf, hlt, Nat.ne_of_lt hlt, Nat.lt_succ_of_lt hlt]
    · simp [textOf, heq]
    · have hsub : k - first = (k - (first + 1)) + 1 := by omega
      have hnot : ¬k < first := by omega
      have hnot' : ¬k < first + 1 := by omega
      simp [textOf, hnot, hnot', Nat.ne_of_gt hgt, hsub]

/-- In a row of pieces, the marks of the children may as well be replaced
before the others, one after the other. -/
theorem putAll_foldl_put : ∀ (first : Nat) (texts : List (List Char × List Char)) (pieces : List Piece),
    putAll (textOf first [] chosen) ((childSteps first texts).foldl (fun row step => put step.1 step.2 row) pieces) =
      putAll (textOf first texts chosen) pieces
  | _, [], _ => rfl
  | first, (singular, plural) :: rest, pieces => by
    have hnil : textOf first [] chosen = textOf (first + 1) [] chosen := by
      funext m
      rw [textOf_nil, textOf_nil]
    rw [childSteps, List.foldl_cons, List.foldl_cons, hnil, putAll_foldl_put (first + 1) rest, textOf_cons,
      putAll_put, putAll_put]
    · simp [textOf]
    · simp [textOf]

/-! ## Up to nine children -/

/-- Whether a character of a template, if it is the sign of a child's mark, is
followed by exactly one digit. -/
def NumberedAt (template : List Char) (i : Nat) : Prop :=
  template[i]? = some '%' ∨ template[i]? = some '$' →
    (∃ d ∈ template[i + 1]?, isDigit d) ∧ ∀ e ∈ template[i + 2]?, ¬isDigit e

instance (template : List Char) : DecidablePred (NumberedAt template) := fun i =>
  -- only the character that stands there is tried, not all characters
  letI : Decidable (∃ d ∈ template[i + 1]?, isDigit d) := Option.decidableExistsMem _
  letI : Decidable (∀ e ∈ template[i + 2]?, ¬isDigit e) := Option.decidableForallMem _
  inferInstanceAs (Decidable (_ → _))

/-- Whether every sign of a child's mark is followed by exactly one digit. -/
def SignsNumbered (template : List Char) : Prop := ∀ i, NumberedAt template i

instance : DecidablePred SignsNumbered := fun template =>
  decidable_of_iff (∀ i < template.length, NumberedAt template i) <| by
    refine ⟨?_, fun h i _ => h i⟩
    intro h i
    by_cases hi : i < template.length
    · exact h i hi
    · intro hsign
      simp [List.getElem?_eq_none (Nat.le_of_not_lt hi)] at hsign

theorem SignsNumbered.tail {c : Char} {rest : List Char} (h : SignsNumbered (c :: rest)) : SignsNumbered rest :=
  fun i => h (i + 1)

/-- A sign comes with its digit. -/
theorem SignsNumbered.head {c : Char} {rest : List Char} (h : SignsNumbered (c :: rest))
    (hc : c = '%' ∨ c = '$') : ∃ d more, rest = d :: more ∧ isDigit d := by
  obtain ⟨⟨d, hd, hdigit⟩, -⟩ := h 0 (by simpa using hc)
  cases rest with
  | nil => simp at hd
  | cons e more =>
    simp only [List.getElem?_cons_succ, List.getElem?_cons_zero, Option.mem_some_iff] at hd
    exact ⟨e, more, rfl, hd ▸ hdigit⟩

theorem plain_singleton {c : Char} (hsign : c ≠ '%') (hsign' : c ≠ '$') (hchoice : c ≠ '@') : Plain [c] := by
  simp [Plain, opens, hsign, hsign', hchoice]

theorem digit_lt {c : Char} (h : isDigit c) : digit c < 10 := by
  obtain ⟨hlo, hhi⟩ := h
  have h0 : '0'.toNat = 48 := rfl
  have h9 : '9'.toNat = 57 := rfl
  unfold digit
  omega

/-- The pieces of such a template are steady. -/
theorem steady_scan {template : List Char} (h : SignsNumbered template) :
    ∀ p ∈ scan template, p.Steady := by
  fun_induction scan template with
  | case1 => simp
  | case2 c =>
    split
    · exact List.forall_mem_singleton.mpr trivial
    · next hchoice =>
      -- a sign at the end would have no digit
      have hno : ¬(c = '%' ∨ c = '$') := by
        intro hc
        obtain ⟨d, more, hnil, -⟩ := h.head hc
        contradiction
      exact List.forall_mem_singleton.mpr
        (plain_singleton (fun hc => hno (.inl hc)) (fun hc => hno (.inr hc)) hchoice)
  | case3 d rest ih => exact List.forall_mem_cons.mpr ⟨trivial, ih h.tail⟩
  | case4 c d rest _ hsign ih =>
    exact List.forall_mem_cons.mpr ⟨digit_lt hsign.2, ih h.tail.tail⟩
  | case5 c d rest _ _ hsign ih =>
    exact List.forall_mem_cons.mpr ⟨digit_lt hsign.2, ih h.tail.tail⟩
  | case6 c d rest hchoice hsign hsign' ih =>
    have hno : ¬(c = '%' ∨ c = '$') := by
      intro hc
      obtain ⟨e, more, heq, hdigit⟩ := h.head hc
      obtain ⟨rfl, -⟩ := List.cons.inj heq
      rcases hc with hc | hc
      · exact hsign ⟨hc, hdigit⟩
      · exact hsign' ⟨hc, hdigit⟩
    exact List.forall_mem_cons.mpr
      ⟨plain_singleton (fun hc => hno (.inl hc)) (fun hc => hno (.inr hc)) hchoice, ih h.tail⟩

theorem steady_foldl_put : ∀ (steps : List (Mark × List Char)) {pieces : List Piece},
    (∀ step ∈ steps, Plain step.2) → (∀ p ∈ pieces, p.Steady) →
    ∀ p ∈ steps.foldl (fun row step => put step.1 step.2 row) pieces, p.Steady
  | [], _, _, hpieces => hpieces
  | step :: rest, _, hsteps, hpieces => by
    obtain ⟨hplain, hrest⟩ := List.forall_mem_cons.mp hsteps
    exact steady_foldl_put rest hrest (forall_mem_put (P := Piece.Steady) hplain hpieces)

/-- With nine children or fewer, a template is filled in as if at once. -/
theorem fill_eq_fillAtOnce {template : List Char} (htemplate : SignsNumbered template)
    (hlength : texts.length ≤ 9) (htexts : ∀ t ∈ texts, Plain t.1 ∧ Plain t.2) :
    fill texts chosen template = fillAtOnce texts chosen template := by
  have hsteps := of_mem_childSteps 1 texts (isShort_of_lt (Nat.lt_succ_of_le hlength)) htexts
  have hsteady := steady_scan htemplate
  have hrow : fillChildren 1 texts template =
      write ((childSteps 1 texts).foldl (fun row step => put step.1 step.2 row) (scan template)) := by
    rw [fillChildren_eq_foldl, ← foldl_replaceFirst_write _ hsteps hsteady, write_scan]
  rw [fill, hrow, fillAtOnce, ← putAll_foldl_put]
  cases chosen with
  | none =>
    have hnothing : textOf 1 [] none = fun _ => none := by
      funext m
      rw [textOf_nil, ite_self]
    rw [hnothing, putAll_none]
    rfl
  | some text =>
    have hchoice : textOf 1 [] (some text) = Function.update (fun _ => none) .choice (some text) := by
      funext m
      rw [textOf_nil, Function.update_apply]
    rw [hchoice, ← put_eq_putAll]
    exact replaceFirst_write (m := .choice) trivial
      (steady_foldl_put _ (fun step hstep => (hsteps step hstep).2) hsteady)

/-! ## Templates that end with a mark -/

/-- Whether a template ends with a mark of a child, and has no other mark of it. -/
def EndsWith (template : List Char) (n : Nat) : Prop :=
  (∃ m ∈ [Mark.singular n, .plural n], (scan template).getLast? = some (.mark m)) ∧
    ∀ m ∈ [Mark.singular n, .plural n], Piece.mark m ∉ (scan template).dropLast

instance (template : List Char) (n : Nat) : Decidable (EndsWith template n) := inferInstanceAs (Decidable (_ ∧ _))

/-- The text of the child that a template ends with, in the number that it asks
for. -/
def closing (template : List Char) (last : List Char × List Char) : List Char :=
  match (scan template).getLast? with
  | some (.mark (.plural _)) => last.2
  | _ => last.1

/-- Replacing marks does not reach beyond the row, so a mark at its end that
stands nowhere before may as well be left out and added again. -/
theorem putAll_concat {value : Mark → Option (List Char)} {pieces : List Piece} {m : Mark}
    (hm : Piece.mark m ∉ pieces) :
    putAll value (pieces ++ [.mark m]) = putAll value pieces ++ [(value m).elim (.mark m) .words] := by
  have hlast : (pieces ++ [Piece.mark m]).idxOf (.mark m) = pieces.length := by
    rw [List.idxOf_append_of_notMem hm, List.idxOf_cons_self, Nat.add_zero]
  have hlength : (putAll value pieces).length = pieces.length := List.length_mapIdx
  apply List.ext_getElem?
  intro i
  rw [getElem?_putAll]
  rcases Nat.lt_trichotomy i pieces.length with hlt | rfl | hgt
  · rw [List.getElem?_append_left hlt, List.getElem?_append_left (hlength ▸ hlt), getElem?_putAll]
    cases hp : pieces[i]? with
    | none => rfl
    | some p =>
      cases p with
      | words text => rfl
      | mark m' => simp [List.idxOf_append_of_mem (List.mem_of_getElem? hp)]
  · rw [List.getElem?_concat_length, ← hlength, List.getElem?_concat_length, hlength]
    simp [hlast]
  · have hbeyond : pieces.length + 1 ≤ i := hgt
    rw [List.getElem?_eq_none (by simpa using hbeyond), List.getElem?_eq_none (by simpa [hlength] using hbeyond)]
    rfl

variable {before : List (List Char × List Char)}

/-- The marks of the other children, and of the attribute, do not depend on the
last child. -/
theorem textOf_concat {m : Mark} (hm : m ∉ [Mark.singular (before.length + 1), .plural (before.length + 1)])
    (last last' : List Char × List Char) :
    textOf 1 (before ++ [last]) chosen m = textOf 1 (before ++ [last']) chosen m := by
  have hother : ∀ k, k ≠ before.length + 1 → 1 ≤ k →
      (before ++ [last])[k - 1]? = (before ++ [last'])[k - 1]? := by
    intro k hk hpos
    rcases Nat.lt_or_ge (k - 1) before.length with hlt | hge
    · rw [List.getElem?_append_left hlt, List.getElem?_append_left hlt]
    · rw [List.getElem?_eq_none (by simp; omega), List.getElem?_eq_none (by simp; omega)]
  cases m with
  | choice => rfl
  | singular k | plural k =>
    by_cases hpos : k < 1
    · simp [textOf, hpos]
    · simp only [textOf, hpos, if_false]
      rw [hother k (fun heq => hm (by simp [heq])) (by omega)]

/-- A template that ends with a mark of the last child, and has no other mark of
it, ends with the text of this child. -/
theorem fill_concat {template : List Char} (hnumbered : SignsNumbered template)
    (hends : EndsWith template (before.length + 1)) (hlength : before.length < 9)
    (hbefore : ∀ t ∈ before, Plain t.1 ∧ Plain t.2) {last : List Char × List Char}
    (hlast : Plain last.1 ∧ Plain last.2) :
    fill (before ++ [last]) chosen template =
      fill (before ++ [([], [])]) chosen template ++ closing template last := by
  obtain ⟨⟨m, hm, hgetLast⟩, hnone⟩ := hends
  have hscan : scan template = (scan template).dropLast ++ [.mark m] :=
    (List.dropLast_append_getLast? _ hgetLast).symm
  have hplain : ∀ t : List Char × List Char, Plain t.1 ∧ Plain t.2 →
      ∀ t' ∈ before ++ [t], Plain t'.1 ∧ Plain t'.2 :=
    fun t ht => List.forall_mem_append.mpr ⟨hbefore, List.forall_mem_singleton.mpr ht⟩
  have hnine : ∀ t : List Char × List Char, (before ++ [t]).length ≤ 9 := by
    intro t
    rw [List.length_append, List.length_singleton]
    omega
  have hothers : putAll (textOf 1 (before ++ [last]) chosen) (scan template).dropLast =
      putAll (textOf 1 (before ++ [([], [])]) chosen) (scan template).dropLast :=
    putAll_congr fun m' hm' => textOf_concat (fun hmem => hnone m' hmem hm') _ _
  have hvalue : ∀ t : List Char × List Char, textOf 1 (before ++ [t]) chosen m = some (closing template t) := by
    intro t
    rw [closing, hgetLast]
    simp only [List.mem_cons, List.not_mem_nil, or_false] at hm
    rcases hm with rfl | rfl
    · simp [textOf]
    · simp [textOf]
  have hempty : closing template ([], []) = [] := by
    rw [closing]
    split <;> rfl
  rw [fill_eq_fillAtOnce hnumbered (hnine last) (hplain last hlast),
    fill_eq_fillAtOnce hnumbered (hnine _) (hplain ([], []) ⟨List.forall_mem_nil _, List.forall_mem_nil _⟩),
    fillAtOnce, fillAtOnce, hscan, putAll_concat (hnone m hm), putAll_concat (hnone m hm), hothers,
    hvalue, hvalue, hempty]
  simp [write, Piece.written]

end HiddenRule.Text
