import HiddenRule.Text.Template
import Mathlib.Data.List.Basic

/-
  Templates piece by piece. A template is a row of pieces, words or marks, and
  filling it in replaces one mark after the other, each at its first occurrence
  in a text that has changed in the meantime. As long as the texts put in are
  words and the marks are those of the first nine children, no replacement
  makes or breaks another mark: it changes the one piece that it is about.

  What is proved:
    1. `replaceFirst_write`: replacing a mark changes the first piece that is
       this mark.
    2. `foldl_replaceFirst_write`: replacing marks one after the other changes
       one piece at a time.
    3. `complete_fill_write`: where every mark gets a text, nothing is left to
       replace.
-/

namespace HiddenRule.Text

/-- Whether a character begins a mark. -/
def opens (c : Char) : Bool := c == '%' || c == '$' || c == '@'

/-- A text in which no mark begins. -/
def Plain (text : List Char) : Prop := ∀ c ∈ text, opens c = false

instance (text : List Char) : Decidable (Plain text) := List.decidableBAll (fun c => opens c = false) text

/-- A text with something in it, and nothing left to replace. -/
def Complete (text : List Char) : Prop := text ≠ [] ∧ Plain text

instance (text : List Char) : Decidable (Complete text) := inferInstanceAs (Decidable (_ ∧ _))

inductive Mark where
  | singular (k : Nat)
  | plural (k : Nat)
  | choice
  deriving DecidableEq

/-- A mark as it stands in a template. -/
def Mark.written : Mark → List Char
  | singular k => singularMark k
  | plural k => pluralMark k
  | choice => attributeMark

/-- A mark with at most one digit, so that no other mark begins with it. -/
def Mark.IsShort : Mark → Prop
  | singular k => k < 10
  | plural k => k < 10
  | choice => True

instance : DecidablePred Mark.IsShort
  | .singular k => inferInstanceAs (Decidable (k < 10))
  | .plural k => inferInstanceAs (Decidable (k < 10))
  | .choice => inferInstanceAs (Decidable True)

/-- A piece of a template. -/
inductive Piece where
  | words (text : List Char)
  | mark (m : Mark)
  deriving DecidableEq

namespace Piece

def written : Piece → List Char
  | words text => text
  | mark m => m.written

def mark? : Piece → Option Mark
  | words _ => none
  | mark m => some m

/-- A piece that stays apart from those beside it. -/
def Sound : Piece → Prop
  | words text => Complete text
  | mark m => m.IsShort

instance : DecidablePred Sound := fun p => by
  cases p <;> unfold Sound <;> infer_instance

/-- A piece that no replacement of another makes or breaks. Unlike a sound one,
it may be of no words. -/
def Steady : Piece → Prop
  | words text => Plain text
  | mark m => m.IsShort

theorem Sound.steady {p : Piece} (h : p.Sound) : p.Steady := by
  cases p with
  | words text => exact h.2
  | mark m => exact h

end Piece

def write (pieces : List Piece) : List Char := pieces.flatMap Piece.written

def marks (pieces : List Piece) : List Mark := pieces.filterMap Piece.mark?

/-- The row with words in the place of the first piece that is a mark. -/
def put (m : Mark) (new : List Char) : List Piece → List Piece
  | [] => []
  | p :: rest => if p = .mark m then .words new :: rest else p :: put m new rest

/-- The replacements that fill in a template: the texts of each child, numbered
from `k` on. -/
def childSteps : (k : Nat) → (texts : List (List Char × List Char)) → List (Mark × List Char)
  | _, [] => []
  | k, (singular, plural) :: rest =>
    (.singular k, singular) :: (.plural k, plural) :: childSteps (k + 1) rest

/-- The replacements that fill in a template, the attribute's last. -/
def steps (texts : List (List Char × List Char)) (chosen : Option (List Char)) : List (Mark × List Char) :=
  childSteps 1 texts ++ (chosen.map fun text => (Mark.choice, text)).toList

/-! ## Replacing one mark -/

theorem replaceFirst_append_of_not_mem {first : Char} {others new before rest : List Char}
    (h : first ∉ before) :
    replaceFirst (first :: others) new (before ++ rest) =
      before ++ replaceFirst (first :: others) new rest := by
  induction before with
  | nil => rfl
  | cons c before ih =>
    simp only [List.mem_cons, not_or] at h
    have hmiss : (first :: others).isPrefixOf (c :: (before ++ rest)) = false := by
      simp [List.isPrefixOf, h.1]
    rw [List.cons_append, replaceFirst, hmiss, ih h.2]
    rfl

theorem replaceFirst_self_append {first : Char} {others new rest : List Char} :
    replaceFirst (first :: others) new (first :: others ++ rest) = new ++ rest := by
  have hhit : (first :: others).isPrefixOf (first :: others ++ rest) = true := by
    rw [List.isPrefixOf_iff_prefix]
    exact List.prefix_append _ _
  rw [List.cons_append, replaceFirst, ← List.cons_append, hhit, if_pos rfl, List.drop_left]

theorem not_mem_of_plain {first : Char} {text : List Char} (hfirst : opens first = true) (h : Plain text) :
    first ∉ text := by
  intro hmem
  rw [h first hmem] at hfirst
  contradiction

theorem digits_of_lt {k : Nat} (h : k < 10) :
    Nat.toDigits 10 k = [Nat.digitChar k] ∧ opens (Nat.digitChar k) = false := by
  have htable : ∀ k < 10, Nat.toDigits 10 k = [Nat.digitChar k] ∧ opens (Nat.digitChar k) = false := by decide
  exact htable k h

theorem digitChar_ne {k l : Nat} (hk : k < 10) (hl : l < 10) (hne : k ≠ l) :
    Nat.digitChar k ≠ Nat.digitChar l := by
  have htable : ∀ k < 10, ∀ l < 10, k ≠ l → Nat.digitChar k ≠ Nat.digitChar l := by decide
  exact htable k hk l hl hne

/-- A short mark is a character that begins one, and at most one that does not. -/
theorem Mark.IsShort.exists_written_eq {m : Mark} (h : m.IsShort) :
    ∃ first others, m.written = first :: others ∧ opens first = true ∧ Plain others := by
  have hdigits : ∀ k < 10, Plain (Nat.toDigits 10 k) := by decide
  cases m with
  | singular k => exact ⟨'%', Nat.toDigits 10 k, rfl, rfl, hdigits k h⟩
  | plural k => exact ⟨'$', Nat.toDigits 10 k, rfl, rfl, hdigits k h⟩
  | choice => exact ⟨'@', [], rfl, rfl, by decide⟩

/-- Of two short marks, neither begins with the other. -/
theorem isPrefixOf_written_eq_false {m m' : Mark} (h : m.IsShort) (h' : m'.IsShort) (hne : m ≠ m')
    (rest : List Char) : m.written.isPrefixOf (m'.written ++ rest) = false := by
  cases m with
  | singular k =>
    cases m' with
    | singular l =>
      have hkl := digitChar_ne h h' fun heq => hne (heq ▸ rfl)
      simp [Mark.written, singularMark, digits_of_lt h, digits_of_lt h', List.isPrefixOf, hkl]
    | plural l => rfl
    | choice => rfl
  | plural k =>
    cases m' with
    | singular l => rfl
    | plural l =>
      have hkl := digitChar_ne h h' fun heq => hne (heq ▸ rfl)
      simp [Mark.written, pluralMark, digits_of_lt h, digits_of_lt h', List.isPrefixOf, hkl]
    | choice => rfl
  | choice =>
    cases m' with
    | singular l => rfl
    | plural l => rfl
    | choice => exact absurd rfl hne

/-- A mark is skipped on the way to another one. -/
theorem replaceFirst_written_append {m m' : Mark} {new rest : List Char} (h : m.IsShort) (h' : m'.IsShort)
    (hne : m ≠ m') :
    replaceFirst m.written new (m'.written ++ rest) = m'.written ++ replaceFirst m.written new rest := by
  obtain ⟨first, others, hwritten, hfirst, -⟩ := h.exists_written_eq
  obtain ⟨first', others', hwritten', -, hothers'⟩ := h'.exists_written_eq
  have hmiss := isPrefixOf_written_eq_false h h' hne rest
  rw [hwritten', List.cons_append] at hmiss ⊢
  rw [replaceFirst, hmiss, hwritten, replaceFirst_append_of_not_mem (not_mem_of_plain hfirst hothers')]
  rfl

/-- Replacing a mark changes the first piece that is this mark. -/
theorem replaceFirst_write {m : Mark} {new : List Char} (hm : m.IsShort) : ∀ {pieces : List Piece},
    (∀ p ∈ pieces, p.Steady) → replaceFirst m.written new (write pieces) = write (put m new pieces)
  | [], _ => rfl
  | p :: rest, hsteady => by
    obtain ⟨first, others, hwritten, hfirst, -⟩ := hm.exists_written_eq
    have hp := hsteady p List.mem_cons_self
    have ih : replaceFirst m.written new (write rest) = write (put m new rest) :=
      replaceFirst_write hm fun q hq => hsteady q (List.mem_cons_of_mem p hq)
    have hhead : ∀ q : Piece, ∀ row, write (q :: row) = q.written ++ write row := fun _ _ => rfl
    rw [hhead, put]
    cases p with
    | words text =>
      rw [if_neg (by simp), hhead, ← ih, hwritten]
      exact replaceFirst_append_of_not_mem (not_mem_of_plain hfirst hp)
    | mark m' =>
      by_cases heq : m' = m
      · rw [heq, if_pos rfl, hhead]
        show replaceFirst m.written new (m.written ++ write rest) = new ++ write rest
        rw [hwritten]
        exact replaceFirst_self_append
      · rw [if_neg (by simpa using heq), hhead, ← ih]
        exact replaceFirst_written_append hm hp (Ne.symm heq)

/-! ## Replacing all marks -/

theorem marks_put (m : Mark) (new : List Char) : ∀ pieces : List Piece,
    marks (put m new pieces) = (marks pieces).erase m
  | [] => rfl
  | .words text :: rest => by
    rw [put, if_neg (by simp)]
    exact marks_put m new rest
  | .mark m' :: rest => by
    have hhead : marks (.mark m' :: rest) = m' :: marks rest := rfl
    rw [put, hhead]
    by_cases heq : m' = m
    · rw [if_pos (by rw [heq]), heq, List.erase_cons_head]
      rfl
    · rw [if_neg (by simpa using heq), List.erase_cons_tail (by simpa using heq), ← marks_put m new rest]
      rfl

/-- What holds of the new words and of all pieces holds of them afterwards. -/
theorem forall_mem_put {P : Piece → Prop} {m : Mark} {new : List Char} {pieces : List Piece}
    (hnew : P (.words new)) (hpieces : ∀ p ∈ pieces, P p) : ∀ p ∈ put m new pieces, P p := by
  induction pieces with
  | nil => exact hpieces
  | cons q rest ih =>
    simp only [List.forall_mem_cons] at hpieces
    rw [put]
    split
    · exact List.forall_mem_cons.mpr ⟨hnew, hpieces.2⟩
    · exact List.forall_mem_cons.mpr ⟨hpieces.1, ih hpieces.2⟩

theorem put_ne_nil {m : Mark} {new : List Char} {pieces : List Piece} (h : pieces ≠ []) :
    put m new pieces ≠ [] := by
  cases pieces with
  | nil => exact absurd rfl h
  | cons p rest =>
    rw [put]
    split <;> simp

theorem fillChildren_eq_foldl : ∀ (k : Nat) (texts : List (List Char × List Char)) (template : List Char),
    fillChildren k texts template =
      (childSteps k texts).foldl (fun text step => replaceFirst step.1.written step.2 text) template
  | _, [], _ => rfl
  | k, _ :: rest, _ => fillChildren_eq_foldl (k + 1) rest _

theorem fill_eq_foldl (texts : List (List Char × List Char)) (chosen : Option (List Char))
    (template : List Char) :
    fill texts chosen template =
      (steps texts chosen).foldl (fun text step => replaceFirst step.1.written step.2 text) template := by
  rw [fill, steps, List.foldl_append, ← fillChildren_eq_foldl]
  cases chosen <;> rfl

/-- One mark after the other is replaced in a row of pieces. -/
theorem foldl_replaceFirst_write : ∀ (steps : List (Mark × List Char)) {pieces : List Piece},
    (∀ step ∈ steps, step.1.IsShort ∧ Plain step.2) → (∀ p ∈ pieces, p.Steady) →
    steps.foldl (fun text step => replaceFirst step.1.written step.2 text) (write pieces) =
      write (steps.foldl (fun row step => put step.1 step.2 row) pieces)
  | [], _, _, _ => rfl
  | step :: rest, pieces, hsteps, hsteady => by
    obtain ⟨⟨hshort, hplain⟩, hrest⟩ := List.forall_mem_cons.mp hsteps
    rw [List.foldl_cons, List.foldl_cons, replaceFirst_write hshort hsteady]
    exact foldl_replaceFirst_write rest hrest (forall_mem_put hplain hsteady)

/-- What replacing all marks leaves: as many pieces, none of them broken, and of
the marks those that were not replaced. -/
theorem foldl_put : ∀ (steps : List (Mark × List Char)) {pieces : List Piece},
    (∀ step ∈ steps, Complete step.2) → pieces ≠ [] → (∀ p ∈ pieces, p.Sound) →
    steps.foldl (fun row step => put step.1 step.2 row) pieces ≠ [] ∧
      (∀ p ∈ steps.foldl (fun row step => put step.1 step.2 row) pieces, p.Sound) ∧
      marks (steps.foldl (fun row step => put step.1 step.2 row) pieces) =
        (marks pieces).diff (steps.map Prod.fst)
  | [], pieces, _, hne, hsound => ⟨hne, hsound, (List.diff_nil _).symm⟩
  | step :: rest, pieces, hsteps, hne, hsound => by
    obtain ⟨hcomplete, hrest⟩ := List.forall_mem_cons.mp hsteps
    rw [List.map_cons, List.diff_cons, ← marks_put step.1 step.2]
    exact foldl_put rest hrest (put_ne_nil hne) (forall_mem_put hcomplete hsound)

/-- A row of pieces without marks is complete. -/
theorem complete_write {pieces : List Piece} (hne : pieces ≠ []) (hsound : ∀ p ∈ pieces, p.Sound)
    (hmarks : marks pieces = []) : Complete (write pieces) := by
  have hwords : ∀ p ∈ pieces, Complete p.written := by
    intro p hp
    cases p with
    | words text => exact hsound _ hp
    | mark m =>
      have hmem : m ∈ marks pieces := List.mem_filterMap.mpr ⟨.mark m, hp, rfl⟩
      rw [hmarks] at hmem
      exact absurd hmem List.not_mem_nil
  obtain ⟨p, hp⟩ := List.exists_mem_of_ne_nil pieces hne
  refine ⟨?_, ?_⟩
  · intro hnil
    exact (hwords p hp).1 (List.flatMap_eq_nil_iff.mp hnil p hp)
  · intro c hc
    obtain ⟨q, hq, hcq⟩ := List.mem_flatMap.mp hc
    exact (hwords q hq).2 c hcq

/-! ## Filling in -/

/-- The marks that get a text where there are so many children, and an
attribute or none. -/
def answered (children : Nat) (hasChoice : Bool) : List Mark :=
  ((List.range' 1 children).flatMap fun k => [.singular k, .plural k]) ++
    if hasChoice then [.choice] else []

theorem map_fst_childSteps : ∀ (k : Nat) (texts : List (List Char × List Char)),
    (childSteps k texts).map Prod.fst =
      (List.range' k texts.length).flatMap fun k => [.singular k, .plural k]
  | _, [] => rfl
  | k, _ :: rest => by
    rw [List.length_cons, List.range'_succ, List.flatMap_cons, ← map_fst_childSteps (k + 1) rest]
    rfl

theorem map_fst_steps (texts : List (List Char × List Char)) (chosen : Option (List Char)) :
    (steps texts chosen).map Prod.fst = answered texts.length chosen.isSome := by
  rw [steps, List.map_append, map_fst_childSteps, answered]
  cases chosen <;> rfl

/-- The marks that are replaced are those of the children, and the texts are the
children's. -/
theorem of_mem_childSteps {M : Mark → Prop} {P : List Char → Prop} :
    ∀ (k : Nat) (texts : List (List Char × List Char)),
    (∀ j < k + texts.length, M (.singular j) ∧ M (.plural j)) → (∀ t ∈ texts, P t.1 ∧ P t.2) →
    ∀ step ∈ childSteps k texts, M step.1 ∧ P step.2
  | _, [], _, _ => fun _ h => absurd h List.not_mem_nil
  | k, (singular, plural) :: rest, hmarks, htexts => by
    obtain ⟨⟨hsingular, hplural⟩, hrest⟩ := List.forall_mem_cons.mp htexts
    rw [List.length_cons] at hmarks
    obtain ⟨hone, hmany⟩ := hmarks k (by omega)
    have ih := of_mem_childSteps (k + 1) rest (fun j hj => hmarks j (by omega)) hrest
    exact List.forall_mem_cons.mpr ⟨⟨hone, hsingular⟩, List.forall_mem_cons.mpr ⟨⟨hmany, hplural⟩, ih⟩⟩

/-- The marks of fewer than ten children are short. -/
theorem isShort_of_lt {n : Nat} (hn : n < 10) :
    ∀ j < 1 + n, Mark.IsShort (.singular j) ∧ Mark.IsShort (.plural j) := by
  intro j hj
  have hshort : j < 10 := by omega
  exact ⟨hshort, hshort⟩

/-- A template whose marks all get a text is filled in without a mark left. -/
theorem complete_fill_write {texts : List (List Char × List Char)} {chosen : Option (List Char)}
    {pieces : List Piece} (hne : pieces ≠ []) (hsound : ∀ p ∈ pieces, p.Sound)
    (hlength : texts.length < 10) (htexts : ∀ t ∈ texts, Complete t.1 ∧ Complete t.2)
    (hchosen : ∀ text ∈ chosen, Complete text)
    (hmarks : (marks pieces).diff (answered texts.length chosen.isSome) = []) :
    Complete (fill texts chosen (write pieces)) := by
  have hsteps : ∀ step ∈ steps texts chosen, step.1.IsShort ∧ Complete step.2 := by
    intro step hstep
    rcases List.mem_append.mp hstep with hchild | hattribute
    · exact of_mem_childSteps 1 texts (isShort_of_lt hlength) htexts step hchild
    · rw [Option.mem_toList, Option.map_eq_some_iff] at hattribute
      obtain ⟨text, htext, rfl⟩ := hattribute
      exact ⟨trivial, hchosen text htext⟩
  have hplain : ∀ step ∈ steps texts chosen, step.1.IsShort ∧ Plain step.2 :=
    fun step hstep => ⟨(hsteps step hstep).1, (hsteps step hstep).2.2⟩
  rw [fill_eq_foldl, foldl_replaceFirst_write _ hplain fun p hp => (hsound p hp).steady]
  obtain ⟨hleft, hunbroken, hreplaced⟩ := foldl_put _ (fun step h => (hsteps step h).2) hne hsound
  rw [map_fst_steps, hmarks] at hreplaced
  exact complete_write hleft hunbroken hreplaced

/-! ## Reading a template -/

def isDigit (c : Char) : Prop := '0'.toNat ≤ c.toNat ∧ c.toNat ≤ '9'.toNat

instance : DecidablePred isDigit := fun _ => inferInstanceAs (Decidable (_ ∧ _))

def digit (c : Char) : Nat := c.toNat - '0'.toNat

/-- The pieces of a template whose marks have one digit each. A sign without a
digit is taken for a word, and is not a sound one. -/
def scan : List Char → List Piece
  | [] => []
  | [c] => [if c = '@' then .mark .choice else .words [c]]
  | c :: d :: rest =>
    if c = '@' then .mark .choice :: scan (d :: rest)
    else if c = '%' ∧ isDigit d then .mark (.singular (digit d)) :: scan rest
    else if c = '$' ∧ isDigit d then .mark (.plural (digit d)) :: scan rest
    else .words [c] :: scan (d :: rest)

theorem toDigits_digit {c : Char} (h : isDigit c) : Nat.toDigits 10 (digit c) = [c] := by
  obtain ⟨hlo, hhi⟩ := h
  have h0 : '0'.toNat = 48 := rfl
  have h9 : '9'.toNat = 57 := rfl
  rw [h0] at hlo
  rw [h9] at hhi
  have hlt : digit c < 10 := by
    unfold digit
    omega
  have hchar : Nat.digitChar (digit c) = c := by
    apply Char.toNat_inj.mp
    rw [Nat.toNat_digitChar_of_lt_ten hlt, digit]
    omega
  rw [(digits_of_lt hlt).1, hchar]

/-- What is read is written back. -/
theorem write_scan (template : List Char) : write (scan template) = template := by
  have hhead : ∀ p : Piece, ∀ row, write (p :: row) = p.written ++ write row := fun _ _ => rfl
  fun_induction scan template with
  | case1 => rfl
  | case2 c =>
    split
    · next h => rw [h]; rfl
    · rfl
  | case3 d rest ih => rw [hhead, ih]; rfl
  | case4 c d rest _ h ih =>
    rw [hhead, ih, h.1]
    show '%' :: Nat.toDigits 10 (digit d) ++ rest = _
    rw [toDigits_digit h.2]
    rfl
  | case5 c d rest _ _ h ih =>
    rw [hhead, ih, h.1]
    show '$' :: Nat.toDigits 10 (digit d) ++ rest = _
    rw [toDigits_digit h.2]
    rfl
  | case6 c d rest _ _ _ ih => rw [hhead, ih]; rfl

/-- A template of sound pieces whose marks all get a text, where there are so
many children, and an attribute or none. -/
structure Fits (template : List Char) (children : Nat) (hasChoice : Bool) : Prop where
  ne_nil : template ≠ []
  sound : ∀ p ∈ scan template, p.Sound
  marked : (marks (scan template)).diff (answered children hasChoice) = []

instance (template : List Char) (children : Nat) (hasChoice : Bool) :
    Decidable (Fits template children hasChoice) :=
  decidable_of_iff (template ≠ [] ∧ (∀ p ∈ scan template, p.Sound) ∧
      (marks (scan template)).diff (answered children hasChoice) = [])
    ⟨fun h => ⟨h.1, h.2.1, h.2.2⟩, fun h => ⟨h.ne_nil, h.sound, h.marked⟩⟩

theorem Fits.complete_fill {template : List Char} {texts : List (List Char × List Char)}
    {chosen : Option (List Char)} (h : Fits template texts.length chosen.isSome)
    (hlength : texts.length < 10) (htexts : ∀ t ∈ texts, Complete t.1 ∧ Complete t.2)
    (hchosen : ∀ text ∈ chosen, Complete text) : Complete (fill texts chosen template) := by
  have hne : scan template ≠ [] := by
    intro hnil
    have hwritten := write_scan template
    rw [hnil] at hwritten
    exact h.ne_nil hwritten.symm
  have hfill := complete_fill_write hne h.sound hlength htexts hchosen h.marked
  rwa [write_scan] at hfill

end HiddenRule.Text
