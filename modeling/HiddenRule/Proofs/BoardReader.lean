import HiddenRule.Board.Text
import HiddenRule.Proofs.Building
import HiddenRule.Proofs.Tokens
import Mathlib.Data.List.Forall2

/-
  What the reader of board texts accepts, and what it reports otherwise. A text
  is cut into its maximal runs of characters that do not separate; each run names
  a cell content or has a fault, and the runs are looked at in three rounds: how
  many there are, then run by run from the left, and within a run its length
  before its two letters.

  What is proved:
    1. `readCell_eq_ok_iff`, `readCell_eq_error_iff`: a token is read as the
       content that it names, and refused with the fault that it has.
    2. `readCells_eq_error_iff`: of several tokens, the leftmost with a fault is
       reported.
    3. `board_read_from_runs`: both for whole texts; what stands between the
       runs has no part in it.
-/

namespace HiddenRule

theorem Color.ofCode?_eq_none_iff {c : Char} : ofCode? c = none ↔ c ∉ ['r', 'y', 'b'] := by
  simp [ofCode?, all, code, @eq_comm _ c]

theorem Color.code_mem (color : Color) : color.code ∈ ['r', 'y', 'b'] := by cases color <;> decide

theorem Shape.ofCode?_eq_none_iff {c : Char} : ofCode? c = none ↔ c ∉ ['C', 'T', 'S'] := by
  simp [ofCode?, all, code, @eq_comm _ c]

namespace Board

/-! ## Tokens -/

/-- Whether a token names a cell content: one of four tokens an empty cell, the
two letters of a symbol, color first, a cell that holds it. -/
inductive Names : (token : List Char) → (content : Option Symbol) → Prop
  | empty {token : List Char} : token ∈ [['.'], ['.', '.'], ['_'], ['-', '-']] → Names token none
  | symbol (color : Color) (shape : Shape) : Names [color.code, shape.code] (some ⟨color, shape⟩)

/-- The faults that a token is refused with. Its length is looked at before its
letters, and the first letter before the second. -/
inductive HasFault : (token : List Char) → (e : TextError) → Prop
  | malformedCell {token : List Char} : token ∉ [['.'], ['.', '.'], ['_'], ['-', '-']] → token.length ≠ 2 →
    HasFault token (.malformedCell (String.ofList token))
  | unknownColor {c s : Char} : [c, s] ∉ [['.'], ['.', '.'], ['_'], ['-', '-']] → c ∉ ['r', 'y', 'b'] →
    HasFault [c, s] (.unknownColor c)
  | unknownShape {c s : Char} : c ∈ ['r', 'y', 'b'] → s ∉ ['C', 'T', 'S'] → HasFault [c, s] (.unknownShape s)

/-- What reading two letters comes to. -/
theorem readCell_pair {c s : Char} (h : [c, s] ∉ emptyTokens) : readCell [c, s] =
    match Color.ofCode? c, Shape.ofCode? s with
    | none, _ => .error (.unknownColor c)
    | some _, none => .error (.unknownShape s)
    | some color, some shape => .ok (some ⟨color, shape⟩) := by
  rw [readCell, if_neg h]
  cases hc : Color.ofCode? c with
  | none => simp only [readColor, hc]; rfl
  | some color =>
    cases hs : Shape.ofCode? s with
    | none => simp only [readColor, hc, readShape, hs]; rfl
    | some shape => simp only [readColor, hc, readShape, hs]; rfl

theorem readCell_eq_malformedCell {token : List Char} (hempty : token ∉ emptyTokens) (hlength : token.length ≠ 2) :
    readCell token = .error (.malformedCell (String.ofList token)) := by
  unfold readCell
  rw [if_neg hempty]
  split
  · contradiction
  · rfl

/-- A token names the content that it is read as, or has the fault that it is
refused with. -/
theorem readCell_cases (token : List Char) : (∃ content, readCell token = .ok content ∧ Names token content) ∨
    ∃ e, readCell token = .error e ∧ HasFault token e := by
  by_cases hempty : token ∈ emptyTokens
  · exact .inl ⟨none, if_pos hempty, .empty hempty⟩
  · by_cases hlength : token.length = 2
    · obtain ⟨c, s, rfl⟩ := List.length_eq_two.mp hlength
      rw [readCell_pair hempty]
      cases hc : Color.ofCode? c with
      | none => exact .inr ⟨_, rfl, .unknownColor hempty (Color.ofCode?_eq_none_iff.mp hc)⟩
      | some color =>
        obtain rfl : color.code = c := by simpa using List.find?_some hc
        cases hs : Shape.ofCode? s with
        | none => exact .inr ⟨_, rfl, .unknownShape color.code_mem (Shape.ofCode?_eq_none_iff.mp hs)⟩
        | some shape =>
          obtain rfl : shape.code = s := by simpa using List.find?_some hs
          exact .inl ⟨_, rfl, .symbol color shape⟩
    · exact .inr ⟨_, readCell_eq_malformedCell hempty hlength, .malformedCell hempty hlength⟩

theorem readCell_of_names {token : List Char} {content : Option Symbol} (h : Names token content) :
    readCell token = .ok content := by
  cases h with
  | empty hempty => exact if_pos hempty
  | symbol color shape => cases color <;> cases shape <;> rfl

theorem readCell_of_hasFault {token : List Char} {e : TextError} (h : HasFault token e) :
    readCell token = .error e := by
  cases h with
  | malformedCell hempty hlength => exact readCell_eq_malformedCell hempty hlength
  | unknownColor hempty hc => rw [readCell_pair hempty, Color.ofCode?_eq_none_iff.mpr hc]
  | @unknownShape c s hc hs =>
    -- no token for an empty cell begins with the letter of a color
    have hempty : [c, s] ∉ emptyTokens := by
      simp only [emptyTokens, List.mem_cons, List.not_mem_nil, or_false] at hc ⊢
      rcases hc with rfl | rfl | rfl <;> simp
    obtain ⟨color, hcolor⟩ : ∃ color, Color.ofCode? c = some color :=
      Option.ne_none_iff_exists'.mp fun hnone => Color.ofCode?_eq_none_iff.mp hnone hc
    rw [readCell_pair hempty, hcolor, Shape.ofCode?_eq_none_iff.mpr hs]

/-- A token is read as the content that it names. -/
theorem readCell_eq_ok_iff {token : List Char} {content : Option Symbol} :
    readCell token = .ok content ↔ Names token content := by
  refine ⟨fun h => ?_, readCell_of_names⟩
  rcases readCell_cases token with ⟨other, hother, hnames⟩ | ⟨e, he, -⟩
  · rw [h] at hother
    exact Except.ok.inj hother ▸ hnames
  · rw [h] at he
    contradiction

/-- A token is refused with the fault that it has. -/
theorem readCell_eq_error_iff {token : List Char} {e : TextError} :
    readCell token = .error e ↔ HasFault token e := by
  refine ⟨fun h => ?_, readCell_of_hasFault⟩
  rcases readCell_cases token with ⟨content, hcontent, -⟩ | ⟨other, hother, hfault⟩
  · rw [h] at hcontent
    contradiction
  · rw [h] at hother
    exact Except.error.inj hother ▸ hfault

/-! ## Several tokens -/

theorem readCells_eq_ok_iff {tokens : List (List Char)} {contents : List (Option Symbol)} :
    readCells tokens = .ok contents ↔ List.Forall₂ Names tokens contents := by
  induction tokens generalizing contents with
  | nil => rw [readCells, List.forall₂_nil_left_iff, Except.ok.injEq, eq_comm]
  | cons token rest ih =>
    simp only [readCells, bind_eq_ok_iff, readCell_eq_ok_iff, ih, List.forall₂_cons_left_iff]
    refine ⟨?_, ?_⟩
    · rintro ⟨content, hcontent, others, hothers, h⟩
      exact ⟨content, others, hcontent, hothers, (Except.ok.inj h).symm⟩
    · rintro ⟨content, others, hcontent, hothers, rfl⟩
      exact ⟨content, hcontent, others, hothers, rfl⟩

/-- Whether an error is the fault of a token, and all tokens before it name
contents. -/
def FirstFault (tokens : List (List Char)) (e : TextError) : Prop := ∃ before token after,
  tokens = before ++ token :: after ∧ (∀ earlier ∈ before, ∃ content, Names earlier content) ∧
    HasFault token e

theorem firstFault_cons_iff {token : List Char} {rest : List (List Char)} {e : TextError} :
    FirstFault (token :: rest) e ↔ HasFault token e ∨ (∃ content, Names token content) ∧ FirstFault rest e := by
  refine ⟨?_, ?_⟩
  · rintro ⟨before, faulty, after, hsplit, hbefore, hfault⟩
    cases before with
    | nil =>
      obtain ⟨rfl, -⟩ := List.cons.inj hsplit
      exact .inl hfault
    | cons first before =>
      obtain ⟨rfl, rfl⟩ := List.cons.inj hsplit
      obtain ⟨hfirst, hbefore⟩ := List.forall_mem_cons.mp hbefore
      exact .inr ⟨hfirst, before, faulty, after, rfl, hbefore, hfault⟩
  · rintro (hfault | ⟨hnames, before, faulty, after, rfl, hbefore, hfault⟩)
    · exact ⟨[], token, rest, rfl, List.forall_mem_nil _, hfault⟩
    · exact ⟨token :: before, faulty, after, rfl, List.forall_mem_cons.mpr ⟨hnames, hbefore⟩, hfault⟩

/-- Of several tokens, the leftmost with a fault is reported. -/
theorem readCells_eq_error_iff {tokens : List (List Char)} {e : TextError} :
    readCells tokens = .error e ↔ FirstFault tokens e := by
  induction tokens with
  | nil => simp [readCells, FirstFault]
  | cons token rest ih =>
    rw [readCells, firstFault_cons_iff, bind_eq_error_iff, readCell_eq_error_iff, ← ih]
    refine or_congr_right ?_
    simp only [readCell_eq_ok_iff, bind_eq_error_iff]
    refine ⟨?_, ?_⟩
    · rintro ⟨content, hnames, hrest | ⟨_, -, h⟩⟩
      · exact ⟨⟨content, hnames⟩, hrest⟩
      · contradiction
    · rintro ⟨⟨content, hnames⟩, hrest⟩
      exact ⟨content, hnames, .inl hrest⟩

/-! ## Texts -/

theorem read_eq_ok_iff {text : String} {b : Board} : read text = .ok b ↔
    (Text.tokens separates text.toList).length = Cell.count ∧
      List.Forall₂ Names (Text.tokens separates text.toList) b.contents := by
  by_cases hcount : (Text.tokens separates text.toList).length = Cell.count
  · simp only [read, hcount, if_true, true_and]
    refine ⟨?_, ?_⟩
    · intro h
      cases hcells : readCells (Text.tokens separates text.toList) with
      | error e =>
        rw [hcells] at h
        contradiction
      | ok contents =>
        rw [hcells] at h
        obtain rfl : ofCells contents = b := Except.ok.inj h
        have hnames := readCells_eq_ok_iff.mp hcells
        rwa [contents_ofCells (hnames.length_eq ▸ hcount)]
    · intro hnames
      rw [readCells_eq_ok_iff.mpr hnames]
      exact congrArg Except.ok (ofCells_contents b)
  · simp [read, hcount]

theorem read_eq_error_iff {text : String} {e : TextError} : read text = .error e ↔
    ((Text.tokens separates text.toList).length ≠ Cell.count ∧
      e = .cellCount (Text.tokens separates text.toList).length) ∨
    ((Text.tokens separates text.toList).length = Cell.count ∧
      FirstFault (Text.tokens separates text.toList) e) := by
  by_cases hcount : (Text.tokens separates text.toList).length = Cell.count
  · simp only [read, hcount, if_true, ne_eq, not_true, false_and, false_or, true_and,
      ← readCells_eq_error_iff]
    cases readCells (Text.tokens separates text.toList) with
    | ok contents => simp [Except.map]
    | error other => simp [Except.map]
  · simp [read, hcount, eq_comm]

/-- What stands between the tokens of a text has no part in what it is read as. -/
theorem read_congr {text other : String}
    (h : Text.tokens separates text.toList = Text.tokens separates other.toList) : read text = read other := by
  simp only [read, h]

/-- **A board is read from the runs of a text.** A text has one list of maximal
runs of characters that do not separate. It is read as a board exactly if there
are nine, and each names what the board has in its cell. It is refused for the
number of its runs if this is not nine, else for the fault of the leftmost run
that names nothing. Separators between runs can be changed for others, and added
at both ends. -/
theorem board_read_from_runs (text : String) : ∃ words,
    (∀ others, Text.Runs separates text.toList others ↔ others = words) ∧
    (∀ b, read text = .ok b ↔ words.length = Cell.count ∧ List.Forall₂ Names words b.contents) ∧
    (∀ e, read text = .error e ↔
      (words.length ≠ Cell.count ∧ e = .cellCount words.length) ∨
        (words.length = Cell.count ∧ FirstFault words e)) ∧
    (∀ before gap gap' after, text.toList = before ++ gap ++ after → gap ≠ [] → gap' ≠ [] →
      (∀ c ∈ gap, separates c = true) → (∀ c ∈ gap', separates c = true) →
      read text = read (String.ofList (before ++ gap' ++ after))) ∧
    (∀ before after, (∀ c ∈ before, separates c = true) → (∀ c ∈ after, separates c = true) →
      read text = read (String.ofList (before ++ text.toList ++ after))) := by
  refine ⟨Text.tokens separates text.toList, fun _ => Text.runs_iff, fun _ => read_eq_ok_iff,
    fun _ => read_eq_error_iff, ?_, ?_⟩
  · intro before gap gap' after htext hne hne' hgap hgap'
    apply read_congr
    rw [String.toList_ofList, htext, Text.cuts_of_separates hne hgap, Text.cuts_of_separates hne' hgap',
      Text.tokens_eq_nil hgap, Text.tokens_eq_nil hgap']
  · intro before after hbefore hafter
    apply read_congr
    rw [String.toList_ofList, List.append_assoc, Text.tokens_gap_append hbefore, Text.tokens_append_gap hafter]

/-- Two faults among nine tokens: the one further to the left is reported, whatever
blanks, commas and bars stand between the tokens. -/
theorem leftmost_fault_reported :
    read "rC,gT rCS . . . . . ." = .error (.unknownColor 'g') ∧
      read "rC |\u3000gT rCS . . . . . ." = .error (.unknownColor 'g') ∧
      read "|rC,gT rCS . . . . . .\n" = .error (.unknownColor 'g') := by
  obtain ⟨words, hruns, -, herror, hreplace, hpad⟩ := board_read_from_runs "rC,gT rCS . . . . . ."
  obtain rfl := (hruns _).mp (Text.runs_iff.mpr rfl)
  have hread : read "rC,gT rCS . . . . . ." = .error (.unknownColor 'g') := by
    refine (herror _).mpr (.inr ⟨rfl, [['r', 'C']], ['g', 'T'], _, rfl, ?_, .unknownColor (by decide) (by decide)⟩)
    intro earlier hearlier
    obtain rfl := List.mem_singleton.mp hearlier
    exact ⟨_, .symbol .red .circle⟩
  refine ⟨hread, ?_, ?_⟩
  · rw [← hread]
    exact (hreplace ['r', 'C'] [','] [' ', '|', '\u3000'] "gT rCS . . . . . .".toList rfl (by decide) (by decide)
      (List.all_eq_true.mp rfl) (List.all_eq_true.mp rfl)).symm
  · rw [← hread]
    exact (hpad ['|'] ['\n'] (List.all_eq_true.mp rfl) (List.all_eq_true.mp rfl)).symm

end Board

end HiddenRule
