import HiddenRule.Board.Text
import HiddenRule.Proofs.Tokens

/-
  Compact forms. The writer puts a separator after every cell but the last, a
  blank within a row and a line break between rows; the reader looks for tokens
  and knows nothing of rows. The nine codes are tokens, and each of them names
  the cell it was written for.

  What is proved:
    1. `tokens_layout`: the tokens of a board laid out in rows.
    2. `tokens_compactChars`: the tokens of a compact form are the codes of the
       nine cells.
    3. `compact_form_canonical`: a board is read back from its compact form, and
       the texts of one board, and of no other, lead to one compact form.
-/

namespace HiddenRule.Board

/-- The code of a cell: its letters, or a dot. -/
def codeChars (content : Option Symbol) : List Char := (content.map Symbol.letters).getD ['.']

/-! ## Tokens of boards -/

/-- The tokens of a board laid out in rows. -/
theorem tokens_layout {separates : Char → Bool} {between rowBreak : List Char}
    (hbetween : Text.Cuts separates between) (hrowBreak : Text.Cuts separates rowBreak)
    (written : Option Symbol → List Char) (b : Board) :
    Text.tokens separates (layout written between rowBreak b) =
      (Text.tokens separates rowBreak).intercalate (Cell.lines.map fun r =>
        (Text.tokens separates between).intercalate
          ((Cell.inRow r).map fun i => Text.tokens separates (written (b.get i)))) := by
  simp only [layout, hrowBreak.tokens_intercalate, hbetween.tokens_intercalate, List.map_map,
    Function.comp_def]

/-- A code is one token. -/
theorem tokens_codeChars (content : Option Symbol) :
    Text.tokens separates (codeChars content) = [codeChars content] := by
  have hne : codeChars content ≠ [] := by cases content <;> exact List.cons_ne_nil _ _
  have hcode : (codeChars content).any separates = false := by
    obtain _ | ⟨c, s⟩ := content
    · rfl
    · cases c <;> cases s <;> rfl
  exact Text.tokens_eq_singleton hne fun c hc => Bool.eq_false_iff.mpr (List.any_eq_false.mp hcode c hc)

/-- The tokens of a compact form are the codes of the nine cells, in order. -/
theorem tokens_compactChars (b : Board) :
    Text.tokens separates b.compactChars = b.contents.map codeChars := by
  have hblank : Text.Cuts separates [' '] := Text.cuts_singleton (by decide)
  have hbreak : Text.Cuts separates ['\n'] := Text.cuts_singleton (by decide)
  calc Text.tokens separates b.compactChars
      = (Text.tokens separates ['\n']).intercalate (Cell.lines.map fun r =>
          (Text.tokens separates [' ']).intercalate
            ((Cell.inRow r).map fun i => Text.tokens separates (codeChars (b.get i)))) :=
        tokens_layout hblank hbreak codeChars b
    _ = b.contents.map codeChars := by
        simp only [tokens_codeChars]
        rfl

/-! ## Reading back -/

/-- A code names the cell it was written for. -/
theorem readCell_codeChars (content : Option Symbol) : readCell (codeChars content) = .ok content := by
  obtain _ | ⟨c, s⟩ := content
  · rfl
  · cases c <;> cases s <;> rfl

theorem readCells_map_codeChars (contents : List (Option Symbol)) :
    readCells (contents.map codeChars) = .ok contents := by
  induction contents with
  | nil => rfl
  | cons content rest ih =>
    rw [List.map_cons, readCells, readCell_codeChars, ih]
    rfl

/-- A board is read back from its compact form. -/
theorem read_compact (b : Board) : read b.compact = .ok b := by
  have htokens : Text.tokens separates b.compact.toList = b.contents.map codeChars := by
    rw [compact, String.toList_ofList, tokens_compactChars]
  have hlength : (b.contents.map codeChars).length = Cell.count := by simp [contents, Cell.all]
  simp only [read, htokens, hlength, if_true, readCells_map_codeChars]
  exact congrArg Except.ok (ofCells_contents b)

theorem compact_injective : Function.Injective compact := by
  intro b b' h
  have hread : read b.compact = read b'.compact := congrArg read h
  rw [read_compact, read_compact] at hread
  exact Except.ok.inj hread

/-- The compact form of the board that a text names. -/
def canonical (text : String) : Except TextError String := (read text).map compact

/-- **A text for a board leads to the one compact form of that board.** Every
board is read back from its compact form. A text that is read as a board has the
compact form of this board, which is read as the same board and has itself as
its compact form. And the compact forms of two such texts, or of two boards, are
the same exactly if the boards are. -/
theorem compact_form_canonical :
    (∀ b : Board, read b.compact = .ok b) ∧
      (∀ text b, read text = .ok b → canonical text = .ok b.compact ∧ read b.compact = read text ∧
        canonical b.compact = .ok b.compact) ∧
      (∀ text other b b', read text = .ok b → read other = .ok b' →
        (canonical text = canonical other ↔ b = b')) ∧
      Function.Injective compact := by
  refine ⟨read_compact, ?_, ?_, compact_injective⟩
  · intro text b h
    refine ⟨?_, ?_, ?_⟩
    · rw [canonical, h]
      rfl
    · rw [read_compact, h]
    · rw [canonical, read_compact]
      rfl
  · intro text other b b' h h'
    rw [canonical, canonical, h, h']
    refine ⟨?_, ?_⟩
    · intro heq
      exact compact_injective (Except.ok.inj heq)
    · intro heq
      rw [heq]

/-- Commas, bars, line breaks and all four ways to write an empty cell: the text
has the compact form of the board it is read as, as has a plainer one. -/
theorem mixed_text_canonical :
    canonical "|rC,--|.. \n_,yT , .|.|.|\tbS|" = .ok "rC . .\n. yT .\n. . bS" ∧
      read "rC . .\n. yT .\n. . bS" = read "|rC,--|.. \n_,yT , .|.|.|\tbS|" ∧
      canonical "|rC,--|.. \n_,yT , .|.|.|\tbS|" = canonical "rC _ _ _ yT _ _ _ bS" := by
  have hmixed : read "|rC,--|.. \n_,yT , .|.|.|\tbS|" =
      .ok (ofCells [some ⟨.red, .circle⟩, none, none, none, some ⟨.yellow, .triangle⟩, none, none, none,
        some ⟨.blue, .square⟩]) := rfl
  have hplain : read "rC _ _ _ yT _ _ _ bS" =
      .ok (ofCells [some ⟨.red, .circle⟩, none, none, none, some ⟨.yellow, .triangle⟩, none, none, none,
        some ⟨.blue, .square⟩]) := rfl
  obtain ⟨-, haccepted, hsame, -⟩ := compact_form_canonical
  obtain ⟨hcanonical, hread, -⟩ := haccepted _ _ hmixed
  exact ⟨hcanonical, hread, (hsame _ _ _ _ hmixed hplain).mpr rfl⟩

end HiddenRule.Board
