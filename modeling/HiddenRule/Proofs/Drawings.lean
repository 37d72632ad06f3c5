import HiddenRule.Proofs.BoardReader
import HiddenRule.Proofs.CompactForms

/-
  Drawings. A drawing has two characters for every cell, so it can be told apart
  from every other one; but the reader does not read it. Bars and blanks separate
  tokens, so an empty cell leaves no token, while the two lines drawn between the
  rows leave one each. That is two tokens more than there are symbols: nine of
  them for seven symbols, and then the first line is a token that names nothing.

  What is proved:
    1. `tokens_drawingChars`: the tokens of a drawing are the codes of its symbols,
       with the two lines between those of the rows.
    2. `layout_injective`: boards laid out in cells of one width differ where the
       boards do.
    3. `drawings_never_read`: no drawing is read as a board, what is reported
       instead, and that a drawing has one board.
-/

namespace HiddenRule.Board

/-! ## Tokens of drawings -/

/-- The two characters drawn for a cell. -/
def drawnChars (content : Option Symbol) : List Char := (content.map Symbol.letters).getD [' ', ' ']

/-- The line drawn between two rows. -/
def lineChars : List Char := "--+--+--".toList

/-- The codes of the symbols in a row. -/
def rowCodes (b : Board) (r : Nat) : List (List Char) :=
  (Cell.inRow r).filterMap fun i => (b.get i).map Symbol.letters

/-- A symbol is drawn as one token, an empty cell as none. -/
theorem tokens_drawnChars (content : Option Symbol) :
    Text.tokens separates (drawnChars content) = (content.map Symbol.letters).toList := by
  cases content with
  | none => rfl
  | some s => exact tokens_codeChars (some s)

theorem cuts_line : Text.Cuts separates "\n--+--+--\n".toList :=
  Text.cuts_fenced (c := '\n') (d := '\n') (by decide) (by decide) lineChars

theorem tokens_line : Text.tokens separates "\n--+--+--\n".toList = [lineChars] := rfl

/-- The tokens of a row, its cells set apart by bars, are the codes of its
symbols. -/
theorem tokens_row (b : Board) (r : Nat) :
    (Text.tokens separates ['|']).intercalate
      ((Cell.inRow r).map fun i => Text.tokens separates (drawnChars (b.get i))) = b.rowCodes r := by
  have hbar : Text.tokens separates ['|'] = [] := rfl
  simp only [hbar, tokens_drawnChars, rowCodes, List.filterMap_eq_flatMap_toList]
  simp [Cell.inRow, List.intercalate]

/-- The tokens of a drawing. -/
theorem tokens_drawingChars (b : Board) :
    Text.tokens separates b.drawingChars =
      b.rowCodes 0 ++ lineChars :: (b.rowCodes 1 ++ lineChars :: b.rowCodes 2) := by
  have hbar : Text.Cuts separates ['|'] := Text.cuts_singleton (by decide)
  calc Text.tokens separates b.drawingChars
      = (Text.tokens separates "\n--+--+--\n".toList).intercalate (Cell.lines.map fun r =>
          (Text.tokens separates ['|']).intercalate
            ((Cell.inRow r).map fun i => Text.tokens separates (drawnChars (b.get i)))) :=
        tokens_layout hbar cuts_line drawnChars b
    _ = [lineChars].intercalate (Cell.lines.map b.rowCodes) := by
        rw [tokens_line]
        simp only [tokens_row]
    _ = b.rowCodes 0 ++ lineChars :: (b.rowCodes 1 ++ lineChars :: b.rowCodes 2) := by
        simp [Cell.lines, List.intercalate]

theorem length_rowCodes (b : Board) (r : Nat) :
    (b.rowCodes r).length = ((Cell.inRow r).filter b.isOccupied).length := by
  rw [rowCodes, List.length_filterMap_eq_countP, List.countP_eq_length_filter]
  simp only [Option.isSome_map]
  rfl

/-- There are two tokens more than there are symbols. -/
theorem length_tokens_drawingChars (b : Board) :
    (Text.tokens separates b.drawingChars).length = b.symbolCount + 2 := by
  have hrows : Cell.all = Cell.inRow 0 ++ (Cell.inRow 1 ++ Cell.inRow 2) := rfl
  have hcount : b.symbolCount = (b.rowCodes 0).length + ((b.rowCodes 1).length + (b.rowCodes 2).length) := by
    rw [symbolCount, occupied, hrows, List.filter_append, List.filter_append, List.length_append, List.length_append,
      length_rowCodes, length_rowCodes, length_rowCodes]
  rw [tokens_drawingChars, hcount]
  simp only [List.length_append, List.length_cons]
  omega

/-! ## Reading drawings -/

/-- Of the tokens of a drawing, the first line drawn is the first to name
nothing. -/
theorem firstFault_tokens_drawingChars (b : Board) :
    FirstFault (Text.tokens separates b.drawingChars) (.malformedCell "--+--+--") := by
  refine ⟨b.rowCodes 0, lineChars, _, tokens_drawingChars b, ?_, .malformedCell (by decide) (by decide)⟩
  intro code hcode
  obtain ⟨i, -, hsymbol⟩ := List.mem_filterMap.mp hcode
  obtain ⟨s, -, rfl⟩ := Option.map_eq_some_iff.mp hsymbol
  exact ⟨_, .symbol s.color s.shape⟩

/-! ## Drawings of different boards -/

section
variable {ι : Type} {gap : List Char} {written written' : ι → List Char}

theorem length_intercalate_map (hwidth : ∀ i, (written i).length = (written' i).length) : ∀ is : List ι,
    (gap.intercalate (is.map written)).length = (gap.intercalate (is.map written')).length
  | [] => rfl
  | [i] => by simpa using hwidth i
  | i :: j :: rest => by
    have ih := length_intercalate_map hwidth (j :: rest)
    simp only [List.map_cons, List.intercalate_cons_cons, List.length_append, hwidth i] at ih ⊢
    rw [ih]

/-- Texts of the same widths, joined by a gap, are told apart by what they are
joined to. -/
theorem eq_of_intercalate_map_eq (hwidth : ∀ i, (written i).length = (written' i).length) : ∀ {is : List ι},
    gap.intercalate (is.map written) = gap.intercalate (is.map written') → ∀ i ∈ is, written i = written' i
  | [], _ => List.forall_mem_nil _
  | [i], h => List.forall_mem_singleton.mpr (by simpa using h)
  | i :: j :: rest, h => by
    simp only [List.map_cons, List.intercalate_cons_cons, List.append_assoc] at h
    obtain ⟨hfirst, hafter⟩ := List.append_inj h (hwidth i)
    exact List.forall_mem_cons.mpr ⟨hfirst, eq_of_intercalate_map_eq hwidth (List.append_cancel_left hafter)⟩

end

/-- Boards that are laid out in cells of one width are told apart by how they
are laid out. -/
theorem layout_injective {written : Option Symbol → List Char} {between rowBreak : List Char}
    (hwidth : ∀ content content', (written content).length = (written content').length)
    (hwritten : Function.Injective written) : Function.Injective (layout written between rowBreak) := by
  intro b b' h
  have hcellWidth : ∀ i, (written (b.get i)).length = (written (b'.get i)).length := fun i => hwidth _ _
  have hrows := eq_of_intercalate_map_eq (fun r => length_intercalate_map hcellWidth (Cell.inRow r)) h
  have hcells : ∀ i < Cell.count, ∃ r ∈ Cell.lines, i ∈ Cell.inRow r := by decide
  apply ext_get
  intro i hi
  obtain ⟨r, hr, hir⟩ := hcells i hi
  exact hwritten (eq_of_intercalate_map_eq hcellWidth (hrows r hr) i hir)

theorem drawnChars_injective : Function.Injective drawnChars := by
  have hblank : ∀ s : Symbol, drawnChars none ≠ drawnChars (some s) := by
    rintro ⟨c, s⟩
    cases c <;> simp [drawnChars, Symbol.letters, Color.code]
  intro content content' h
  cases content with
  | none =>
    cases content' with
    | none => rfl
    | some s => exact absurd h (hblank s)
  | some s =>
    cases content' with
    | none => exact absurd h.symm (hblank s)
    | some t =>
      -- a symbol is drawn as its code, which is read back
      have hread : readCell (codeChars (some s)) = readCell (codeChars (some t)) := congrArg readCell h
      rw [readCell_codeChars, readCell_codeChars] at hread
      exact Except.ok.inj hread

theorem drawing_injective : Function.Injective drawing := by
  have hwidth : ∀ content, (drawnChars content).length = 2 := by
    intro content
    cases content <;> rfl
  intro b b' h
  have hchars : b.drawingChars = b'.drawingChars := String.ofList_injective h
  exact layout_injective (fun content content' => by rw [hwidth, hwidth]) drawnChars_injective hchars

/-- **No drawing is read as a board.** The drawing of a board has two tokens more
than the board has symbols. If these are not seven, the drawing is refused for
the number of its tokens; if they are, it has nine tokens and is refused for the
first line drawn between rows. And different boards have different drawings. -/
theorem drawings_never_read :
    (∀ b : Board, (Text.tokens separates b.drawing.toList).length = b.symbolCount + 2 ∧
      (b.symbolCount ≠ 7 → read b.drawing = .error (.cellCount (b.symbolCount + 2))) ∧
      (b.symbolCount = 7 → read b.drawing = .error (.malformedCell "--+--+--")) ∧
      ∀ other, read b.drawing ≠ .ok other) ∧
    Function.Injective drawing := by
  refine ⟨?_, drawing_injective⟩
  intro b
  have htokens : Text.tokens separates b.drawing.toList = Text.tokens separates b.drawingChars := by
    rw [drawing, String.toList_ofList]
  have hlength := length_tokens_drawingChars b
  have hcount : b.symbolCount ≠ 7 → read b.drawing = .error (.cellCount (b.symbolCount + 2)) := by
    intro hne
    have hnine : b.symbolCount + 2 ≠ Cell.count := fun h => hne (Nat.add_right_cancel h)
    rw [read_eq_error_iff, htokens, hlength]
    exact .inl ⟨hnine, rfl⟩
  have hline : b.symbolCount = 7 → read b.drawing = .error (.malformedCell "--+--+--") := by
    intro hseven
    rw [read_eq_error_iff, htokens]
    exact .inr ⟨by rw [hlength, hseven]; rfl, firstFault_tokens_drawingChars b⟩
  refine ⟨by rw [htokens, hlength], hcount, hline, ?_⟩
  intro other hother
  by_cases hseven : b.symbolCount = 7
  · rw [hline hseven] at hother
    contradiction
  · rw [hcount hseven] at hother
    contradiction

/-- The drawing of seven symbols has nine tokens, the third of them the line below
the two symbols of the top row. With one symbol more there are ten tokens. -/
theorem seven_symbols_drawing_refused :
    symbolCount (ofCells [some ⟨.red, .circle⟩, none, some ⟨.blue, .square⟩,
        some ⟨.red, .circle⟩, some ⟨.yellow, .triangle⟩, some ⟨.blue, .circle⟩,
        none, some ⟨.red, .square⟩, some ⟨.red, .square⟩]) = 7 ∧
      read "rC|  |bS\n--+--+--\nrC|yT|bC\n--+--+--\n  |rS|rS" = .error (.malformedCell "--+--+--") ∧
      read "rC|rC|bS\n--+--+--\nrC|yT|bC\n--+--+--\n  |rS|rS" = .error (.cellCount 10) := by
  obtain ⟨hrefused, -⟩ := drawings_never_read
  obtain ⟨-, -, hseven, -⟩ := hrefused (ofCells [some ⟨.red, .circle⟩, none, some ⟨.blue, .square⟩,
    some ⟨.red, .circle⟩, some ⟨.yellow, .triangle⟩, some ⟨.blue, .circle⟩,
    none, some ⟨.red, .square⟩, some ⟨.red, .square⟩])
  obtain ⟨-, hten, -⟩ := hrefused (ofCells
    [some ⟨.red, .circle⟩, some ⟨.red, .circle⟩, some ⟨.blue, .square⟩,
      some ⟨.red, .circle⟩, some ⟨.yellow, .triangle⟩, some ⟨.blue, .circle⟩,
      none, some ⟨.red, .square⟩, some ⟨.red, .square⟩])
  exact ⟨rfl, hseven rfl, hten (by decide)⟩

end HiddenRule.Board
