import HiddenRule.Text.Tokens

/-
  Tokens of texts that are put together. A separator ends whatever token stands
  before it, so the tokens of a text are those before and those after any of its
  separators; a gap between texts can be more than one character, and can have
  tokens of its own.

  What is proved:
    1. `tokens_append_cons`: the tokens around a separator.
    2. `tokens_eq_singleton`: a text without separators is one token.
    3. `Cuts.tokens_intercalate`: the tokens of texts joined by a gap are the
       tokens of the texts, joined by those of the gap.
    4. `runs_iff`: the tokens of a text are its maximal runs of characters that
       do not separate, and no other words are.
-/

namespace HiddenRule.Text

variable {separates : Char → Bool}

theorem tokensFrom_append_cons {c : Char} (hc : separates c = true) (after : List Char) :
    ∀ read before, tokensFrom separates read (before ++ c :: after) =
      tokensFrom separates read before ++ tokens separates after
  | read, [] => by
    have hend : tokensFrom separates read (c :: after) =
        if read.isEmpty then tokens separates after else read :: tokens separates after := by
      rw [tokensFrom, if_pos hc, tokens]
    rw [List.nil_append, hend, tokensFrom]
    cases read with
    | nil => rfl
    | cons _ _ => rfl
  | read, d :: before => by
    rw [List.cons_append, tokensFrom, tokensFrom]
    split
    · split
      · exact tokensFrom_append_cons hc after [] before
      · rw [tokensFrom_append_cons hc after [] before, List.cons_append]
    · exact tokensFrom_append_cons hc after (read ++ [d]) before

/-- The tokens of a text are those before and those after a separator in it. -/
theorem tokens_append_cons {c : Char} (hc : separates c = true) (before after : List Char) :
    tokens separates (before ++ c :: after) = tokens separates before ++ tokens separates after :=
  tokensFrom_append_cons hc after [] before

theorem tokensFrom_eq_singleton : ∀ {read word : List Char}, read ++ word ≠ [] →
    (∀ c ∈ word, separates c = false) → tokensFrom separates read word = [read ++ word]
  | read, [], hne, _ => by
    rw [List.append_nil] at hne ⊢
    rw [tokensFrom, if_neg (by simpa using hne)]
  | read, c :: word, _, hword => by
    obtain ⟨hc, hrest⟩ := List.forall_mem_cons.mp hword
    rw [tokensFrom, hc, if_neg Bool.false_ne_true, tokensFrom_eq_singleton (by simp) hrest, List.append_assoc,
      List.singleton_append]

/-- A text without separators is one token. -/
theorem tokens_eq_singleton {word : List Char} (hne : word ≠ []) (hword : ∀ c ∈ word, separates c = false) :
    tokens separates word = [word] :=
  tokensFrom_eq_singleton hne hword

/-! ## Gaps -/

/-- Whether a gap keeps apart the texts that it stands between. -/
def Cuts (separates : Char → Bool) (gap : List Char) : Prop := ∀ before after,
  tokens separates (before ++ gap ++ after) =
    tokens separates before ++ tokens separates gap ++ tokens separates after

theorem cuts_singleton {c : Char} (hc : separates c = true) : Cuts separates [c] := by
  intro before after
  have hgap : tokens separates [c] = [] := tokens_append_cons hc [] []
  rw [hgap, List.append_nil, List.append_assoc, List.singleton_append, tokens_append_cons hc]

/-- A gap with a separator at both ends keeps apart what stands on its two sides,
and adds the tokens between its ends. -/
theorem tokens_fenced {c d : Char} (hc : separates c = true) (hd : separates d = true) (word : List Char) :
    tokens separates (c :: (word ++ [d])) = tokens separates word := by
  calc tokens separates ([] ++ c :: (word ++ [d]))
      = tokens separates [] ++ tokens separates (word ++ [d]) := tokens_append_cons hc [] (word ++ [d])
    _ = [] ++ (tokens separates word ++ []) := by rw [tokens_append_cons hd word []]; rfl
    _ = tokens separates word := by rw [List.nil_append, List.append_nil]

theorem cuts_fenced {c d : Char} (hc : separates c = true) (hd : separates d = true) (word : List Char) :
    Cuts separates (c :: (word ++ [d])) := by
  intro before after
  rw [tokens_fenced hc hd, List.append_assoc, List.cons_append, tokens_append_cons hc, List.append_assoc,
    List.singleton_append, tokens_append_cons hd, List.append_assoc]

/-- The tokens of texts joined by a gap. -/
theorem Cuts.tokens_intercalate {gap : List Char} (h : Cuts separates gap) : ∀ texts,
    tokens separates (gap.intercalate texts) =
      (tokens separates gap).intercalate (texts.map (tokens separates))
  | [] => rfl
  | [text] => by rw [List.intercalate_singleton, List.map_singleton, List.intercalate_singleton]
  | text :: next :: rest => by
    have hrest := h.tokens_intercalate (next :: rest)
    rw [List.map_cons] at hrest
    rw [List.intercalate_cons_cons, h, hrest, List.map_cons, List.map_cons, List.intercalate_cons_cons]

/-! ## Maximal runs -/

/-- Whether words are, in order, the maximal runs of characters that do not
separate: nothing but separators stands before, between and after them, and each
is followed by a separator or by the end of the text. -/
inductive Runs (separates : Char → Bool) : (text : List Char) → (words : List (List Char)) → Prop
  | last {gap : List Char} : (∀ c ∈ gap, separates c = true) → Runs separates gap []
  | next {gap word rest : List Char} {words : List (List Char)} : (∀ c ∈ gap, separates c = true) →
    word ≠ [] → (∀ c ∈ word, separates c = false) → (∀ c ∈ rest.head?, separates c = true) →
    Runs separates rest words → Runs separates (gap ++ (word ++ rest)) (word :: words)

theorem tokens_gap_append {gap : List Char} (hgap : ∀ c ∈ gap, separates c = true)
    (text : List Char) : tokens separates (gap ++ text) = tokens separates text := by
  induction gap with
  | nil => rfl
  | cons c gap ih =>
    obtain ⟨hc, hgap⟩ := List.forall_mem_cons.mp hgap
    calc tokens separates (c :: gap ++ text)
        = tokens separates [] ++ tokens separates (gap ++ text) := tokens_append_cons hc [] (gap ++ text)
      _ = tokens separates text := ih hgap

theorem tokens_eq_nil {gap : List Char} (hgap : ∀ c ∈ gap, separates c = true) :
    tokens separates gap = [] := by
  have h := tokens_gap_append hgap []
  rwa [List.append_nil] at h

theorem tokens_append_gap {gap : List Char} (hgap : ∀ c ∈ gap, separates c = true) (text : List Char) :
    tokens separates (text ++ gap) = tokens separates text := by
  cases gap with
  | nil => rw [List.append_nil]
  | cons c gap =>
    obtain ⟨hc, hgap⟩ := List.forall_mem_cons.mp hgap
    rw [tokens_append_cons hc, tokens_eq_nil hgap, List.append_nil]

theorem tokens_word_append {word rest : List Char} (hne : word ≠ []) (hword : ∀ c ∈ word, separates c = false)
    (hrest : ∀ c ∈ rest.head?, separates c = true) :
    tokens separates (word ++ rest) = word :: tokens separates rest := by
  cases rest with
  | nil => rw [List.append_nil, tokens_eq_singleton hne hword]; rfl
  | cons c rest =>
    have hc : separates c = true := hrest c rfl
    rw [tokens_append_cons hc, tokens_eq_singleton hne hword, List.singleton_append]
    exact congrArg (word :: ·) (tokens_append_cons hc [] rest).symm

/-- Runs are found as tokens. -/
theorem tokens_eq_of_runs {text : List Char} {words : List (List Char)} (h : Runs separates text words) :
    tokens separates text = words := by
  induction h with
  | last hgap => exact tokens_eq_nil hgap
  | next hgap hne hword hrest _ ih =>
    rw [tokens_gap_append hgap, tokens_word_append hne hword hrest, ih]

theorem Runs.cons {c : Char} (hc : separates c = true) {text : List Char} {words : List (List Char)}
    (h : Runs separates text words) : Runs separates (c :: text) words := by
  cases h with
  | last hgap => exact .last (List.forall_mem_cons.mpr ⟨hc, hgap⟩)
  | next hgap hne hword hrest hwords =>
    exact .next (List.forall_mem_cons.mpr ⟨hc, hgap⟩) hne hword hrest hwords

/-- What was read and what follows it are made of runs. The induction is that of
`tokensFrom`: a separator ends the run that was read, if there is one. -/
theorem runs_tokensFrom : ∀ (text : List Char) {read : List Char}, (∀ c ∈ read, separates c = false) →
    Runs separates (read ++ text) (tokensFrom separates read text)
  | [], read, hread => by
    rw [tokensFrom]
    cases read with
    | nil => exact .last (List.forall_mem_nil _)
    | cons c read =>
      exact .next (List.forall_mem_nil _) (List.cons_ne_nil _ _) hread (by simp) (.last (List.forall_mem_nil _))
  | c :: text, read, hread => by
    rw [tokensFrom]
    cases hc : separates c with
    | true =>
      have hrest := (runs_tokensFrom text (List.forall_mem_nil _)).cons hc
      cases read with
      | nil => exact hrest
      | cons d read =>
        exact .next (List.forall_mem_nil _) (List.cons_ne_nil _ _) hread (by simpa using hc) hrest
    | false =>
      have hlonger : ∀ d ∈ read ++ [c], separates d = false :=
        List.forall_mem_append.mpr ⟨hread, by simpa using hc⟩
      have hruns := runs_tokensFrom text hlonger
      rwa [List.append_assoc, List.singleton_append] at hruns

/-- The tokens of a text are its maximal runs, and no other words are. -/
theorem runs_iff {text : List Char} {words : List (List Char)} :
    Runs separates text words ↔ words = tokens separates text := by
  refine ⟨fun h => (tokens_eq_of_runs h).symm, ?_⟩
  rintro rfl
  exact runs_tokensFrom text (List.forall_mem_nil _)

/-- Separators, if there are any, keep apart what stands on their two sides. -/
theorem cuts_of_separates {gap : List Char} (hne : gap ≠ []) (hgap : ∀ c ∈ gap, separates c = true) :
    Cuts separates gap := by
  obtain ⟨c, rest, rfl⟩ := List.exists_cons_of_ne_nil hne
  obtain ⟨hc, hrest⟩ := List.forall_mem_cons.mp hgap
  intro before after
  rw [List.append_assoc, List.cons_append, tokens_append_cons hc, tokens_gap_append hrest,
    tokens_eq_nil hgap, List.append_nil]

end HiddenRule.Text
