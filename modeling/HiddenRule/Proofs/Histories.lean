import HiddenRule.Grammar.Standard
import HiddenRule.Proofs.Building
import HiddenRule.Proofs.Challenges

/-
  Histories of sessions. A history lists what was done in a session and what it
  answered, the latest first. Operations follow each other in any order, and
  those that draw may use up the source in any way; what a history says of the
  session does not depend on it.

  What is proved:
    1. `perform_cases`: an operation is a new round, or moves on the source and
       nothing else, and gives the verdicts of the rule of the round.
    2. `Consistent.next`: one operation keeps the session consistent with its
       history.
    3. `consistent_of_evolves`: after every history the rule is one that the
       grammar builds, the round counts the rules found, what was said since the
       last of them still stands, and an operation that finds no rule leaves
       everything but the source as it is.
-/

namespace HiddenRule

/-- A drawn rule is the one that its skeleton names. -/
theorem Rule.build_of_yields_draw {g : Grammar} {depth : Nat} {r : Rule} (h : (draw g depth).Yields (.ok r)) :
    build g r.skeleton = .ok r := by
  obtain ⟨result, -, hresult⟩ := (Draw.yields_bind _ _ _).mp h
  cases result with
  | error e => cases hresult
  | ok skeleton =>
    have hbuild : build g skeleton = .ok r := hresult
    obtain ⟨-, hskeleton, -⟩ := build_eq_ok_iff.mp hbuild
    rwa [hskeleton]

namespace Session

/-- What can be done in a session. -/
inductive Operation where
  | reset
  | judge (board : Board)
  | examples (wantValid wantInvalid : Nat)
  | randomBoard
  | shuffle (boards : List Board)
  | challenge (stages : Nat)
  deriving DecidableEq

/-- What an operation answers. -/
inductive Answer where
  | newRound
  | refused (cause : SessionError)
  | verdict (follows : Bool)
  | examples (found : Examples)
  | board (drawn : Board)
  | boards (shuffled : List Board)
  | stages (run : List Stage)
  deriving DecidableEq

/-- The answer of a reset. -/
def Answer.ofReset : Except SessionError Unit → Answer
  | .ok () => newRound
  | .error e => refused e

/-- An operation and its answer. -/
structure Exchange where
  operation : Operation
  answer : Answer
  deriving DecidableEq

namespace Exchange

/-- Whether a reset found a new rule. -/
def isNewRound (x : Exchange) : Bool := x = ⟨.reset, .newRound⟩

/-- What the exchange says of boards: whether they follow the rule. -/
def verdicts : Exchange → List (Board × Bool)
  | ⟨.judge b, .verdict follows⟩ => [(b, follows)]
  | ⟨_, .examples found⟩ => found.valid.map (fun b => (b, true)) ++ found.invalid.map fun b => (b, false)
  | ⟨_, .stages run⟩ => run.map fun stage => (stage.board, stage.valid)
  | _ => []

end Exchange

variable {σ : Type} [WordSource σ] {g : Grammar} {sampling : Sampling} {s t u : Session σ}
  {operation : Operation} {answer : Answer} {history : List Exchange}

/-- The answer to an operation, and the session after it. There is neither if
the operation draws without an end. -/
def perform (s : Session σ) : Operation → Option (Answer × Session σ)
  | .reset => s.reset.map (Prod.map Answer.ofReset id)
  | .judge b => some (.verdict (s.judge b), s)
  | .examples wantValid wantInvalid => (s.examples wantValid wantInvalid).map (Prod.map .examples id)
  | .randomBoard => s.randomBoard.map (Prod.map .board id)
  | .shuffle boards => (s.shuffle boards).map (Prod.map .boards id)
  | .challenge stages => (s.challenge stages).map (Prod.map .stages id)

/-- The sessions that operations lead to, with the history on the way, the
latest exchange first. -/
inductive Evolves (s : Session σ) : List Exchange → Session σ → Prop where
  | refl : Evolves s [] s
  | next {history : List Exchange} {t u : Session σ} {operation : Operation} {answer : Answer} :
    Evolves s history t → t.perform operation = some (answer, u) → Evolves s (⟨operation, answer⟩ :: history) u

/-! ## One operation -/

theorem map_prodMap_id_eq_some {α β γ : Type} {f : α → β} {o : Option (α × γ)} {b : β} {c : γ}
    (h : o.map (Prod.map f id) = some (b, c)) : ∃ a, o = some (a, c) ∧ b = f a := by
  obtain ⟨⟨a, d⟩, ho, hb⟩ := Option.map_eq_some_iff.mp h
  obtain ⟨rfl, rfl⟩ := Prod.mk.inj hb
  exact ⟨a, ho, rfl⟩

theorem exists_of_start_eq_ok {source : σ} (h : start g sampling source = some (.ok s)) :
    ∃ r after, Rule.build g r.skeleton = .ok r ∧ s = ⟨after, g, sampling, r, 1⟩ := by
  unfold start at h
  split at h
  · cases h
  · split at h
    · cases h
    · cases h
    · next r after hrun =>
      cases h
      exact ⟨r, after, Rule.build_of_yields_draw (Draw.yields_of_run hrun), rfl⟩

/-- A reset finds a rule and begins a round with it, or leaves everything but the
source as it is. -/
theorem reset_cases {outcome : Except SessionError Unit} (h : t.reset = some (outcome, u)) :
    (∃ r source, outcome = .ok () ∧ Rule.build t.grammar r.skeleton = .ok r ∧
        u = { t with source := source, rule := r, round := t.round + 1 }) ∨
      ∃ cause, outcome = .error cause ∧ u = { t with source := u.source } := by
  unfold reset at h
  split at h
  · cases h
  · next e after hplay =>
    obtain ⟨source, -, rfl⟩ := exists_of_play_eq_some hplay
    cases h
    exact .inr ⟨_, rfl, rfl⟩
  · next r after hplay =>
    obtain ⟨source, hrun, rfl⟩ := exists_of_play_eq_some hplay
    cases h
    exact .inl ⟨r, source, rfl, Rule.build_of_yields_draw (Draw.yields_of_run hrun), rfl⟩

/-- A challenge draws twice, and judges by the rule it does not change. -/
theorem eq_of_challenge_eq_some {count : Nat} {stages : List Stage} (h : t.challenge count = some (stages, u)) :
    u = { t with source := u.source } ∧ ∀ stage ∈ stages, t.judge stage.board = stage.valid := by
  obtain ⟨found, between, boards, hfound, hshuffle, rfl⟩ := challenge_eq_some_iff.mp h
  obtain ⟨first, -, rfl⟩ := exists_of_play_eq_some hfound
  obtain ⟨second, -, rfl⟩ := exists_of_play_eq_some hshuffle
  refine ⟨rfl, ?_⟩
  intro stage hstage
  obtain ⟨b, -, rfl⟩ := List.mem_map.mp hstage
  rfl

/-- An operation begins a round with a rule of the grammar, or moves on the
source alone and says of boards what the rule of the round says. -/
theorem perform_cases (h : t.perform operation = some (answer, u)) :
    (∃ r source, (⟨operation, answer⟩ : Exchange) = ⟨.reset, .newRound⟩ ∧
        Rule.build t.grammar r.skeleton = .ok r ∧
        u = { t with source := source, rule := r, round := t.round + 1 }) ∨
      ((⟨operation, answer⟩ : Exchange) ≠ ⟨.reset, .newRound⟩ ∧ u = { t with source := u.source } ∧
        ∀ entry ∈ Exchange.verdicts ⟨operation, answer⟩, t.judge entry.1 = entry.2) := by
  cases operation with
  | reset =>
    obtain ⟨outcome, hreset, rfl⟩ := map_prodMap_id_eq_some h
    rcases reset_cases hreset with ⟨r, source, rfl, hbuild, hu⟩ | ⟨cause, rfl, hu⟩
    · exact .inl ⟨r, source, rfl, hbuild, hu⟩
    · exact .inr ⟨nofun, hu, List.forall_mem_nil _⟩
  | judge b =>
    cases h
    exact .inr ⟨nofun, rfl, List.forall_mem_singleton.mpr rfl⟩
  | examples wantValid wantInvalid =>
    obtain ⟨found, hfound, rfl⟩ := map_prodMap_id_eq_some h
    have hsorted := Examples.sorted_of_examples hfound
    refine .inr ⟨nofun, eq_of_play_eq_some hfound, List.forall_mem_append.mpr ⟨?_, ?_⟩⟩
    · exact List.forall_mem_map.mpr hsorted.valid
    · exact List.forall_mem_map.mpr hsorted.invalid
  | randomBoard =>
    obtain ⟨drawn, hdrawn, rfl⟩ := map_prodMap_id_eq_some h
    exact .inr ⟨nofun, eq_of_play_eq_some hdrawn, List.forall_mem_nil _⟩
  | shuffle boards =>
    obtain ⟨shuffled, hshuffled, rfl⟩ := map_prodMap_id_eq_some h
    exact .inr ⟨nofun, eq_of_play_eq_some hshuffled, List.forall_mem_nil _⟩
  | challenge count =>
    obtain ⟨run, hrun, rfl⟩ := map_prodMap_id_eq_some h
    obtain ⟨hu, hflags⟩ := eq_of_challenge_eq_some hrun
    exact .inr ⟨nofun, hu, List.forall_mem_map.mpr hflags⟩

/-! ## Whole histories -/

/-- What holds of a session over a grammar after a history. -/
structure Consistent (g : Grammar) (sampling : Sampling) (history : List Exchange) (t : Session σ) : Prop where
  grammar_eq : t.grammar = g
  sampling_eq : t.sampling = sampling
  /-- The rule is the one that its skeleton names in the grammar. -/
  build_eq : Rule.build g t.rule.skeleton = .ok t.rule
  /-- The first rule was found before the history. The count has 64 bits. -/
  round_eq : t.round = UInt64.ofNat (1 + history.countP Exchange.isNewRound)
  /-- What was said of boards since the last new round is still so. -/
  judge_eq : ∀ x ∈ history.takeWhile fun x => !x.isNewRound, ∀ entry ∈ x.verdicts, t.judge entry.1 = entry.2

theorem consistent_of_start {source : σ} (h : start g sampling source = some (.ok s)) :
    s.Consistent g sampling [] := by
  obtain ⟨r, after, hbuild, rfl⟩ := exists_of_start_eq_ok h
  exact ⟨rfl, rfl, hbuild, rfl, List.forall_mem_nil _⟩

theorem Consistent.next (h : t.Consistent g sampling history) (hstep : t.perform operation = some (answer, u)) :
    u.Consistent g sampling (⟨operation, answer⟩ :: history) := by
  rcases perform_cases hstep with ⟨r, source, hnew, hbuild, rfl⟩ | ⟨hother, hu, hverdicts⟩
  · -- nothing has been said of boards under the new rule
    rw [hnew]
    refine ⟨h.grammar_eq, h.sampling_eq, h.grammar_eq ▸ hbuild, ?_, List.forall_mem_nil _⟩
    rw [List.countP_cons_of_pos rfl, ← Nat.add_assoc, UInt64.ofNat_add, ← h.round_eq]
    rfl
  · have hnew : Exchange.isNewRound ⟨operation, answer⟩ = false := decide_eq_false hother
    rw [hu]
    refine ⟨h.grammar_eq, h.sampling_eq, h.build_eq, ?_, ?_⟩
    · rw [List.countP_cons_of_neg (by rw [hnew]; exact Bool.false_ne_true)]
      exact h.round_eq
    · rw [List.takeWhile_cons_of_pos (by rw [hnew]; rfl)]
      exact List.forall_mem_cons.mpr ⟨hverdicts, h.judge_eq⟩

theorem Evolves.consistent (h : s.Evolves history t) (hstart : s.Consistent g sampling []) :
    t.Consistent g sampling history := by
  induction h with
  | refl => exact hstart
  | next _ hstep ih => exact ih.next hstep

/-- **A session keeps what it said.** After every history of a session that was
started, whatever was done in it and however often a reset was refused: the rule
is the one that its skeleton names in the grammar, which is still the one it was
started with, as are the settings; the round is one more than the number of
resets that found a rule, as far as 64 bits can count; and every board that was
given as following or breaking the rule since the last of these still does. An
operation that is no such reset, a refused one included, changes nothing but the
source. -/
theorem consistent_of_evolves {source : σ} (hstart : start g sampling source = some (.ok s))
    (h : s.Evolves history t) :
    t.Consistent g sampling history ∧
      (1 + history.countP Exchange.isNewRound < UInt64.size →
        t.round.toNat = 1 + history.countP Exchange.isNewRound) ∧
      ∀ operation answer u, t.perform operation = some (answer, u) →
        (⟨operation, answer⟩ : Exchange) ≠ ⟨.reset, .newRound⟩ → u = { t with source := u.source } := by
  have hconsistent := h.consistent (consistent_of_start hstart)
  refine ⟨hconsistent, ?_, ?_⟩
  · intro hfew
    rw [hconsistent.round_eq]
    exact UInt64.toNat_ofNat_of_lt' hfew
  · intro operation answer u hstep hother
    rcases perform_cases hstep with ⟨_, _, hnew, -⟩ | ⟨-, hu, -⟩
    · exact absurd hnew hother
    · exact hu

end Session

/-- A closed grammar of two rules over one noun. The second rule has the tag that
the noun has, so it finds no noun. -/
def Grammar.overtagged : Grammar :=
  empty.addAll
    [(.rule, ruleOf "row_filled" .rowFilled 1 [.noun] [] "There is a row filled with $1"),
      (.rule, ruleOf "column_filled" .columnFilled 1 [.noun] [.position] "There is a column filled with $1"),
      (.noun, nounOf "row" .row 1 (some rowTexts) [.position] "symbol in the @ row" "symbols in the @ row")]

open Grammar (overtagged)

namespace Session

/-- A second round, an example that breaks its rule, and a reset that is refused:
the rule, the round and the verdict on the example stay. -/
theorem refused_reset_keeps_round :
    ∃ (s t u : Session Script) (found : Examples),
      start overtagged ⟨500, ⟨0, 0⟩⟩ (Script.mk [0, 0, 0, 0, 0, 0, 0, 2147483648]) = some (.ok s) ∧
      s.Evolves [⟨.examples 0 1, .examples found⟩, ⟨.reset, .newRound⟩] t ∧
      t.perform .reset = some (.refused (.rule (.noEligibleAlternative .noun)), u) ∧
      t.Consistent overtagged ⟨500, ⟨0, 0⟩⟩ [⟨.examples 0 1, .examples found⟩, ⟨.reset, .newRound⟩] ∧
      found.invalid.length = 1 ∧ u.round = 2 ∧ u = { t with source := u.source } := by
  obtain ⟨s, t, u, found, hstart, hevolves, hrefused, hfound, hround⟩ :
      ∃ (s t u : Session Script) (found : Examples),
        start overtagged ⟨500, ⟨0, 0⟩⟩ (Script.mk [0, 0, 0, 0, 0, 0, 0, 2147483648]) = some (.ok s) ∧
        s.Evolves [⟨.examples 0 1, .examples found⟩, ⟨.reset, .newRound⟩] t ∧
        t.perform .reset = some (.refused (.rule (.noEligibleAlternative .noun)), u) ∧
        found.invalid.length = 1 ∧ u.round = 2 :=
    ⟨_, _, _, _, rfl, .next (.next .refl rfl) rfl, rfl, rfl, rfl⟩
  obtain ⟨hconsistent, -, hkept⟩ := consistent_of_evolves hstart hevolves
  exact ⟨s, t, u, found, hstart, hevolves, hrefused, hconsistent, hfound, hround, hkept _ _ _ hrefused nofun⟩

end Session

end HiddenRule
