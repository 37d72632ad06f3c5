import HiddenRule.Grammar.Closure
import HiddenRule.Random.Source
import HiddenRule.Rule.Draw
import HiddenRule.Sampling.Examples

/-
  Sessions: a closed grammar, a secret rule drawn from it, and the source of
  words that every further draw goes through. A new round draws a new rule; if
  that fails the old one stays, and only the source has moved on. An operation
  that draws has no result where its draw has none.
-/

namespace HiddenRule

/-- The reason for not starting a session or a round. -/
inductive SessionError where
  | grammar (cause : GrammarError)
  | rule (cause : RuleError)
  deriving DecidableEq, Repr

/-- The words of a session error. -/
def SessionError.message : SessionError → String
  | grammar cause => "grammar error: " ++ cause.message
  | rule cause => "rule error: " ++ cause.message

/-- The words of the error underneath. -/
def SessionError.causeMessage : SessionError → String
  | grammar cause => cause.message
  | rule cause => cause.message

/-- The count of rounds has 64 bits. -/
instance natOfRound : Coe UInt64 Nat := ⟨UInt64.toNat⟩

/-- A session over a source of words. -/
structure Session (σ : Type) where
  source : σ
  grammar : Grammar
  sampling : Sampling
  rule : Rule
  /-- The number of rules drawn so far, up to the overflow of 64 bits. -/
  round : UInt64

namespace Session

variable {σ : Type} [WordSource σ]

/-- The first round of a session over a grammar. -/
def start (g : Grammar) (sampling : Sampling) (source : σ) : Option (Except SessionError (Session σ)) :=
  match g.check with
  | .error e => some (.error (.grammar e))
  | .ok () =>
    match (Rule.draw g Grammar.depth).run Draw.patience source with
    | none => none
    | some (.error e, _) => some (.error (.rule e))
    | some (.ok r, after) => some (.ok ⟨after, g, sampling, r, 1⟩)

/-- The value of a draw over the session's source, and the session after it. -/
def play {α : Type} (s : Session σ) (d : Draw α) : Option (α × Session σ) :=
  match d.run Draw.patience s.source with
  | none => none
  | some (a, after) => some (a, { s with source := after })

/-- The next round: whether a new rule was found, and the session after it. -/
def reset (s : Session σ) : Option (Except SessionError Unit × Session σ) :=
  match s.play (Rule.draw s.grammar Grammar.depth) with
  | none => none
  | some (.error e, after) => some (.error (.rule e), after)
  | some (.ok r, after) => some (.ok (), { after with rule := r, round := after.round + 1 })

/-- Whether a board follows the rule of the round. -/
def judge (s : Session σ) (b : Board) : Bool := s.rule.judge b

/-- Examples of the rule of the round. -/
def examples (s : Session σ) (wantValid wantInvalid : Nat) : Option (Examples × Session σ) :=
  s.play (Examples.draw s.sampling s.rule wantValid wantInvalid)

/-- A random board. -/
def randomBoard (s : Session σ) : Option (Board × Session σ) := s.play (Board.drawIn s.sampling.fill.clamp)

/-- The boards in a random order. -/
def shuffle (s : Session σ) (boards : List Board) : Option (List Board × Session σ) :=
  s.play (Draw.shuffle boards)

end Session

end HiddenRule
