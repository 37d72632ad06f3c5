import HiddenRule.Rule
import HiddenRule.Sampling.Fill

/-
  Examples: random boards sorted by the verdict of a rule. Boards are drawn
  until there are enough on both sides, or until the limit of attempts; a
  board for which there is no more room is dropped.
-/

namespace HiddenRule

/-- How examples are drawn. -/
structure Sampling where
  /-- The most boards drawn for one request. -/
  attemptLimit : Nat := 500
  fill : FillRange := FillRange.standard
  deriving DecidableEq, Repr

/-- Boards that follow a rule and boards that break it, and how many were
drawn to find them. -/
structure Examples where
  valid : List Board
  invalid : List Board
  attempts : Nat
  deriving DecidableEq

namespace Examples

/-- No examples yet. -/
def empty : Examples := ⟨[], [], 0⟩

/-- All boards, those that follow the rule first. -/
def boards (e : Examples) : List Board := e.valid ++ e.invalid

/-- The number of boards. -/
def size (e : Examples) : Nat := e.valid.length + e.invalid.length

/-- Whether there are no boards. -/
def isEmpty (e : Examples) : Bool := e.valid.isEmpty && e.invalid.isEmpty

/-- Whether there are as many boards on each side as wanted. -/
def isComplete (e : Examples) (wantValid wantInvalid : Nat) : Bool :=
  wantValid ≤ e.valid.length && wantInvalid ≤ e.invalid.length

/-- The examples after one more attempt: the board joins its side if there is
room. -/
def record (e : Examples) (wantValid wantInvalid : Nat) (follows : Bool) (b : Board) : Examples :=
  if follows then
    { e with
      valid := if e.valid.length < wantValid then e.valid ++ [b] else e.valid
      attempts := e.attempts + 1 }
  else
    { e with
      invalid := if e.invalid.length < wantInvalid then e.invalid ++ [b] else e.invalid
      attempts := e.attempts + 1 }

/-- The examples completed with at most a number of further boards. -/
def drawMore (judge : Board → Bool) (fill : FillRange) (wantValid wantInvalid : Nat) :
    (attempts : Nat) → Examples → Draw Examples
  | 0, e => return e
  | attempts + 1, e =>
    if e.isComplete wantValid wantInvalid then return e
    else do
      let b ← Board.drawIn fill
      drawMore judge fill wantValid wantInvalid attempts (e.record wantValid wantInvalid (judge b) b)

/-- Examples of a rule. -/
def draw (sampling : Sampling) (r : Rule) (wantValid wantInvalid : Nat) : Draw Examples :=
  drawMore r.judge sampling.fill.clamp wantValid wantInvalid sampling.attemptLimit empty

end Examples

end HiddenRule
