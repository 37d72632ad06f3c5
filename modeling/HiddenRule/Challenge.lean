import HiddenRule.Board.Record
import HiddenRule.Session

/-
  Challenges: a shuffled run of boards for the player to judge. One board
  fewer than there are stages is asked for on each side of the rule, so a run
  that is full has boards on both sides.
-/

namespace HiddenRule

/-- One board of a challenge, and whether it follows the rule. -/
structure Stage where
  board : Board
  valid : Bool
  deriving DecidableEq

/-- The Json form of a stage. -/
def Stage.toJson (s : Stage) : Json := .object [("grid", s.board.toJson), ("valid", .bool s.valid)]

/-- A challenge of at most a number of stages, and the session after it. -/
def Session.challenge {σ : Type} [WordSource σ] (s : Session σ) (stages : Nat) :
    Option (List Stage × Session σ) := do
  let (found, s) ← s.examples (stages - 1) (stages - 1)
  let (boards, s) ← s.shuffle found.boards
  return ((boards.take stages).map fun b => ⟨b, s.judge b⟩, s)

end HiddenRule
