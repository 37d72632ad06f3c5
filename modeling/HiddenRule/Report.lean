import HiddenRule.Board.Text
import HiddenRule.Challenge
import HiddenRule.Skeleton.Record

/-
  Reports: the texts shown to the player.
-/

namespace HiddenRule.Report

/-- A verdict in words. -/
def verdict (valid : Bool) : String := if valid then "follows the rule" else "breaks the rule"

/-- Boards drawn one below the other, each under its number. -/
def numbered : (number : Nat) → List Board → String
  | _, [] => ""
  | k, b :: rest => "\n#" ++ toString k ++ "\n" ++ b.drawing ++ "\n" ++ numbered (k + 1) rest

/-- A titled list of boards. -/
def boards (title : String) (bs : List Board) : String :=
  title ++ " (" ++ toString bs.length ++ "):\n" ++ numbered 1 bs

/-- Examples, those that follow the rule first. -/
def examples (e : Examples) : String := boards "Valid" e.valid ++ "\n" ++ boards "Invalid" e.invalid

/-- Stages with their answers, each under its number. -/
def stages : (number : Nat) → List Stage → String
  | _, [] => ""
  | k, s :: rest =>
    "Stage " ++ toString k ++ ": " ++ verdict s.valid ++ "\n" ++ s.board.drawing ++ "\n\n" ++
      stages (k + 1) rest

/-- A challenge with its answers. -/
def challenge (run : List Stage) : String := stages 1 run

/-- A rule with its texts and its skeleton. -/
def rule (r : Rule) : Json :=
  .object [("description", .string r.description), ("description_plural", .string r.descriptionPlural),
    ("skeleton", r.skeleton.toJson)]

/-- The causes of a failure, each indented; several are numbered. -/
def causes (texts : List String) : String :=
  if texts.length = 1 then String.join (texts.map fun text => "\n    " ++ text)
  else String.join (texts.zipIdx.map fun (text, k) => "\n    " ++ toString k ++ ": " ++ text)

/-- A failure and what caused it. -/
def failure (title : String) (texts : List String) : String :=
  "Error: " ++ title ++ "\n\nCaused by:" ++ causes texts ++ "\n"

end HiddenRule.Report
