import HiddenRule.Board.Text
import HiddenRule.Rule

/-
  Scenarios: a rule written by hand, with the text it should have and boards
  it should accept or refuse. A run builds the rule, compares its text, and
  goes through the boards in order; it stops at the first thing that is not as
  expected.
-/

namespace HiddenRule

/-- A board, as text, and the verdict expected. -/
structure Scenario.Step where
  board : String
  expected : Bool
  deriving DecidableEq, Repr

/-- A rule, what it should say, and how it should judge. -/
structure Scenario where
  name : String
  grammar : Grammar
  skeleton : Option Skeleton
  describes : Option String
  steps : List Scenario.Step

/-- The reason for a scenario's failure. Steps are numbered from 1. -/
inductive ScenarioError where
  | missingRule (scenario : String)
  | rule (scenario : String) (cause : RuleError)
  | board (scenario : String) (step : Nat) (cause : Board.TextError)
  | description (scenario : String) (expected actual : String)
  | verdict (scenario : String) (step : Nat) (expected : Bool) (board : Board)
  deriving DecidableEq

/-- The words of a scenario's failure. -/
def ScenarioError.message : ScenarioError → String
  | missingRule scenario => "rule not specified for scenario '" ++ scenario ++ "'"
  | rule scenario cause => "scenario '" ++ scenario ++ "' failed to build its rule: " ++ cause.message
  | board scenario step cause =>
    "step " ++ toString step ++ " of '" ++ scenario ++ "' has a bad grid: " ++ cause.message
  | description scenario expected actual =>
    "scenario '" ++ scenario ++ "' describes \"" ++ actual ++ "\", expected \"" ++ expected ++ "\""
  | verdict scenario step expected b =>
    "step " ++ toString step ++ " of '" ++ scenario ++ "': expected " ++
      (if expected then "true" else "false") ++ " for\n" ++ b.drawing

namespace Scenario

/-- The rule of the scenario. -/
def build (s : Scenario) : Except ScenarioError Rule :=
  match s.skeleton with
  | none => .error (.missingRule s.name)
  | some skeleton => (Rule.build s.grammar skeleton).mapError (.rule s.name)

/-- Compares the text of the rule, if one is expected. -/
def checkDescription (s : Scenario) (r : Rule) : Except ScenarioError Unit :=
  match s.describes with
  | none => .ok ()
  | some expected =>
    if r.description = expected then .ok () else .error (.description s.name expected r.description)

/-- Judges the board of a step. -/
def checkStep (s : Scenario) (r : Rule) (number : Nat) (step : Step) : Except ScenarioError Unit := do
  let b ← (Board.read step.board).mapError (.board s.name number)
  if r.judge b = step.expected then .ok () else .error (.verdict s.name number step.expected b)

/-- Goes through steps in order, from a number on. -/
def checkSteps (s : Scenario) (r : Rule) : (number : Nat) → List Step → Except ScenarioError Unit
  | _, [] => .ok ()
  | number, step :: rest => do
    s.checkStep r number step
    s.checkSteps r (number + 1) rest

/-- Runs the scenario. -/
def run (s : Scenario) : Except ScenarioError Unit := do
  let r ← s.build
  s.checkDescription r
  s.checkSteps r 1 s.steps

end Scenario

end HiddenRule
