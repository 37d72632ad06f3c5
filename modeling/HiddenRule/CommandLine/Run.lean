import HiddenRule.CommandLine
import HiddenRule.Grammar.Standard
import HiddenRule.Json.Printer
import HiddenRule.Random.ChaCha
import HiddenRule.Report
import HiddenRule.Sampling.Record

/-
  Running the command line: a session over the standard grammar is started
  from the seed, and the command is carried out in it. The version is told
  without a session.
-/

namespace HiddenRule.CommandLine

/-- What a run prints, and how it ends: 0 for success, 1 for a failure, 2 for
a command line that is refused. -/
structure Output where
  code : Nat
  out : String
  err : String
  deriving DecidableEq, Repr

namespace Output

/-- A success. -/
def success (out : String) : Output := ⟨0, out, ""⟩

/-- A failure, with its causes. -/
def failure (title : String) (causes : List String) : Output := ⟨1, "", Report.failure title causes⟩

/-- A refusal. -/
def refusal (r : Refusal) : Output := ⟨2, "", "error: " ++ r.message ++ "\n"⟩

end Output

/-- The line that tells the rule. -/
def ruleLine {σ : Type} (s : Session σ) : String := "Rule: " ++ s.rule.description ++ "\n"

/-- Carries out a command in a session. -/
def Command.run {σ : Type} [WordSource σ] (s : Session σ) : Command → Option Output
  | .rule json =>
    some <| .success <| (if json then (Report.rule s.rule).pretty else s.rule.description) ++ "\n"
  | .examples valid invalid json => do
    let (found, s) ← s.examples valid invalid
    if json then
      let report : Json := .object [("rule", Report.rule s.rule), ("examples", found.toJson)]
      return .success (report.pretty ++ "\n")
    else return .success (ruleLine s ++ "\n" ++ Report.examples found)
  | .judge text =>
    match Board.read text with
    | .error e => some (.failure ("invalid grid '" ++ text ++ "'") [e.message])
    | .ok b =>
      some <| .success <|
        b.drawing ++ "\n\n" ++ ruleLine s ++ "This grid " ++ Report.verdict (s.judge b) ++ ".\n"
  | .challenge stages => do
    let (run, s) ← s.challenge stages
    return .success (Report.challenge run ++ ruleLine s)

/-- Carries out an invocation. The entropy stands in for a seed that is not
given. -/
def Invocation.run (entropy : Nat) (i : Invocation) : Option Output :=
  let source := Seeded.ofSeed (UInt64.ofNat (i.seed.getD entropy))
  match Session.start Grammar.standard { attemptLimit := i.attempts } source with
  | none => none
  | some (.error e) => some (.failure "failed to start session" [e.message, e.causeMessage])
  | some (.ok s) => i.command.run s

/-- The line that tells the program's name and version. -/
def versionLine : String := "zendo 0.1.0\n"

/-- Runs a command line. -/
def run (entropy : Nat) (arguments : List String) : Option Output :=
  match parse arguments with
  | .error r => some (.refusal r)
  | .ok .version => some (.success versionLine)
  | .ok (.invoke i) => i.run entropy

end HiddenRule.CommandLine
