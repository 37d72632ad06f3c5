import HiddenRule.Board.Record
import HiddenRule.Sampling.Examples

/-
  The Json form of examples: a record of the two lists of boards and of the
  number of attempts.
-/

namespace HiddenRule.Examples

/-- The Json form of examples. -/
def toJson (e : Examples) : Json :=
  .object [("valid", .array (e.valid.map Board.toJson)), ("invalid", .array (e.invalid.map Board.toJson)),
    ("attempts", .natural e.attempts)]

/-- The examples a Json value holds. -/
def ofJson? (value : Json) : Option Examples := do
  match ← Json.record? ["valid", "invalid", "attempts"] value with
  | [valid, invalid, attempts] =>
    return ⟨← Json.list? Board.ofJson? valid, ← Json.list? Board.ofJson? invalid, ← Json.whole? attempts⟩
  | _ => none

end HiddenRule.Examples
