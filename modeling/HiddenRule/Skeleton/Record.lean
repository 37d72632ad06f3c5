import HiddenRule.Skeleton
import HiddenRule.Json.Record

/-
  The Json form of categories and skeletons: a category by its name, a node as
  a record of its category, the position of its alternative, its children and
  the position of its attribute.
-/

namespace HiddenRule

/-- The names of the categories. -/
def Category.named : List (String × Category) := Category.all.map fun c => (c.name, c)

/-- The Json form of a category. -/
def Category.toJson (c : Category) : Json := .string c.name

/-- The category a Json value holds. -/
def Category.ofJson? : Json → Option Category := Json.variant? Category.named

namespace Skeleton

mutual

/-- The Json form of a skeleton. -/
def toJson : Skeleton → Json
  | node c i parts a =>
    .object [("category", c.toJson), ("index", .natural i), ("children", .array (toJsonAll parts)),
      ("attribute", .natural a)]

/-- The Json forms of skeletons. -/
def toJsonAll : List Skeleton → List Json
  | [] => []
  | s :: rest => toJson s :: toJsonAll rest

end

mutual

/-- The skeleton a Json value holds. -/
def ofJson? : Json → Option Skeleton
  | .object fields => do
    let category ← Json.field? "category" fields
    let index ← Json.field? "index" fields
    let parts ← childrenOfFields? fields
    let choice ← Json.field? "attribute" fields
    return node (← Category.ofJson? category) (← Json.whole? index) parts (← Json.whole? choice)
  | .array [category, index, parts, choice] => do
    return node (← Category.ofJson? category) (← Json.whole? index) (← listOfJson? parts)
      (← Json.whole? choice)
  | _ => none

/-- The skeletons that a Json list holds. -/
def listOfJson? : Json → Option (List Skeleton)
  | .array items => allOfJson? items
  | _ => none

/-- The skeletons that Json values hold, one each. -/
def allOfJson? : List Json → Option (List Skeleton)
  | [] => some []
  | item :: rest => do
    let s ← ofJson? item
    let others ← allOfJson? rest
    return s :: others

/-- The skeletons that the field of the children holds. -/
def childrenOfFields? : List (String × Json) → Option (List Skeleton)
  | [] => none
  | (name, value) :: rest => if name = "children" then listOfJson? value else childrenOfFields? rest

end

end Skeleton

end HiddenRule
