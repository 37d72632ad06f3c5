/-
  Json values. Numbers keep how they are written as far as it matters here: a
  number written in digits alone is a natural, any other keeps its text, so
  `1` and `1.0` are different values.
-/

namespace HiddenRule

/-- A Json value. -/
inductive Json where
  | null
  | bool (value : Bool)
  /-- A number written in decimal digits alone. -/
  | natural (value : Nat)
  /-- Any other number, as it is written. -/
  | numeral (text : String)
  | string (text : String)
  | array (items : List Json)
  | object (fields : List (String × Json))
  deriving Inhabited

namespace Json

/-- The value of a field, if there is one of that name. -/
def field? (name : String) (fields : List (String × Json)) : Option Json := fields.lookup name

/-- A value put under a name, in the place of the value already there. -/
def putField (name : String) (value : Json) : List (String × Json) → List (String × Json)
  | [] => [(name, value)]
  | (other, old) :: rest =>
    if other = name then (name, value) :: rest else (other, old) :: putField name value rest

/-- The list of texts. -/
def ofStrings (texts : List String) : Json := array (texts.map string)

/-- The value, or null if there is none. -/
def ofOption {α : Type} (encode : α → Json) (value : Option α) : Json := (value.map encode).getD null

end Json

end HiddenRule
