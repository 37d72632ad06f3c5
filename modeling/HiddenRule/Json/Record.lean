import HiddenRule.Json

/-
  Records in Json. A value of a type with named cases is written as its name,
  and read from its name or from an object that holds null under the name. A
  record is written as an object, and read from an object that has all its
  fields, or from the list of their values. A whole number is read from digits
  alone and lies below two to the sixty-fourth.
-/

namespace HiddenRule.Json

/-- The case a value names, among the named ones. -/
def variant? {α : Type} (named : List (String × α)) : Json → Option α
  | string name => named.lookup name
  | object [(name, null)] => named.lookup name
  | _ => none

/-- The first number too large for a whole number. -/
def wholeBound : Nat := 1 <<< 64

/-- The whole number a value holds. -/
def whole? : Json → Option Nat
  | natural n => if n < wholeBound then some n else none
  | _ => none

/-- The values of a record's fields, in the order of the names. -/
def record? (names : List String) : Json → Option (List Json)
  | object fields => names.mapM fun name => field? name fields
  | array items => if items.length = names.length then some items else none
  | _ => none

/-- The list a value holds, item by item. -/
def list? {α : Type} (decode : Json → Option α) : Json → Option (List α)
  | array items => items.mapM decode
  | _ => none

/-- The value held, or none for null. -/
def nullable? {α : Type} (decode : Json → Option α) : Json → Option (Option α)
  | null => some none
  | value => (decode value).map some

end HiddenRule.Json
