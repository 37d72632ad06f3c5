/-
  Templates: texts with marks to be replaced. A replacement takes the first
  occurrence of a mark, and nothing else.
-/

namespace HiddenRule.Text

/-- The text with the first occurrence of a mark replaced. -/
def replaceFirst (mark new : List Char) : List Char → List Char
  | [] => []
  | c :: rest =>
    if mark.isPrefixOf (c :: rest) then new ++ (c :: rest).drop mark.length
    else c :: replaceFirst mark new rest

/-- The mark of a child's singular text, the first child being number 1. -/
def singularMark (k : Nat) : List Char := '%' :: Nat.toDigits 10 k

/-- The mark of a child's plural text. -/
def pluralMark (k : Nat) : List Char := '$' :: Nat.toDigits 10 k

/-- The mark of the attribute. -/
def attributeMark : List Char := ['@']

/-- The template with the marks of the children replaced by their texts,
child by child from number `k` on, the singular mark of each before its
plural mark. -/
def fillChildren : (k : Nat) → (texts : List (List Char × List Char)) → List Char → List Char
  | _, [], template => template
  | k, (singular, plural) :: rest, template =>
    fillChildren (k + 1) rest
      (replaceFirst (pluralMark k) plural (replaceFirst (singularMark k) singular template))

/-- The template with the mark of the attribute replaced, if there is one. -/
def fillAttribute (chosen : Option (List Char)) (template : List Char) : List Char :=
  match chosen with
  | some text => replaceFirst attributeMark text template
  | none => template

/-- The template with all its marks replaced, the attribute's last. -/
def fill (texts : List (List Char × List Char)) (chosen : Option (List Char)) (template : List Char) :
    List Char :=
  fillAttribute chosen (fillChildren 1 texts template)

end HiddenRule.Text
