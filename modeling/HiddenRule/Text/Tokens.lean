/-
  Tokens: the maximal runs of characters between separators.
-/

namespace HiddenRule.Text

/-- The tokens of a text whose first token begins with the characters already
read. -/
def tokensFrom (separates : Char → Bool) (read : List Char) : List Char → List (List Char)
  | [] => if read.isEmpty then [] else [read]
  | c :: rest =>
    if separates c then
      if read.isEmpty then tokensFrom separates [] rest else read :: tokensFrom separates [] rest
    else tokensFrom separates (read ++ [c]) rest

/-- The tokens of a text: its maximal runs of characters that do not separate. -/
def tokens (separates : Char → Bool) (text : List Char) : List (List Char) :=
  tokensFrom separates [] text

end HiddenRule.Text
