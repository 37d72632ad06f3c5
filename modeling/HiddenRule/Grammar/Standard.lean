import HiddenRule.Grammar.Basic

/-
  The standard grammar: the table of rules the game is played with.
-/

namespace HiddenRule.Grammar

/-- The colors, as attributes. -/
def colorTexts : List String := ["red", "yellow", "blue"]

/-- The shapes, as attributes. -/
def shapeTexts : List String := ["circle", "triangle", "square"]

/-- The rows, as attributes. -/
def rowTexts : List String := ["top", "middle", "bottom"]

/-- The columns, as attributes. -/
def columnTexts : List String := ["left", "middle", "right"]

/-- A rule over its children. -/
def ruleOf (name : String) (kind : RuleKind) (weight : UInt32) (slots : List Category) (tags : List Tag)
    (singular : String) : Alternative :=
  { Alternative.bare name (some (.rule kind)) with
    weight := weight, slots := slots, tags := .ofList tags, singular := some singular }

/-- A noun with its two texts. -/
def nounOf (name : String) (kind : NounKind) (weight : UInt32) (attributes : Option (List String))
    (tags : List Tag) (singular plural : String) : Alternative :=
  { Alternative.bare name (some (.noun kind)) with
    weight := weight, attributes := attributes, tags := .ofList tags,
    singular := some singular, plural := some plural }

/-- A noun predicate with an attribute. -/
def nounPredOf (name : String) (kind : NounPredKind) (weight : UInt32) (attributes : List String)
    (tags : List Tag) (singular : String) (plural : Option String) : Alternative :=
  { Alternative.bare name (some (.nounPred kind)) with
    weight := weight, attributes := some attributes, tags := .ofList tags,
    singular := some singular, plural := plural }

/-- A group. -/
def groupOf (name : String) (kind : GroupKind) (weight : UInt32) (tags : List Tag) (singular : String) :
    Alternative :=
  { Alternative.bare name (some (.group kind)) with
    weight := weight, tags := .ofList tags, singular := some singular }

/-- A group predicate. -/
def groupPredOf (name : String) (kind : GroupPredKind) (weight : UInt32) (tags : List Tag)
    (singular : String) : Alternative :=
  { Alternative.bare name (some (.groupPred kind)) with
    weight := weight, tags := .ofList tags, singular := some singular }

/-- The rules. -/
def standardRules : List Alternative :=
  [ruleOf "every" .every 7 [.noun, .nounPred] [] "Every %1 is %2",
    ruleOf "exists" .exists 7 [.noun, .nounPred] [] "There is a %1 that is %2",
    ruleOf "none" .noneIs 7 [.noun, .nounPred] [] "No %1 is %2",
    ruleOf "every_group" .everyGroup 20 [.group, .groupPred] [] "%1 %2",
    ruleOf "row_filled" .rowFilled 7 [.noun] [.position] "There is a row filled with $1",
    ruleOf "column_filled" .columnFilled 7 [.noun] [.position] "There is a column filled with $1"]

/-- The nouns. -/
def standardNouns : List Alternative :=
  [nounOf "color" .color 20 (some colorTexts) [.color] "@ symbol" "@ symbols",
    nounOf "shape" .shape 20 (some shapeTexts) [.shape] "@" "@s",
    nounOf "row" .row 20 (some rowTexts) [.position] "symbol in the @ row" "symbols in the @ row",
    nounOf "column" .column 20 (some columnTexts) [.position]
      "symbol in the @ column" "symbols in the @ column",
    nounOf "blank" .blank 10 none [.shape, .color] "blank cell" "blank cells"]

/-- The noun predicates. The noun of `adjacent` is chosen apart. -/
def standardNounPreds : List Alternative :=
  [nounPredOf "color" .color 10 colorTexts [.color] "@" none,
    nounPredOf "shape" .shape 10 shapeTexts [.shape] "a @" (some "@s"),
    nounPredOf "row" .row 10 rowTexts [.position] "in the @ row" none,
    nounPredOf "column" .column 10 columnTexts [.position] "in the @ column" none,
    { Alternative.bare "adjacent" (some (.nounPred .adjacentTo)) with
      weight := 15, slots := [.noun], tags := .ofList [.position], independent := true,
      singular := some "adjacent to a %1" }]

/-- The groups. -/
def standardGroups : List Alternative :=
  [groupOf "all" .allSymbols 20 [] "All symbols",
    groupOf "rows" .rows 10 [.position] "Symbols in the same row",
    groupOf "columns" .columns 10 [.position] "Symbols in the same column",
    groupOf "same_color" .sameColor 10 [.color] "Symbols with the same color",
    groupOf "same_shape" .sameShape 10 [.shape] "Symbols with the same shape",
    groupOf "identical" .identical 10 [.shape, .color] "Identical symbols",
    groupOf "adjacent" .adjacentPairs 20 [.position] "Adjacent symbols"]

/-- The group predicates. The weight 0 keeps `identical` from being chosen. -/
def standardGroupPreds : List Alternative :=
  [groupPredOf "same_color" .sameColor 20 [.color] "are the same color",
    groupPredOf "different_colors" .differentColors 10 [.color] "are different colors",
    groupPredOf "same_shape" .sameShape 20 [.shape] "are the same shape",
    groupPredOf "different_shapes" .differentShapes 10 [.shape] "are different shapes",
    groupPredOf "same_color_or_shape" .sameColorOrShape 20 [.color, .shape] "are the same color or shape",
    groupPredOf "identical" .identical 0 [.color, .shape] "are identical",
    groupPredOf "connected" .connected 20 [.position] "form a connected cluster"]

/-- The standard grammar. -/
def standard : Grammar where
  alternatives
    | .rule => standardRules
    | .noun => standardNouns
    | .nounPred => standardNounPreds
    | .group => standardGroups
    | .groupPred => standardGroupPreds

end HiddenRule.Grammar
