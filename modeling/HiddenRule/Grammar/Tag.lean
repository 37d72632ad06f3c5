/-
  Tags: labels that keep redundant fragments out of one rule. A fragment is
  not chosen where one of its tags is already active.
-/

namespace HiddenRule

/-- A tag. -/
inductive Tag where
  | color
  | shape
  | position
  deriving DecidableEq, Repr

namespace Tag

/-- The three tags, in order. -/
def all : List Tag := [color, shape, position]

/-- The name of a tag. -/
def name : Tag → String
  | color => "color"
  | shape => "shape"
  | position => "position"

/-- The name of a tag with a capital. -/
def title : Tag → String
  | color => "Color"
  | shape => "Shape"
  | position => "Position"

end Tag

/-- A set of tags. -/
structure TagSet where
  color : Bool
  shape : Bool
  position : Bool
  deriving DecidableEq, Repr

namespace TagSet

/-- The set without tags. -/
def empty : TagSet := ⟨false, false, false⟩

/-- Whether a tag is in the set. -/
def contains (s : TagSet) : Tag → Bool
  | .color => s.color
  | .shape => s.shape
  | .position => s.position

/-- The set of one tag. -/
def single (t : Tag) : TagSet := ⟨t == .color, t == .shape, t == .position⟩

/-- The tags of either set. -/
def union (s t : TagSet) : TagSet :=
  ⟨s.color || t.color, s.shape || t.shape, s.position || t.position⟩

/-- The set with one more tag. -/
def insert (s : TagSet) (t : Tag) : TagSet := s.union (single t)

/-- The set of the listed tags. -/
def ofList (ts : List Tag) : TagSet := ts.foldl insert empty

/-- Whether the two sets share a tag. -/
def intersects (s t : TagSet) : Bool :=
  s.color && t.color || s.shape && t.shape || s.position && t.position

/-- Whether the set has no tags. -/
def isEmpty (s : TagSet) : Bool := s == empty

/-- The tags in the set, in order. -/
def toList (s : TagSet) : List Tag := Tag.all.filter s.contains

/-- The tags in the set, between braces. -/
def text (s : TagSet) : String := "\x7b" ++ ", ".intercalate (s.toList.map Tag.title) ++ "\x7d"

@[simp] theorem contains_empty (t : Tag) : empty.contains t = false := by cases t <;> rfl

@[simp] theorem contains_union (s t : TagSet) (x : Tag) :
    (s.union t).contains x = (s.contains x || t.contains x) := by cases x <;> rfl

@[simp] theorem contains_single (t x : Tag) : (single t).contains x = (t == x) := by
  cases t <;> cases x <;> rfl

/-- Sets with the same tags are equal. -/
theorem ext_contains {s t : TagSet} (h : ∀ x, s.contains x = t.contains x) : s = t := by
  cases s with
  | mk c sh p =>
    cases t with
    | mk c' sh' p' =>
      have hc := h .color
      have hs := h .shape
      have hp := h .position
      simp only [contains] at hc hs hp
      rw [hc, hs, hp]

theorem intersects_eq_true_iff {s t : TagSet} :
    s.intersects t = true ↔ ∃ x, s.contains x = true ∧ t.contains x = true := by
  constructor
  · intro h
    simp only [intersects, Bool.or_eq_true, Bool.and_eq_true] at h
    rcases h with (h | h) | h
    · exact ⟨.color, h⟩
    · exact ⟨.shape, h⟩
    · exact ⟨.position, h⟩
  · rintro ⟨x, hs, ht⟩
    cases x <;> simp only [contains] at hs ht <;> simp [intersects, hs, ht]

end TagSet

end HiddenRule
