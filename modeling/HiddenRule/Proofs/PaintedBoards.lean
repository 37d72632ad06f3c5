import HiddenRule.Proofs.Classes
import HiddenRule.Sampling.Fill

/-
  Boards painted place by place, as examples of what a rule accepts and what
  it rejects. Most of them leave open which contents they are painted with, so
  that one board serves every noun with every attribute.

  What is proved:
    1. `standard_allows`: three symbols are enough for the standard fill.
    2. `exists_tells`, `exists_symbols`: every noun that is not about lines tells
       some content from some symbol, and so does every color and every shape.
    3. `exists_class_of_uniform`, `exists_class_of_latin`: what the classes of
       two boards hold.
    4. `linked_univ`, `not_linked_corners`: the whole board hangs together, and
       its corners do not.
-/

namespace HiddenRule

/-- Whether a board has as many symbols as a range allows. -/
def FillRange.Allows (range : FillRange) (b : Board) : Prop :=
  range.lo ≤ b.symbolCount ∧ b.symbolCount ≤ range.hi

instance (range : FillRange) (b : Board) : Decidable (range.Allows b) :=
  inferInstanceAs (Decidable (_ ∧ _))

namespace Board

/-- The board with a given content at every place. -/
def paint (f : Place → Option Symbol) : Board := ofCells (Cell.all.map fun i => f (Place.ofCell i))

@[simp] theorem symbolAt_paint (f : Place → Option Symbol) (p : Place) : (paint f).symbolAt p = f p := by
  have hlt : p.cell < 9 := p.cell_lt
  rw [symbolAt, paint, get_ofCells, if_pos p.cell_lt]
  simp [Cell.all, Cell.count, hlt, Place.ofCell_cell]

/-- Three symbols are enough for the standard fill, and no board has too many. -/
theorem standard_allows {b : Board} (p q r : Place) (hp : b.OccupiedAt p) (hq : b.OccupiedAt q)
    (hr : b.OccupiedAt r) (hdistinct : [p, q, r].Nodup) : FillRange.standard.Allows b := by
  have hoccupied : ∀ {p : Place}, b.OccupiedAt p → p.cell ∈ b.occupied := fun {p} h =>
    List.mem_filter.mpr ⟨Cell.mem_all.mpr p.cell_lt, (isOccupied_cell p).mpr h⟩
  have hcells : [p.cell, q.cell, r.cell].Nodup := hdistinct.map fun _ _ => Place.cell_injective
  refine ⟨?_, ?_⟩
  · show 3 ≤ b.occupied.length
    refine (List.subperm_of_subset hcells ?_).length_le
    simp [hoccupied hp, hoccupied hq, hoccupied hr]
  · show b.occupied.length ≤ 9
    exact List.length_filter_le _ _

/-! ## Boards -/

/-- One symbol everywhere. -/
def uniform (z : Symbol) : Board := paint fun _ => some z

/-- One content along the diagonal, and a symbol elsewhere. -/
def slanted (x : Option Symbol) (z : Symbol) : Board := paint fun p => if p.1 = p.2 then x else some z

/-- One content in two opposite corners, another one beside the first of them,
and a symbol elsewhere. -/
def beside (x y : Option Symbol) (z : Symbol) : Board :=
  paint fun p => if p.cell = 0 ∨ p.cell = 8 then x else if p.cell = 1 then y else some z

/-- One content in the last row and the last column, and a symbol elsewhere. -/
def edged (x : Option Symbol) (z : Symbol) : Board := paint fun p => if p.1.val = 2 ∨ p.2.val = 2 then x else some z

/-- A line without symbols, the lines being numbered along the board. -/
def lineless (line : Place → Fin 3) (r : Fin 3) : Board :=
  paint fun p => if line p = r then none else some ⟨.red, .circle⟩

/-- Three symbols that share nothing. -/
def rainbow : Board := paint fun p =>
  match p with
  | (0, 0) => some ⟨.red, .circle⟩
  | (0, 1) => some ⟨.yellow, .triangle⟩
  | (0, 2) => some ⟨.blue, .square⟩
  | _ => none

/-- Every symbol once, and in no line two that share something. -/
def latin : Board := paint fun p =>
  some ⟨match p.1 + p.2 with
    | 0 => .red
    | 1 => .yellow
    | 2 => .blue,
  match p.1 - p.2 with
    | 0 => .circle
    | 1 => .triangle
    | 2 => .square⟩

/-- One symbol in the four corners. -/
def corners : Board := paint fun p => if p.1.val ≠ 1 ∧ p.2.val ≠ 1 then some ⟨.red, .circle⟩ else none

theorem allows_uniform (z : Symbol) : FillRange.standard.Allows (uniform z) :=
  standard_allows (0, 0) (0, 1) (0, 2) ⟨z, rfl⟩ ⟨z, rfl⟩ ⟨z, rfl⟩ (by decide)

theorem allows_slanted (x : Option Symbol) (z : Symbol) : FillRange.standard.Allows (slanted x z) :=
  standard_allows (0, 1) (0, 2) (1, 0) ⟨z, rfl⟩ ⟨z, rfl⟩ ⟨z, rfl⟩ (by decide)

theorem allows_beside (x y : Option Symbol) (z : Symbol) : FillRange.standard.Allows (beside x y z) :=
  standard_allows (0, 2) (1, 0) (1, 1) ⟨z, rfl⟩ ⟨z, rfl⟩ ⟨z, rfl⟩ (by decide)

theorem allows_edged (x : Option Symbol) (z : Symbol) : FillRange.standard.Allows (edged x z) :=
  standard_allows (0, 0) (0, 1) (1, 0) ⟨z, rfl⟩ ⟨z, rfl⟩ ⟨z, rfl⟩ (by decide)

theorem allows_rowless : ∀ r, FillRange.standard.Allows (lineless Prod.fst r) := by decide

theorem allows_columnless : ∀ c, FillRange.standard.Allows (lineless Prod.snd c) := by decide

theorem not_occupiedAt_lineless {line : Place → Fin 3} {r : Fin 3} {p : Place} (h : line p = r) :
    ¬(lineless line r).OccupiedAt p := by
  intro hoccupied
  obtain ⟨s, hs⟩ := hoccupied
  rw [lineless, symbolAt_paint, if_pos h] at hs
  contradiction

theorem allows_rainbow : FillRange.standard.Allows rainbow := by decide

theorem allows_latin : FillRange.standard.Allows latin := by decide

theorem allows_corners : FillRange.standard.Allows corners := by decide

end Board

/-! ## Contents that are told apart -/

/-- Whether a reading is true of the places with one content, on every board,
and false of those with another one. -/
structure Tells (reading : Board → Place → Prop) (x z : Option Symbol) : Prop where
  holds : ∀ b p, b.symbolAt p = x → reading b p
  fails : ∀ b p, b.symbolAt p = z → ¬reading b p

theorem Color.exists_index {i : Nat} (h : i < 3) : ∃ c d : Color, c.index = i ∧ d.index ≠ i := by
  match i, h with
  | 0, _ => exact ⟨.red, .yellow, rfl, by decide⟩
  | 1, _ => exact ⟨.yellow, .red, rfl, by decide⟩
  | 2, _ => exact ⟨.blue, .red, rfl, by decide⟩

theorem Shape.exists_index {i : Nat} (h : i < 3) : ∃ s t : Shape, s.index = i ∧ t.index ≠ i := by
  match i, h with
  | 0, _ => exact ⟨.circle, .triangle, rfl, by decide⟩
  | 1, _ => exact ⟨.triangle, .circle, rfl, by decide⟩
  | 2, _ => exact ⟨.square, .circle, rfl, by decide⟩

namespace Board

variable {b : Board} {p : Place} {s : Symbol}

theorem exists_colorAt_iff (h : b.symbolAt p = some s) (choice : Nat) :
    (∃ c, b.colorAt p = some c ∧ c.index = choice) ↔ s.color.index = choice := by
  simp [colorAt, h]

theorem exists_shapeAt_iff (h : b.symbolAt p = some s) (choice : Nat) :
    (∃ t, b.shapeAt p = some t ∧ t.index = choice) ↔ s.shape.index = choice := by
  simp [shapeAt, h]

end Board

/-- A color is told by symbols of any given shape. -/
theorem tells_color {choice : Nat} {c d : Color} (hc : c.index = choice) (hd : d.index ≠ choice)
    (s : Shape) :
    Tells (fun b p => ∃ c, b.colorAt p = some c ∧ c.index = choice) (some ⟨c, s⟩) (some ⟨d, s⟩) where
  holds := fun _ _ h => (Board.exists_colorAt_iff h choice).mpr hc
  fails := fun _ _ h hcolor => hd ((Board.exists_colorAt_iff h choice).mp hcolor)

/-- A shape is told by symbols of any given color. -/
theorem tells_shape {choice : Nat} {s t : Shape} (hs : s.index = choice) (ht : t.index ≠ choice)
    (c : Color) :
    Tells (fun b p => ∃ s, b.shapeAt p = some s ∧ s.index = choice) (some ⟨c, s⟩) (some ⟨c, t⟩) where
  holds := fun _ _ h => (Board.exists_shapeAt_iff h choice).mpr hs
  fails := fun _ _ h hshape => ht ((Board.exists_shapeAt_iff h choice).mp hshape)

/-- A noun that is not about lines is told by some content from some symbol. -/
theorem NounKind.exists_tells {kind : NounKind} {choice : Nat}
    (hlines : (Kind.noun kind).standardTags.position = false)
    (hchoice : choice < max 1 (Kind.noun kind).standardChoices) :
    ∃ x z, Tells (fun b p => kind.Names b choice p) x (some z) := by
  cases kind with
  | color =>
    obtain ⟨c, d, hc, hd⟩ := Color.exists_index hchoice
    exact ⟨_, _, tells_color hc hd .circle⟩
  | shape =>
    obtain ⟨s, t, hs, ht⟩ := Shape.exists_index hchoice
    exact ⟨_, _, tells_shape hs ht .red⟩
  | row => contradiction
  | column => contradiction
  | blank =>
    refine ⟨none, ⟨.red, .circle⟩, ?_, ?_⟩
    · intro b p h hoccupied
      obtain ⟨s, hs⟩ := hoccupied
      rw [h] at hs
      contradiction
    · intro b p h hblank
      exact hblank ⟨_, h⟩

/-! ## Classes of the boards -/

/-- The members of a class are occupied. -/
theorem GroupKind.occupiedAt_of_isClass {b : Board} {kind : GroupKind} {S : Set Place}
    (h : kind.IsClass b S) : ∀ p ∈ S, b.OccupiedAt p := by
  obtain ⟨cells, hcells, rfl⟩ := kind.isClass_iff.mp h
  exact (Board.lists_of_mem_groups kind hcells).occupiedAt

/-- A class of a kind that is not about lines holds all places with a content
or none of them. -/
theorem GroupKind.mem_of_symbolAt_eq {b : Board} {kind : GroupKind} {S : Set Place}
    (hlines : (Kind.group kind).standardTags.position = false) (h : kind.IsClass b S) {p q : Place}
    (hp : p ∈ S) (hcontent : b.symbolAt q = b.symbolAt p) : q ∈ S := by
  have hcolor : b.colorAt q = b.colorAt p := congrArg (Option.map Symbol.color) hcontent
  have hshape : b.shapeAt q = b.shapeAt p := congrArg (Option.map Symbol.shape) hcontent
  cases kind with
  | rows => contradiction
  | columns => contradiction
  | adjacentPairs => contradiction
  | allSymbols =>
    subst h
    obtain ⟨s, hs⟩ := hp
    exact ⟨s, hcontent.trans hs⟩
  | sameColor =>
    obtain ⟨c, rfl⟩ := h
    exact hcolor.trans hp
  | sameShape =>
    obtain ⟨s, rfl⟩ := h
    exact hshape.trans hp
  | identical =>
    obtain ⟨c, s, rfl⟩ := h
    exact hcontent.trans hp

namespace Board

/-- Every kind has a class with two members on a board of one symbol. -/
theorem exists_class_of_uniform (kind : GroupKind) (z : Symbol) :
    ∃ S, kind.IsClass (uniform z) S ∧ ∃ p ∈ S, ∃ q ∈ S, p ≠ q := by
  have hrow : ((0, 0) : Place) ≠ (0, 1) := by decide
  have hcolumn : ((0, 0) : Place) ≠ (1, 0) := by decide
  cases kind with
  | allSymbols => exact ⟨_, rfl, (0, 0), ⟨z, rfl⟩, (0, 1), ⟨z, rfl⟩, hrow⟩
  | rows => exact ⟨_, ⟨0, rfl⟩, (0, 0), ⟨⟨z, rfl⟩, rfl⟩, (0, 1), ⟨⟨z, rfl⟩, rfl⟩, hrow⟩
  | columns => exact ⟨_, ⟨0, rfl⟩, (0, 0), ⟨⟨z, rfl⟩, rfl⟩, (1, 0), ⟨⟨z, rfl⟩, rfl⟩, hcolumn⟩
  | sameColor => exact ⟨_, ⟨z.color, rfl⟩, (0, 0), rfl, (0, 1), rfl, hrow⟩
  | sameShape => exact ⟨_, ⟨z.shape, rfl⟩, (0, 0), rfl, (0, 1), rfl, hrow⟩
  | identical => exact ⟨_, ⟨z.color, z.shape, rfl⟩, (0, 0), rfl, (0, 1), rfl, hrow⟩
  | adjacentPairs =>
    exact ⟨_, ⟨(0, 0), (0, 1), ⟨z, rfl⟩, ⟨z, rfl⟩, rfl, rfl⟩, (0, 0), .inl rfl, (0, 1), .inr rfl, hrow⟩

/-- On a board of one symbol all places are of one color and of one shape. -/
theorem trueOn_uniform (z : Symbol) (S : Set Place) :
    GroupPredKind.sameColor.TrueOn (uniform z) S ∧ GroupPredKind.sameShape.TrueOn (uniform z) S := by
  have halike : ∀ p q, (uniform z).symbolAt p = (uniform z).symbolAt q := by
    intro p q
    rw [uniform, symbolAt_paint, symbolAt_paint]
  refine ⟨?_, ?_⟩
  · intro p _ q _
    exact congrArg (Option.map Symbol.color) (halike p q)
  · intro p _ q _
    exact congrArg (Option.map Symbol.shape) (halike p q)

/-- The symbols of a rainbow differ in color and in shape. -/
theorem rainbow_differs : ∀ p q : Place, rainbow.OccupiedAt p → rainbow.OccupiedAt q → p ≠ q →
    rainbow.colorAt p ≠ rainbow.colorAt q ∧ rainbow.shapeAt p ≠ rainbow.shapeAt q := by
  have htable : ∀ p q : Place, rainbow.isOccupied p.cell = true → rainbow.isOccupied q.cell = true →
      p ≠ q → rainbow.colorAt p ≠ rainbow.colorAt q ∧ rainbow.shapeAt p ≠ rainbow.shapeAt q := by decide
  intro p q hp hq
  exact htable p q ((isOccupied_cell p).mpr hp) ((isOccupied_cell q).mpr hq)

/-- Of a latin board, every kind has a class with two members that differ in
color, unless the kind is about color, and in shape, unless it is about shape. -/
theorem exists_class_of_latin (kind : GroupKind) : ∃ S, kind.IsClass latin S ∧ ∃ p ∈ S, ∃ q ∈ S,
    ((Kind.group kind).standardTags.color = false → latin.colorAt p ≠ latin.colorAt q) ∧
      ((Kind.group kind).standardTags.shape = false → latin.shapeAt p ≠ latin.shapeAt q) := by
  cases kind with
  | allSymbols => exact ⟨_, rfl, (0, 0), ⟨_, rfl⟩, (0, 1), ⟨_, rfl⟩, by decide⟩
  | rows => exact ⟨_, ⟨0, rfl⟩, (0, 0), ⟨⟨_, rfl⟩, rfl⟩, (0, 1), ⟨⟨_, rfl⟩, rfl⟩, by decide⟩
  | columns => exact ⟨_, ⟨0, rfl⟩, (0, 0), ⟨⟨_, rfl⟩, rfl⟩, (1, 0), ⟨⟨_, rfl⟩, rfl⟩, by decide⟩
  | sameColor => exact ⟨_, ⟨.red, rfl⟩, (0, 0), rfl, (1, 2), rfl, by decide⟩
  | sameShape => exact ⟨_, ⟨.circle, rfl⟩, (0, 0), rfl, (1, 1), rfl, by decide⟩
  | identical => exact ⟨_, ⟨.red, .circle, rfl⟩, (0, 0), rfl, (0, 0), rfl, by decide⟩
  | adjacentPairs =>
    exact ⟨_, ⟨(0, 0), (0, 1), ⟨_, rfl⟩, ⟨_, rfl⟩, rfl, rfl⟩, (0, 0), .inl rfl, (0, 1), .inr rfl,
      by decide⟩

/-- From anywhere to anywhere on the board. -/
theorem linked_univ (p q : Place) : Place.Linked Set.univ p q := by
  have hcluster : Cell.connected Cell.all = true := by decide +kernel
  have hall : Place.ofCells Cell.all = Set.univ :=
    Set.eq_univ_of_forall fun p => Cell.mem_all.mpr p.cell_lt
  rw [Place.connected_iff_linked fun i hi => Cell.mem_all.mp hi, hall] at hcluster
  exact hcluster p trivial q trivial

/-- From the first corner there is no way over corners to another place. -/
theorem not_linked_corners {S : Set Place} (hS : ∀ p ∈ S, corners.OccupiedAt p) {q : Place} (hq : (0, 0) ≠ q) :
    ¬Place.Linked S (0, 0) q := by
  have halone : ∀ p : Place, Place.distance (0, 0) p = 1 → corners.isOccupied p.cell = false := by decide
  intro hlinked
  rcases hlinked.cases_head with heq | ⟨p, hstep, -⟩
  · exact hq heq
  · have hoccupied := (isOccupied_cell p).mpr (hS p hstep.2.1)
    rw [halone p hstep.2.2] at hoccupied
    contradiction

end Board

end HiddenRule
