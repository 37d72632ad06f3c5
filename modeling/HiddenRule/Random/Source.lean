import HiddenRule.Random.Draw

/-
  Sources of words, and draws run over them. A question is answered from the
  first word that its reading accepts: the words are spread evenly over the
  values, and the words left over are rejected. A run is given a bound on the
  words read for one question, and has no value if the bound is used up.
-/

namespace HiddenRule

/-- A source of random words, short and long. -/
class WordSource (σ : Type) where
  next32 : σ → UInt32 × σ
  next64 : σ → UInt64 × σ

namespace Reading

/-- The number of bits in a word of the reading. -/
def bits : Reading → Nat
  | index => 64
  | exchange => 32
  | weight => 32

/-- The next word of the reading. -/
def next {σ : Type} [WordSource σ] : Reading → σ → Nat × σ
  | index, s => ((WordSource.next64 s).1.toNat, (WordSource.next64 s).2)
  | exchange, s => ((WordSource.next32 s).1.toNat, (WordSource.next32 s).2)
  | weight, s => ((WordSource.next32 s).1.toNat, (WordSource.next32 s).2)

end Reading

namespace Question

/-- The number of words. -/
def span (q : Question) : Nat := 1 <<< q.reading.bits

/-- The largest low half of a product that is accepted. For a weighted choice
it leaves out as few words as it can; otherwise it is the count, moved up
until its highest bit is that of the word, less one. -/
def zone (q : Question) : Nat :=
  match q.reading with
  | .weight => q.span - 1 - q.span % q.count
  | _ => q.count <<< (q.reading.bits - 1 - q.count.log2) - 1

/-- Whether a word is accepted: the low half of its product with the count
lies in the zone. -/
def accepts (q : Question) (word : Nat) : Bool := word * q.count % q.span ≤ q.zone

/-- The value of an accepted word: the high half of its product with the
count. -/
def value (q : Question) (word : Nat) : Nat := word * q.count / q.span

/-- The value of the first accepted word, if one comes within the bound. -/
def settle {σ : Type} [WordSource σ] (q : Question) : (patience : Nat) → σ → Option (Nat × σ)
  | 0, _ => none
  | patience + 1, s =>
    let (word, after) := q.reading.next s
    if q.accepts word then some (q.value word, after) else q.settle patience after

end Question

namespace Draw

/-- The value of a draw over a source, and the source after it. There is none
if the draw is stuck, or if a question stays open after as many words as the
patience allows. -/
def run {σ α : Type} [WordSource σ] (patience : Nat) : Draw α → σ → Option (α × σ)
  | done a, s => some (a, s)
  | stuck, _ => none
  | ask q next, s =>
    match q.settle patience s with
    | none => none
    | some (v, after) => (next v).run patience after

/-- The number of words that the program reads for one question before it
gives up. -/
def patience : Nat := 1 <<< 62

/-- A draw that goes on with the value of another runs where that one ended. -/
theorem run_bind {σ α β : Type} [WordSource σ] (patience : Nat) (d : Draw α) (f : α → Draw β) (s : σ) :
    (d >>= f).run patience s =
      (d.run patience s).bind fun result => (f result.1).run patience result.2 := by
  induction d generalizing s with
  | done a => rfl
  | stuck => rfl
  | ask q next ih =>
    rw [ask_bind]
    simp only [run]
    cases q.settle patience s with
    | none => rfl
    | some result => exact ih result.1 result.2

end Draw

/-! ## Two sources -/

/-- A source that gives the listed words, and zeros when they are used up. A
short word is the low half of the listed one. -/
structure Script where
  words : List Nat

instance : WordSource Script where
  next32 s := (UInt32.ofNat (s.words.headD 0), ⟨s.words.tail⟩)
  next64 s := (UInt64.ofNat (s.words.headD 0), ⟨s.words.tail⟩)

/-- A source together with the numbers of short and long words read from it. -/
structure Counted (σ : Type) where
  source : σ
  short : Nat := 0
  long : Nat := 0

instance {σ : Type} [WordSource σ] : WordSource (Counted σ) where
  next32 s :=
    let (word, after) := WordSource.next32 s.source
    (word, { s with source := after, short := s.short + 1 })
  next64 s :=
    let (word, after) := WordSource.next64 s.source
    (word, { s with source := after, long := s.long + 1 })

end HiddenRule
