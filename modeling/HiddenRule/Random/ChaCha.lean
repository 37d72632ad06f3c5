import HiddenRule.Random.Source

/-
  A seeded source of words: the ChaCha stream cipher with twelve rounds. The
  key is stretched from a 64-bit seed by a congruential generator with
  permuted output; the blocks are numbered from 0 on, and their words are read
  in order.
-/

namespace HiddenRule.ChaCha

/-- The state of the cipher: sixteen words. -/
abbrev State := Vector UInt32 16

/-- A word with its bits moved up cyclically. -/
def rotateLeft (x : UInt32) (n : UInt32) : UInt32 := (x <<< n) ||| (x >>> (32 - n))

/-- One step of a quarter round: a word is added to a second, and a third,
combined with the sum, is rotated. -/
def mix (s : State) (a b d : Fin 16) (n : UInt32) : State :=
  let sum := s[a] + s[b]
  (s.set a sum).set d (rotateLeft (s[d] ^^^ sum) n)

/-- The quarter round on four words of the state. -/
def quarterRound (s : State) (a b c d : Fin 16) : State :=
  mix (mix (mix (mix s a b d 16) c d b 12) a b d 8) c d b 7

/-- A round over the columns and a round over the diagonals. -/
def doubleRound (s : State) : State :=
  let columns := quarterRound (quarterRound (quarterRound (quarterRound s 0 4 8 12) 1 5 9 13) 2 6 10 14) 3 7 11 15
  quarterRound (quarterRound (quarterRound (quarterRound columns 0 5 10 15) 1 6 11 12) 2 7 8 13) 3 4 9 14

/-- The state after a number of double rounds. -/
def rounds : Nat → State → State
  | 0, s => s
  | n + 1, s => rounds n (doubleRound s)

/-- The constant words at the start of the state. -/
def constants : List UInt32 := [0x61707865, 0x3320646e, 0x79622d32, 0x6b206574]

/-- The state that a block starts from: the constants, the key, the number of
the block and an empty stream number. -/
def initial (key : List UInt32) (block : UInt64) : State :=
  let words := constants ++ key ++ [block.toUInt32, (block >>> 32).toUInt32, 0, 0]
  Vector.ofFn fun i => words.getD i 0

/-- The words of a block: the state it starts from, added to that state after
twelve rounds. -/
def blockWords (key : List UInt32) (block : UInt64) : List UInt32 :=
  let start := initial key block
  (Vector.zipWith (· + ·) (rounds 6 start) start).toList

/-! ## Keys from seeds -/

/-- The next state of the generator that stretches a seed. -/
def stretch (seed : UInt64) : UInt64 := seed * 6364136223846793005 + 11634580027462260723

/-- The word read from a state of that generator. -/
def permuted (state : UInt64) : UInt32 :=
  let x := (((state >>> 18) ^^^ state) >>> 27).toUInt32
  let n := (state >>> 59).toUInt32
  (x >>> n) ||| (x <<< ((32 - n) % 32))

/-- The words that a seed is stretched to. -/
def keyWords : Nat → UInt64 → List UInt32
  | 0, _ => []
  | n + 1, seed => permuted (stretch seed) :: keyWords n (stretch seed)

end HiddenRule.ChaCha

namespace HiddenRule

/-- A source of words that a seed determines: the key, the number of the next
block, and the words of the last block not yet read. -/
structure Seeded where
  key : List UInt32
  block : UInt64
  pending : List UInt32

namespace Seeded

/-- The source of a seed. -/
def ofSeed (seed : UInt64) : Seeded := ⟨ChaCha.keyWords 8 seed, 0, []⟩

/-- The next word, and the source after it. -/
def next (s : Seeded) : UInt32 × Seeded :=
  match s.pending with
  | word :: rest => (word, { s with pending := rest })
  | [] =>
    let words := ChaCha.blockWords s.key s.block
    (words.headD 0, { s with block := s.block + 1, pending := words.tail })

instance : WordSource Seeded where
  next32 := next
  next64 s :=
    let (low, s) := s.next
    let (high, s) := s.next
    (high.toUInt64 <<< 32 ||| low.toUInt64, s)

end Seeded

end HiddenRule
