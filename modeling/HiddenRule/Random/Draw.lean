import HiddenRule.Random.Halving

/-
  Draws: values that depend on uniform choices. A draw is a tree. It is done
  with a value, or it asks for one of `count` equally likely values and goes
  on with the one it is given. Nothing here says where the values come from:
  a draw can be run over a source of words, or read as a distribution. A draw
  is stuck where a bound on its depth is used up; it then has no value.
-/

namespace HiddenRule

/-- How a uniform value is read from words: from 64-bit words for an index in
a range, from 32-bit words for an exchange in a shuffle and for a weighted
choice. -/
inductive Reading where
  | index
  | exchange
  | weight
  deriving DecidableEq, Repr

/-- A request for one of the values below `count`, all equally likely. -/
structure Question where
  reading : Reading
  count : Nat
  deriving DecidableEq, Repr

/-- A value that depends on uniform choices. -/
inductive Draw (α : Type) where
  /-- Nothing is left to choose. -/
  | done (value : α)
  /-- The depth allowed is used up. -/
  | stuck
  /-- A choice, and what follows each of its values. -/
  | ask (question : Question) (next : Nat → Draw α)

namespace Draw

variable {α β : Type}

/-- A draw that goes on with the value of another. -/
def bind : Draw α → (α → Draw β) → Draw β
  | done a, f => f a
  | stuck, _ => stuck
  | ask q next, f => ask q fun v => (next v).bind f

instance : Monad Draw where
  pure := done
  bind := bind

@[simp] theorem pure_eq_done (a : α) : (pure a : Draw α) = done a := rfl

@[simp] theorem done_bind (a : α) (f : α → Draw β) : (done a >>= f) = f a := rfl

@[simp] theorem stuck_bind (f : α → Draw β) : ((stuck : Draw α) >>= f) = stuck := rfl

@[simp] theorem ask_bind (q : Question) (next : Nat → Draw α) (f : α → Draw β) :
    (ask q next >>= f) = ask q fun v => next v >>= f := rfl

/-! ## Choices -/

/-- A value below `n`. -/
def lessThan (n : Nat) : Draw Nat := ask ⟨.index, n⟩ done

/-- A value between two bounds, both included. -/
def between (lo hi : Nat) : Draw Nat := do
  let k ← lessThan (hi - lo + 1)
  return lo + k

/-- The sums of the weights up to each candidate, itself included, after a sum
so far. Weights and sums are numbers of 32 bits, and the sums wrap around. -/
def sums : (before : UInt32) → List (α × Nat) → List UInt32
  | _, [] => []
  | before, (_, w) :: rest => (before + UInt32.ofNat w) :: sums (before + UInt32.ofNat w) rest

/-- The last of the sums, 0 where there is no candidate. -/
def weightSum (candidates : List (α × Nat)) : UInt32 := (sums 0 candidates).getLast?.getD 0

/-- Whether a value is past the candidate at a position: the sum up to it does
not exceed the value. -/
def isPast (x : Nat) (candidates : List (α × Nat)) (i : Nat) : Bool :=
  (sums 0 candidates)[i]?.any fun sum => sum.toNat ≤ x

/-- The candidate that a value falls to: the one that the value is not past, with
the one before it passed. All candidates but the last are searched by halving, and
the last is left where the value is past them. -/
def pick (x : Nat) (candidates : List (α × Nat)) : Option α :=
  (candidates[halving (isPast x candidates) (candidates.length - 1)]?).map Prod.fst

/-- One of the candidates, by weight: each as often as its weight says while all
weights together are below `2 ^ 32`. Nothing is asked if the last sum is 0, as it
is where no candidate has a weight. -/
def weighted (candidates : List (α × Nat)) : Draw (Option α) :=
  if weightSum candidates = 0 then done none
  else do
    let x ← ask ⟨.weight, (weightSum candidates).toNat⟩ done
    return pick x candidates

/-- The list with its items from position `i` down to position 1 each
exchanged with one at or before it. -/
def exchangeFrom : (i : Nat) → Array α → Draw (Array α)
  | 0, items => return items
  | i + 1, items => do
    let j ← ask ⟨.exchange, i + 2⟩ done
    exchangeFrom i (items.swapIfInBounds (i + 1) j)

/-- The items in a random order. -/
def shuffle (items : List α) : Draw (List α) := do
  let shuffled ← exchangeFrom (items.length - 1) items.toArray
  return shuffled.toList

end Draw

end HiddenRule
