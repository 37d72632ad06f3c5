import HiddenRule.Proofs.WeightSums

/-
  Words that lead a draw to a value. Every value below a count is the value of
  some word that the question accepts, as long as there are as many words as
  values; so a draw can be led along any path of answers, with one word for
  each question. `Traced` records the widths of the words read, so that a run
  also tells which questions it went through.

  What is proved:
    1. `Question.exists_accepted`: a word for each answer, the first one read.
    2. `steers_bind`: the words for a draw that goes on with another are those
       for the one and those for the other.
    3. `exists_steers_weighted`, `exists_steers_lessThan`: a word for each
       candidate of a weighted choice, and for each value below a count.
-/

namespace HiddenRule

/-- The width of a word. -/
inductive Width where
  | short
  | long
  deriving DecidableEq, Repr

/-- The width of the words of a reading. -/
def Reading.width : Reading → Width
  | index => .long
  | exchange => .short
  | weight => .short

/-- A source together with the widths of the words read from it, in order. -/
structure Traced (σ : Type) where
  source : σ
  trace : List Width

instance {σ : Type} [WordSource σ] : WordSource (Traced σ) where
  next32 s :=
    let (word, after) := WordSource.next32 s.source
    (word, ⟨after, s.trace ++ [.short]⟩)
  next64 s :=
    let (word, after) := WordSource.next64 s.source
    (word, ⟨after, s.trace ++ [.long]⟩)

namespace Question

variable {q : Question}

theorem span_weight (n : Nat) : span ⟨.weight, n⟩ = UInt32.size := rfl

/-- The low halves below the count are all accepted. -/
theorem pred_count_le_zone (hpos : 0 < q.count) (hspan : q.count ≤ q.span) : q.count - 1 ≤ q.zone := by
  have hscaled : q.count ≤ q.count <<< (q.reading.bits - 1 - q.count.log2) := by
    rw [Nat.shiftLeft_eq]
    exact Nat.le_mul_of_pos_right _ (Nat.two_pow_pos _)
  unfold zone
  split
  · -- a multiple of the count is left, and there is one besides zero
    have hparts : q.count * (q.span / q.count) + q.span % q.count = q.span := Nat.div_add_mod _ _
    have hone : q.count * 1 ≤ q.count * (q.span / q.count) :=
      Nat.mul_le_mul_left _ ((Nat.one_le_div_iff hpos).mpr hspan)
    omega
  · omega

/-- Every value below the count is the value of an accepted word: the least
one whose product with the count reaches the value. -/
theorem exists_accepted {v : Nat} (hv : v < q.count) (hspan : q.count ≤ q.span) :
    ∃ word < q.span, q.accepts word = true ∧ q.value word = v := by
  have hpos : 0 < q.count := by omega
  have hzone := pred_count_le_zone hpos hspan
  obtain ⟨n, hn⟩ : ∃ n, q.count = n + 1 := ⟨q.count - 1, by omega⟩
  -- rounding up adds at most `n` to the product
  let word := (v * q.span + n) / q.count
  have hround : word * q.count + (v * q.span + n) % q.count = v * q.span + n :=
    Nat.div_add_mod' _ _
  have hrest : (v * q.span + n) % q.count < q.count := Nat.mod_lt _ hpos
  obtain ⟨e, he, hword⟩ : ∃ e ≤ n, word * q.count = v * q.span + e :=
    ⟨n - (v * q.span + n) % q.count, by omega, by omega⟩
  have hlow : e < q.span := by omega
  refine ⟨word, ?_, ?_, ?_⟩
  · have hproduct : word * q.count < q.span * q.count := by
      calc word * q.count = v * q.span + e := hword
        _ < v * q.span + q.span := by omega
        _ = (v + 1) * q.span := by rw [Nat.succ_mul]
        _ ≤ q.count * q.span := Nat.mul_le_mul_right _ hv
        _ = q.span * q.count := Nat.mul_comm _ _
    exact Nat.lt_of_mul_lt_mul_right hproduct
  · have hhalf : word * q.count % q.span = e := by
      rw [hword, Nat.mul_comm, Nat.mul_add_mod, Nat.mod_eq_of_lt hlow]
    simp only [accepts, hhalf, decide_eq_true_eq]
    omega
  · show word * q.count / q.span = v
    rw [hword, Nat.mul_comm, Nat.mul_add_div (by omega), Nat.div_eq_of_lt hlow, Nat.add_zero]

theorem next_traced {r : Reading} {word : Nat} (hword : word < 1 <<< r.bits) (rest : List Nat)
    (trace : List Width) :
    r.next (⟨⟨word :: rest⟩, trace⟩ : Traced Script) = (word, ⟨⟨rest⟩, trace ++ [r.width]⟩) := by
  cases r with
  | index =>
    have hfits : (UInt64.ofNat word).toNat = word := UInt64.toNat_ofNat_of_lt' hword
    show ((UInt64.ofNat word).toNat, _) = _
    rw [hfits]
    rfl
  | exchange | weight =>
    have hfits : (UInt32.ofNat word).toNat = word := UInt32.toNat_ofNat_of_lt' hword
    show ((UInt32.ofNat word).toNat, _) = _
    rw [hfits]
    rfl

/-- An accepted word settles a question at once. -/
theorem settle_traced {word patience : Nat} (hword : word < q.span) (haccepts : q.accepts word = true)
    (hpatience : 0 < patience) (rest : List Nat) (trace : List Width) :
    q.settle patience (⟨⟨word :: rest⟩, trace⟩ : Traced Script) =
      some (q.value word, ⟨⟨rest⟩, trace ++ [q.reading.width]⟩) := by
  cases patience with
  | zero => omega
  | succ patience => simp only [settle, next_traced hword, haccepts, if_true]

end Question

namespace Draw

variable {α β : Type}

/-- Whether a draw reads words of the given widths and ends with a value,
whatever comes before and after them. As any patience but none suffices, the
first word read for each question is accepted. -/
def Steers (d : Draw α) (words : List Nat) (widths : List Width) (a : α) : Prop :=
  words.length = widths.length ∧ ∀ (patience : Nat) (rest : List Nat) (trace : List Width), 0 < patience →
    d.run patience (⟨⟨words ++ rest⟩, trace⟩ : Traced Script) = some (a, ⟨⟨rest⟩, trace ++ widths⟩)

theorem steers_done (a : α) : (done a).Steers [] [] a := by
  refine ⟨rfl, ?_⟩
  intro patience rest trace _
  simp only [run, List.nil_append, List.append_nil]

theorem steers_bind {d : Draw α} {f : α → Draw β} {words more : List Nat} {widths wider : List Width}
    {a : α} {b : β} (hd : d.Steers words widths a) (hf : (f a).Steers more wider b) :
    (d >>= f).Steers (words ++ more) (widths ++ wider) b := by
  obtain ⟨hlength, hrun⟩ := hd
  obtain ⟨hmore, hnext⟩ := hf
  refine ⟨by simp only [List.length_append, hlength, hmore], ?_⟩
  intro patience rest trace hpatience
  rw [run_bind, List.append_assoc, hrun patience (more ++ rest) trace hpatience, Option.bind_some,
    hnext patience rest (trace ++ widths) hpatience, List.append_assoc]

/-- What is done with a value without asking takes no words. -/
theorem Steers.bind_done {d : Draw α} {f : α → Draw β} {words : List Nat} {widths : List Width} {a : α}
    {b : β} (hd : d.Steers words widths a) (hf : f a = done b) : (d >>= f).Steers words widths b := by
  have hdone : (f a).Steers [] [] b := hf ▸ steers_done b
  have h := steers_bind hd hdone
  rwa [List.append_nil, List.append_nil] at h

/-- Every answer to a question has a word of its own. -/
theorem exists_steers_ask {q : Question} {v : Nat} (hv : v < q.count) (hspan : q.count ≤ q.span) :
    ∃ word, (ask q done).Steers [word] [q.reading.width] v := by
  obtain ⟨word, hword, haccepts, hvalue⟩ := Question.exists_accepted hv hspan
  refine ⟨word, rfl, ?_⟩
  intro patience rest trace hpatience
  have hsettle := Question.settle_traced hword haccepts hpatience rest trace
  simp only [run, List.cons_append, List.nil_append, hsettle, hvalue]

theorem exists_steers_lessThan {n v : Nat} (hv : v < n) (hn : n ≤ UInt64.size) :
    ∃ word, (lessThan n).Steers [word] [.long] v :=
  exists_steers_ask (q := ⟨.index, n⟩) hv hn

/-- Every candidate with a weight has a word of its own, if the weights
together are less than there are words. -/
theorem exists_steers_weighted {candidates : List (α × Nat)} {a : α} {w : Nat}
    (hmem : (a, w) ∈ candidates) (hw : 0 < w) (htotal : totalWeight candidates < UInt32.size) :
    ∃ word, (weighted candidates).Steers [word] [.short] (some a) := by
  obtain ⟨x, hx, hholder⟩ := exists_holder_of_mem hmem hw
  have hsum := toNat_weightSum_of_lt htotal
  have hpos : 0 < totalWeight candidates := by omega
  have hspan : totalWeight candidates ≤ Question.span ⟨.weight, totalWeight candidates⟩ := by
    rw [Question.span_weight]
    omega
  obtain ⟨word, hword⟩ := exists_steers_ask (q := ⟨.weight, totalWeight candidates⟩) hx hspan
  refine ⟨word, ?_⟩
  rw [weighted, if_neg (weightSum_ne_zero hpos htotal), hsum]
  exact hword.bind_done (congrArg done ((pick_eq_holder htotal hx).trans hholder))

end Draw

end HiddenRule
