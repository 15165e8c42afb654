import Mathlib.Data.List.Basic

/-!
# Streams in blocks

A function `compress` takes the state of a machine over one block of `n` items.  A
stream is taken in as many blocks as it has, from the front; what is left of it is
shorter than a block and waits for more (`remainder`).

How a stream is cut does not matter: what is taken in after `xs` and `ys` is what is
taken in after the remainder of `xs` and `ys` together (`absorb_append`).  A machine
that keeps a state and a remainder can be followed with `Absorbed`, whose rules are the
ways in which more of the stream arrives: not enough for a block (`Absorbed.wait`), the
rest of a block (`Absorbed.fill`), and anything at all (`Absorbed.append`).
-/

namespace Blocks

variable {α σ : Type*} (compress : σ → List α → σ) {n : Nat}

/-- The first `k` blocks are taken in. -/
def absorbBlocks (n : Nat) : Nat → σ → List α → σ
  | 0, s, _ => s
  | k + 1, s, xs => absorbBlocks n k (compress s (xs.take n)) (xs.drop n)

@[simp] theorem absorbBlocks_zero (s : σ) (xs : List α) : absorbBlocks compress n 0 s xs = s := rfl

@[simp] theorem absorbBlocks_succ (k : Nat) (s : σ) (xs : List α) :
    absorbBlocks compress n (k + 1) s xs
      = absorbBlocks compress n k (compress s (xs.take n)) (xs.drop n) := rfl

/-- All the blocks of a stream are taken in. -/
def absorb (n : Nat) (s : σ) (xs : List α) : σ := absorbBlocks compress n (xs.length / n) s xs

/-- What is left of a stream behind its blocks. -/
def remainder (n : Nat) (xs : List α) : List α := xs.drop (xs.length / n * n)

theorem remainder_length (xs : List α) : (remainder n xs).length = xs.length % n := by
  rw [remainder, List.length_drop, Nat.mod_eq_sub_div_mul]

theorem remainder_length_lt (hn : 0 < n) (xs : List α) : (remainder n xs).length < n := by
  rw [remainder_length]
  exact Nat.mod_lt _ hn

theorem remainder_of_lt {xs : List α} (h : xs.length < n) : remainder n xs = xs := by
  rw [remainder, Nat.div_eq_of_lt h, Nat.zero_mul, List.drop_zero]

theorem remainder_of_dvd {xs : List α} (h : n ∣ xs.length) : remainder n xs = [] := by
  rw [remainder, Nat.div_mul_cancel h, List.drop_length]

theorem absorb_of_lt (s : σ) {xs : List α} (h : xs.length < n) : absorb compress n s xs = s := by
  rw [absorb, Nat.div_eq_of_lt h, absorbBlocks_zero]

theorem absorb_block (hn : 0 < n) (s : σ) {xs : List α} (h : xs.length = n) :
    absorb compress n s xs = compress s xs := by
  rw [absorb, h, Nat.div_self hn, absorbBlocks_succ, absorbBlocks_zero,
    List.take_of_length_le (Nat.le_of_eq h)]

/-- Blocks are taken in one after another. -/
theorem absorbBlocks_add (j k : Nat) (s : σ) (xs : List α) :
    absorbBlocks compress n (j + k) s xs
      = absorbBlocks compress n k (absorbBlocks compress n j s xs) (xs.drop (j * n)) := by
  induction j generalizing s xs with
  | zero => rw [Nat.zero_add, absorbBlocks_zero, Nat.zero_mul, List.drop_zero]
  | succ j ih =>
      rw [Nat.add_right_comm, absorbBlocks_succ, absorbBlocks_succ, ih, List.drop_drop,
        Nat.succ_mul, Nat.add_comm n]

/-- What comes behind the blocks that are taken in does not matter. -/
theorem absorbBlocks_append {k : Nat} (s : σ) {xs : List α} (ys : List α)
    (h : k * n ≤ xs.length) :
    absorbBlocks compress n k s (xs ++ ys) = absorbBlocks compress n k s xs := by
  induction k generalizing s xs with
  | zero => rfl
  | succ k ih =>
      rw [Nat.succ_mul] at h
      rw [absorbBlocks_succ, absorbBlocks_succ, List.take_append_of_le_length (by omega),
        List.drop_append_of_le_length (by omega)]
      exact ih _ (by rw [List.length_drop]; omega)

theorem length_append_div (hn : 0 < n) (xs ys : List α) :
    (xs ++ ys).length / n = xs.length / n + (remainder n xs ++ ys).length / n := by
  have hsplit : (xs ++ ys).length = (remainder n xs ++ ys).length + xs.length / n * n := by
    rw [List.length_append, List.length_append, remainder_length]
    have hdiv := Nat.div_add_mod xs.length n
    rw [Nat.mul_comm] at hdiv
    omega
  rw [hsplit, Nat.add_mul_div_right _ _ hn, Nat.add_comm]

theorem drop_append_blocks (xs ys : List α) :
    (xs ++ ys).drop (xs.length / n * n) = remainder n xs ++ ys := by
  rw [List.drop_append_of_le_length (Nat.div_mul_le_self _ _), remainder]

/-- **Where a stream is cut does not matter.** -/
theorem absorb_append (hn : 0 < n) (s : σ) (xs ys : List α) :
    absorb compress n s (xs ++ ys)
      = absorb compress n (absorb compress n s xs) (remainder n xs ++ ys) := by
  rw [absorb, length_append_div hn, absorbBlocks_add, drop_append_blocks,
    absorbBlocks_append compress s ys (Nat.div_mul_le_self _ _)]
  rfl

theorem remainder_append (hn : 0 < n) (xs ys : List α) :
    remainder n (xs ++ ys) = remainder n (remainder n xs ++ ys) := by
  rw [remainder, length_append_div hn, Nat.add_mul, ← List.drop_drop, drop_append_blocks]
  rfl

/-! ## A state and a remainder -/

/-- The state `s` and the remainder `r` of a machine that was given the stream `xs`. -/
def Absorbed (n : Nat) (start : σ) (xs : List α) (s : σ) (r : List α) : Prop :=
  s = absorb compress n start xs ∧ r = remainder n xs

section Absorbed

variable {compress} {start s : σ} {xs r : List α}

theorem Absorbed.nil (hn : 0 < n) : Absorbed compress n start [] start [] :=
  ⟨(absorb_of_lt compress start hn).symm, (remainder_of_lt hn).symm⟩

theorem Absorbed.length_eq (h : Absorbed compress n start xs s r) : r.length = xs.length % n := by
  rw [h.2, remainder_length]

/-- All that arrives, in any case. -/
theorem Absorbed.append (hn : 0 < n) (h : Absorbed compress n start xs s r) (ys : List α) :
    Absorbed compress n start (xs ++ ys) (absorb compress n s (r ++ ys)) (remainder n (r ++ ys)) := by
  obtain ⟨rfl, rfl⟩ := h
  exact ⟨(absorb_append compress hn start xs ys).symm, (remainder_append hn xs ys).symm⟩

/-- What arrives does not complete a block. -/
theorem Absorbed.wait (hn : 0 < n) (h : Absorbed compress n start xs s r) (ys : List α)
    (hlt : (r ++ ys).length < n) : Absorbed compress n start (xs ++ ys) s (r ++ ys) := by
  have happend := h.append hn ys
  rwa [absorb_of_lt compress s hlt, remainder_of_lt hlt] at happend

/-- What arrives completes a block. -/
theorem Absorbed.fill (hn : 0 < n) (h : Absorbed compress n start xs s r) (ys : List α)
    (heq : (r ++ ys).length = n) :
    Absorbed compress n start (xs ++ ys) (compress s (r ++ ys)) [] := by
  have happend := h.append hn ys
  rwa [absorb_block compress hn s heq, remainder_of_dvd ⟨1, heq.trans (Nat.mul_one n).symm⟩] at happend

end Absorbed

end Blocks
