import Mathlib.Data.Nat.Digits.Lemmas

/-!
# Numerals

A numeral is the list of its digits, most significant first.  `continued b v ds` is
the number `v` continued by the digits `ds` in base `b`.

A machine accumulates a numeral modulo `m` and gives up when a digit makes the number
smaller.  `accumulate_eq` says what it comes to: a digit that makes the remainder
smaller is noticed (`Noticed`), any other loss is not.
-/

namespace Numeral

/-- The number `v` continued by the digits `ds`. -/
def continued (b v : Nat) (ds : List Nat) : Nat := ds.foldl (fun v d => b * v + d) v

/-- The digits accumulated modulo `m`; `none` if one makes the number smaller. -/
def accumulate (b m v : Nat) : List Nat → Option Nat
  | [] => some v
  | d :: ds =>
      let w := (b * v + d) % m
      if w < v then none else accumulate b m w ds

/-- A digit of the numeral makes the remainder modulo `m` smaller. -/
def Noticed (b m v : Nat) (ds : List Nat) : Prop :=
  ∃ k < ds.length, continued b v (ds.take (k + 1)) % m < continued b v (ds.take k) % m

variable {b m v : Nat} {ds : List Nat}

@[simp] theorem continued_nil : continued b v [] = v := rfl

@[simp] theorem continued_cons {d : Nat} :
    continued b v (d :: ds) = continued b (b * v + d) ds := rfl

theorem continued_append {es : List Nat} :
    continued b v (ds ++ es) = continued b (continued b v ds) es := by
  unfold continued
  exact List.foldl_append

/-- Digits never make a number smaller. -/
theorem le_continued (hb : 0 < b) : v ≤ continued b v ds := by
  induction ds generalizing v with
  | nil => exact le_rfl
  | cons d ds ih =>
      have hstep : v ≤ b * v + d :=
        (Nat.le_mul_of_pos_left v hb).trans (Nat.le_add_right _ _)
      exact hstep.trans ih

theorem continued_take_le (hb : 0 < b) (k : Nat) : continued b v (ds.take k) ≤ continued b v ds := by
  conv_rhs => rw [← List.take_append_drop k ds, continued_append]
  exact le_continued hb

/-- The remainder of a number is enough to continue it modulo `m`. -/
theorem continued_mod : continued b (v % m) ds % m = continued b v ds % m := by
  induction ds generalizing v with
  | nil => exact Nat.mod_mod v m
  | cons d ds ih =>
      have hstep : (b * (v % m) + d) % m = (b * v + d) % m := by
        rw [Nat.add_mod, Nat.mul_mod, Nat.mod_mod, ← Nat.mul_mod, ← Nat.add_mod]
      rw [continued_cons, continued_cons, ← ih, hstep, ih]

theorem noticed_cons {d : Nat} :
    Noticed b m v (d :: ds) ↔ (b * v + d) % m < v % m ∨ Noticed b m (b * v + d) ds := by
  constructor
  · intro ⟨k, hk, hlt⟩
    cases k with
    | zero => exact .inl hlt
    | succ k => exact .inr ⟨k, Nat.lt_of_succ_lt_succ hk, hlt⟩
  · intro h
    cases h with
    | inl hlt => exact ⟨0, Nat.succ_pos _, hlt⟩
    | inr h =>
        obtain ⟨k, hk, hlt⟩ := h
        exact ⟨k + 1, Nat.succ_lt_succ hk, hlt⟩

theorem noticed_mod : Noticed b m (v % m) ds ↔ Noticed b m v ds := by
  unfold Noticed
  simp only [continued_mod]

/-- **What a machine accumulates**: the remainder of the number, unless a loss is
noticed. -/
theorem accumulate_eq (b : Nat) (ds : List Nat) (hv : v < m) :
    (accumulate b m v ds = none ∧ Noticed b m v ds) ∨
      (accumulate b m v ds = some (continued b v ds % m) ∧ ¬ Noticed b m v ds) := by
  induction ds generalizing v with
  | nil =>
      refine .inr ⟨by rw [accumulate, continued_nil, Nat.mod_eq_of_lt hv], ?_⟩
      intro ⟨k, hk, _⟩
      exact Nat.not_lt_zero k hk
  | cons d ds ih =>
      have hm : 0 < m := Nat.zero_lt_of_lt hv
      rw [accumulate, noticed_cons, Nat.mod_eq_of_lt hv, continued_cons]
      by_cases hlt : (b * v + d) % m < v
      · exact .inl ⟨if_pos hlt, .inl hlt⟩
      · have hrest := @ih ((b * v + d) % m) (Nat.mod_lt _ hm)
        rw [noticed_mod, continued_mod] at hrest
        simp only [hlt, if_false, false_or]
        exact hrest

/-- Nothing is lost of a number below `m`. -/
theorem not_noticed (hb : 0 < b) (hlt : continued b v ds < m) : ¬ Noticed b m v ds := by
  intro ⟨k, hk, hless⟩
  have hk₁ : continued b v (ds.take (k + 1)) < m := (continued_take_le hb _).trans_lt hlt
  have hk₀ : continued b v (ds.take k) < m := (continued_take_le hb _).trans_lt hlt
  rw [Nat.mod_eq_of_lt hk₁, Nat.mod_eq_of_lt hk₀] at hless
  have hgrow : continued b v (ds.take k) ≤ continued b v (ds.take (k + 1)) := by
    rw [List.take_add_one, continued_append]
    exact le_continued hb
  exact absurd hless (Nat.not_lt.mpr hgrow)

/-- The digits of a number continue zero to it. -/
theorem continued_digits (b n : Nat) : continued b 0 (Nat.digits b n).reverse = n := by
  have hfold : ∀ ds : List Nat, continued b 0 ds.reverse = Nat.ofDigits b ds := by
    intro ds
    induction ds with
    | nil => rfl
    | cons d ds ih =>
        rw [List.reverse_cons, continued_append, ih, Nat.ofDigits_cons]
        exact Nat.add_comm _ _
  rw [hfold, Nat.ofDigits_digits]

end Numeral
