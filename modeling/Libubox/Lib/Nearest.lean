import Libubox.Lib.Binary64

/-!
# Integers as doubles

`nearest` rounds a natural number to 53 significant bits, ties to even, and stays in
the natural numbers.  It is what `round` does to an integer (`round_natCast`,
`ofInt_eq_nearestInt`); its values are its fixed points (`nearest_nearest`).
-/

namespace Binary64

/-- The natural number nearest to `n / unit`, ties to even. -/
def roundDiv (n unit : Nat) : Nat :=
  if 2 * (n % unit) < unit then n / unit
  else if unit < 2 * (n % unit) then n / unit + 1
  else if n / unit % 2 = 0 then n / unit else n / unit + 1

/-- What the last of the 53 significant bits of `n` counts. -/
def unitOf (n : Nat) : Nat := 2 ^ (n.log2 - 52)

/-- The natural number nearest to `n` that has 53 significant bits, ties to even. -/
def nearest (n : Nat) : Nat := roundDiv n (unitOf n) * unitOf n

theorem unitOf_pos (n : Nat) : 0 < unitOf n := Nat.two_pow_pos _

theorem roundDiv_eq (n unit : Nat) : roundDiv n unit = n / unit ∨ roundDiv n unit = n / unit + 1 := by
  unfold roundDiv
  split_ifs
  · exact .inl rfl
  · exact .inr rfl
  · exact .inl rfl
  · exact .inr rfl

/-- A number without bits behind the 53rd is left alone. -/
theorem nearest_of_dvd {n : Nat} (h : unitOf n ∣ n) : nearest n = n := by
  have hrest : 2 * (n % unitOf n) < unitOf n := by
    rw [Nat.mod_eq_zero_of_dvd h]
    exact unitOf_pos n
  rw [nearest, roundDiv, if_pos hrest, Nat.div_mul_cancel h]

theorem nearest_of_le {n : Nat} (h : n ≤ 2 ^ 53) : nearest n = n := by
  apply nearest_of_dvd
  rcases Nat.lt_or_eq_of_le h with hlt | rfl
  · have hlog : n.log2 - 52 = 0 := by
      by_cases hzero : n = 0
      · rw [hzero]
        rfl
      · have := (Nat.log2_lt hzero).mpr hlt
        omega
    rw [unitOf, hlog]
    exact Nat.one_dvd n
  · rw [unitOf, Nat.log2_two_pow]
    exact Nat.pow_dvd_pow 2 (by decide)

/-- A number of at most 53 bits before zeros is left alone. -/
theorem nearest_mul_two_pow {j : Nat} (h : j < 2 ^ 53) (e : Nat) :
    nearest (j * 2 ^ e) = j * 2 ^ e := by
  apply nearest_of_dvd
  by_cases hzero : j = 0
  · rw [hzero, Nat.zero_mul]
    exact Nat.dvd_zero _
  · have hne : j * 2 ^ e ≠ 0 := Nat.mul_ne_zero hzero (Nat.two_pow_pos e).ne'
    have hlog : (j * 2 ^ e).log2 < 53 + e := by
      rw [Nat.log2_lt hne, Nat.pow_add]
      exact Nat.mul_lt_mul_of_pos_right h (Nat.two_pow_pos e)
    rw [unitOf]
    exact (Nat.pow_dvd_pow 2 (by omega)).trans (Nat.dvd_mul_left _ _)

/-- What is kept of `n` has 53 bits, or is a power of two. -/
theorem exists_nearest_eq (n : Nat) :
    ∃ j, (j < 2 ^ 53 ∨ j = 2 ^ 53) ∧ nearest n = j * unitOf n := by
  have hbelow : n / unitOf n < 2 ^ 53 := by
    rw [Nat.div_lt_iff_lt_mul (unitOf_pos n), unitOf, ← Nat.pow_add]
    exact (Nat.lt_log2_self).trans_le (Nat.pow_le_pow_right (by decide) (by omega))
  refine ⟨_, ?_, rfl⟩
  rcases roundDiv_eq n (unitOf n) with h | h <;> omega

theorem nearest_nearest (n : Nat) : nearest (nearest n) = nearest n := by
  obtain ⟨j, hj, h⟩ := exists_nearest_eq n
  rw [h, unitOf]
  rcases hj with hj | rfl
  · exact nearest_mul_two_pow hj _
  · have hpow : 2 ^ 53 * 2 ^ (n.log2 - 52) = 1 * 2 ^ (53 + (n.log2 - 52)) := by
      rw [Nat.one_mul, Nat.pow_add]
    rw [hpow]
    exact nearest_mul_two_pow (by decide) _

theorem unitOf_le {n : Nat} (h : n ≠ 0) : unitOf n ≤ n :=
  (Nat.pow_le_pow_right (by decide) (Nat.sub_le _ _)).trans (Nat.log2_self_le h)

/-- Rounding at most doubles a number, and makes nothing of zero only. -/
theorem nearest_bounds {n : Nat} (h : n ≠ 0) : 0 < nearest n ∧ nearest n ≤ 2 * n := by
  have hunit := unitOf_le h
  have hpos := unitOf_pos n
  have hone : 1 ≤ n / unitOf n := (Nat.one_le_div_iff hpos).mpr hunit
  have hdiv := Nat.div_mul_le_self n (unitOf n)
  rw [nearest]
  constructor
  · apply Nat.mul_pos _ hpos
    rcases roundDiv_eq n (unitOf n) with h | h <;> omega
  · rcases roundDiv_eq n (unitOf n) with h | h
    · rw [h]
      exact hdiv.trans (Nat.le_mul_of_pos_left n (by decide))
    · rw [h, Nat.add_mul]
      omega

theorem nearest_zero : nearest 0 = 0 := rfl

theorem nearest_le (n : Nat) : nearest n ≤ 2 * n := by
  by_cases h : n = 0
  · rw [h, nearest_zero]
  · exact (nearest_bounds h).2

theorem nearest_eq_zero {n : Nat} : nearest n = 0 ↔ n = 0 := by
  constructor
  · intro h
    by_contra hne
    have := (nearest_bounds hne).1
    omega
  · rintro rfl
    exact nearest_zero

/-- Rounding does not pass a power of two. -/
theorem nearest_le_two_pow {n e : Nat} (h : n ≤ 2 ^ e) : nearest n ≤ 2 ^ e := by
  by_cases hsmall : n ≤ 2 ^ 53
  · rwa [nearest_of_le hsmall]
  · rcases Nat.lt_or_eq_of_le h with hlt | rfl
    · have hne : n ≠ 0 := by omega
      have hlog : n.log2 < e := (Nat.log2_lt hne).mpr hlt
      have hlarge : 53 ≤ n.log2 := (Nat.le_log2 hne).mpr (Nat.le_of_not_le hsmall)
      obtain ⟨j, hj, heq⟩ := exists_nearest_eq n
      calc nearest n = j * unitOf n := heq
        _ ≤ 2 ^ 53 * 2 ^ (n.log2 - 52) := Nat.mul_le_mul_right _ (by omega)
        _ = 2 ^ (53 + (n.log2 - 52)) := (Nat.pow_add ..).symm
        _ ≤ 2 ^ e := Nat.pow_le_pow_right (by decide) (by omega)
    · have hfixed := @nearest_mul_two_pow 1 (by decide) e
      rw [Nat.one_mul] at hfixed
      exact hfixed.le

/-! ## Rounding -/

/-- A quotient of natural numbers rounds by its remainder. -/
theorem roundHalfEven_div {unit : Nat} (hunit : 0 < unit) (n : Nat) :
    roundHalfEven ((n : ℚ) / unit) = (roundDiv n unit : Nat) := by
  have hpos : (0 : ℚ) < unit := Nat.cast_pos.mpr hunit
  have hfloor : ⌊(n : ℚ) / unit⌋ = ((n / unit : Nat) : Int) := by
    rw [Rat.floor_natCast_div_natCast, Int.natCast_ediv]
  have hrest : (n : ℚ) / unit - ((n / unit : Nat) : Int) = (n % unit : Nat) / unit := by
    rw [eq_div_iff hpos.ne', sub_mul, div_mul_cancel₀ _ hpos.ne', Int.cast_natCast]
    have hsplit : ((unit * (n / unit) + n % unit : Nat) : ℚ) = n := by rw [Nat.div_add_mod]
    push_cast at hsplit ⊢
    linarith
  have hless : ((n % unit : Nat) : ℚ) / unit < 1 / 2 ↔ 2 * (n % unit) < unit := by
    rw [div_lt_div_iff₀ hpos (by norm_num), ← Nat.cast_lt (α := ℚ)]
    push_cast
    constructor <;> intro h <;> linarith
  have hmore : (1 : ℚ) / 2 < ((n % unit : Nat) : ℚ) / unit ↔ unit < 2 * (n % unit) := by
    rw [div_lt_div_iff₀ (by norm_num) hpos, ← Nat.cast_lt (α := ℚ)]
    push_cast
    constructor <;> intro h <;> linarith
  have heven : ((n / unit : Nat) : Int) % 2 = 0 ↔ n / unit % 2 = 0 := by omega
  simp only [roundHalfEven, roundDiv, hfloor, hrest, hless, hmore, heven]
  split_ifs <;> push_cast <;> rfl

/-- `round` on natural numbers. -/
theorem round_natCast {n : Nat} (h : n < 2 ^ 200) : round n = .finite (nearest n) := by
  by_cases hsmall : n ≤ 2 ^ 53
  · have hround : round ((n : Int) : ℚ) = .finite ((n : Int) : ℚ) := by
      apply round_intCast
      rw [Nat.abs_cast]
      exact_mod_cast hsmall
    rw [nearest_of_le hsmall]
    simpa only [Int.cast_natCast] using hround
  · have hne : n ≠ 0 := by
      rintro rfl
      exact hsmall (Nat.zero_le _)
    have hlog : 52 ≤ n.log2 := by
      rw [Nat.le_log2 hne]
      exact (Nat.pow_le_pow_right (by decide) (by decide)).trans (Nat.le_of_not_le hsmall)
    have hulp : ulpExponent n = ((n.log2 - 52 : Nat) : Int) := by
      rw [ulpExponent, Nat.abs_cast, Int.log_natCast, ← Nat.log2_eq_log_two]
      omega
    have hunit : (2 : ℚ) ^ ulpExponent n = (unitOf n : ℚ) := by
      rw [hulp, zpow_natCast, unitOf, Nat.cast_pow, Nat.cast_ofNat]
    have hvalue : ((roundHalfEven ((n : ℚ) / unitOf n) : Int) : ℚ) * unitOf n = nearest n := by
      rw [roundHalfEven_div (unitOf_pos n), Int.cast_natCast, ← Nat.cast_mul]
      rfl
    have hfinite : ¬(2 : ℚ) ^ 1024 ≤ |(nearest n : ℚ)| := by
      rw [Nat.abs_cast, not_le]
      have hle : nearest n < 2 ^ 201 := by
        calc nearest n ≤ 2 * n := nearest_le n
          _ < 2 * 2 ^ 200 := Nat.mul_lt_mul_of_pos_left h (by decide)
          _ = 2 ^ 201 := (Nat.pow_succ').symm
      have hcast : (nearest n : ℚ) < 2 ^ 201 := by exact_mod_cast hle
      exact hcast.trans (pow_lt_pow_right₀ (by norm_num) (by norm_num))
    simp only [round, hunit, hvalue, if_neg hfinite]

theorem roundHalfEven_neg (q : ℚ) : roundHalfEven (-q) = -roundHalfEven q := by
  have hle : (⌊q⌋ : ℚ) ≤ q := Int.floor_le q
  by_cases hint : q = ⌊q⌋
  · rw [hint, ← Int.cast_neg, roundHalfEven_intCast, roundHalfEven_intCast]
  · have hlt : (⌊q⌋ : ℚ) < q := lt_of_le_of_ne hle (Ne.symm hint)
    have hfloor : ⌊-q⌋ = -⌊q⌋ - 1 := by
      rw [Int.floor_eq_iff]
      have hup := Int.lt_floor_add_one q
      push_cast
      constructor <;> linarith
    have hrest : -q - ((-⌊q⌋ - 1 : Int) : ℚ) = 1 - (q - ⌊q⌋) := by
      push_cast
      ring
    simp only [roundHalfEven, hfloor, hrest]
    -- the remainder of the negation is what the remainder lacks to one
    generalize q - ⌊q⌋ = r
    by_cases hless : r < 1 / 2
    · have h₁ : ¬1 - r < 1 / 2 := by linarith
      have h₂ : 1 / 2 < 1 - r := by linarith
      rw [if_neg h₁, if_pos h₂, if_pos hless]
      omega
    · by_cases hmore : 1 / 2 < r
      · have h₁ : 1 - r < 1 / 2 := by linarith
        rw [if_pos h₁, if_neg hless, if_pos hmore]
        omega
      · have h₁ : ¬1 - r < 1 / 2 := by linarith
        have h₂ : ¬1 / 2 < 1 - r := by linarith
        rw [if_neg h₁, if_neg h₂, if_neg hless, if_neg hmore]
        split_ifs <;> omega

/-- Rounding does not look at the sign. -/
theorem round_neg {q r : ℚ} (h : round q = .finite r) : round (-q) = .finite (-r) := by
  have hulp : ulpExponent (-q) = ulpExponent q := by rw [ulpExponent, ulpExponent, abs_neg]
  have hvalue : ((roundHalfEven (-q / 2 ^ ulpExponent q) : Int) : ℚ) * 2 ^ ulpExponent q
      = -((roundHalfEven (q / 2 ^ ulpExponent q) : Int) * 2 ^ ulpExponent q) := by
    rw [neg_div, roundHalfEven_neg, Int.cast_neg, neg_mul]
  simp only [round, hulp, hvalue, abs_neg] at h ⊢
  split at h
  · cases h
  · next hfinite =>
      rw [if_neg hfinite]
      cases h
      rfl

/-- The integer nearest to `k` that is a double. -/
def nearestInt (k : Int) : Int := if k < 0 then -nearest k.natAbs else nearest k.natAbs

/-- `(double)k` is a double again. -/
theorem ofInt_eq_nearestInt {k : Int} (h : k.natAbs < 2 ^ 200) :
    Double.ofInt k = .finite (nearestInt k) := by
  have hround := round_natCast h
  rw [Double.ofInt, nearestInt]
  by_cases hneg : k < 0
  · have hk : (k : ℚ) = -(k.natAbs : ℚ) := by
      rw [← Int.cast_natCast, Int.ofNat_natAbs_of_nonpos (by omega), Int.cast_neg, neg_neg]
    rw [if_pos hneg, hk, round_neg hround]
    push_cast
    rfl
  · have hk : (k : ℚ) = (k.natAbs : ℚ) := by
      rw [← Int.cast_natCast, Int.natAbs_of_nonneg (by omega)]
    rw [if_neg hneg, hk, hround]
    push_cast
    rfl

theorem nearestInt_eq_self {k : Int} : nearestInt k = k ↔ nearest k.natAbs = k.natAbs := by
  rw [nearestInt]
  split_ifs <;> omega

/-- `round` leaves an integer alone that is a double. -/
theorem round_eq_self {k : Int} (hk : k.natAbs < 2 ^ 200) (h : nearestInt k = k) :
    round k = .finite k := by
  have hround := ofInt_eq_nearestInt hk
  rwa [h] at hround

theorem natAbs_nearestInt (k : Int) : (nearestInt k).natAbs = nearest k.natAbs := by
  rw [nearestInt]
  split_ifs <;> omega

end Binary64
