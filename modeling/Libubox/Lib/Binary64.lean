import Mathlib.Data.Int.Log
import Mathlib.Data.Rat.Floor
import Mathlib.Tactic.Linarith

/-!
# Binary64 numbers and C integer conversions

A double is an exact rational, an infinity or not a number.  Arithmetic is the
exact rational operation followed by `round`, to 53 significant bits, ties to
even (`round_intCast`: integers up to `2 ^ 53` are exact).  The sign of a zero
is not kept.

`wrap64` and `wrap32` reduce to the two's complement ranges of `int64_t` and
`int`; `toInt64` truncates, and gives the least `int64_t` out of range, as the
conversion instruction of the usual machines does.
-/

namespace Binary64

/-- A binary64 value. -/
inductive Double where
  | finite (q : ℚ)
  | inf (negative : Bool)
  | nan
  deriving DecidableEq

/-! ## Rounding -/

/-- The nearest integer, ties to even. -/
def roundHalfEven (q : ℚ) : Int :=
  let below := ⌊q⌋
  let rest := q - below
  if rest < 1 / 2 then below
  else if 1 / 2 < rest then below + 1
  else if below % 2 = 0 then below else below + 1

/-- The exponent of the last of the 53 significant bits of `q`. -/
def ulpExponent (q : ℚ) : Int :=
  max (Int.log 2 |q| - 52) (-1074)

/-- The double nearest to `q`. -/
def round (q : ℚ) : Double :=
  let unit := (2 : ℚ) ^ ulpExponent q
  let r := roundHalfEven (q / unit) * unit
  if 2 ^ 1024 ≤ |r| then .inf (decide (q < 0)) else .finite r

theorem roundHalfEven_intCast (k : Int) : roundHalfEven k = k := by
  simp [roundHalfEven]

/-- The unit in the last place of an integer up to `2 ^ 53` divides it. -/
theorem exists_ulp_multiple {k : Int} (hk : |k| ≤ 2 ^ 53) :
    ∃ j : Int, (k : ℚ) / 2 ^ ulpExponent k = j := by
  by_cases hmax : |k| = 2 ^ 53
  · have hlog : Int.log 2 |(k : ℚ)| = 53 := by
      have habs : |(k : ℚ)| = (2 : ℕ) ^ (53 : Int) := by
        rw [← Int.cast_abs, hmax]
        norm_num
      rw [habs, Int.log_zpow (by norm_num)]
    have hulp : ulpExponent k = 1 := by simp [ulpExponent, hlog]
    rcases abs_eq (by norm_num) |>.mp hmax with rfl | rfl
    · exact ⟨2 ^ 52, by rw [hulp]; norm_num⟩
    · exact ⟨-2 ^ 52, by rw [hulp]; norm_num⟩
  · have hulp : ulpExponent k ≤ 0 := by
      apply max_le _ (by norm_num)
      by_cases hzero : k = 0
      · subst hzero
        simp
      · have hpos : 0 < |(k : ℚ)| := by simpa using hzero
        have hlt : |(k : ℚ)| < (2 : ℕ) ^ (53 : Int) := by
          have hk' : |k| < 2 ^ 53 := lt_of_le_of_ne hk hmax
          have hcast : ((|k| : Int) : ℚ) < ((2 ^ 53 : Int) : ℚ) := by exact_mod_cast hk'
          rw [Int.cast_abs] at hcast
          calc |(k : ℚ)| < ((2 ^ 53 : Int) : ℚ) := hcast
            _ = (2 : ℕ) ^ (53 : Int) := by norm_num
        have := (Int.lt_zpow_iff_log_lt (by norm_num) hpos).mp hlt
        omega
    obtain ⟨n, hn⟩ := Int.eq_ofNat_of_zero_le (neg_nonneg.mpr hulp)
    have hexp : ulpExponent k = -(n : Int) := by omega
    refine ⟨k * 2 ^ n, ?_⟩
    rw [hexp, zpow_neg, div_inv_eq_mul, zpow_natCast]
    push_cast
    rfl

/-- Integers up to `2 ^ 53` are doubles. -/
theorem round_intCast {k : Int} (hk : |k| ≤ 2 ^ 53) : round k = .finite k := by
  obtain ⟨j, hj⟩ := exists_ulp_multiple hk
  have hunit : (2 : ℚ) ^ ulpExponent k ≠ 0 := zpow_ne_zero _ (by norm_num)
  have hback : (j : ℚ) * 2 ^ ulpExponent k = k := by
    rw [← hj, div_mul_cancel₀ _ hunit]
  have hsmall : ¬ (2 : ℚ) ^ 1024 ≤ |(k : ℚ)| := by
    have hcast : |(k : ℚ)| ≤ 2 ^ 53 := by exact_mod_cast hk
    have hpow : (2 : ℚ) ^ 53 < 2 ^ 1024 := pow_lt_pow_right₀ (by norm_num) (by norm_num)
    exact not_le.mpr (lt_of_le_of_lt hcast hpow)
  unfold round
  simp only [hj, roundHalfEven_intCast, hback, if_neg hsmall]

/-! ## Arithmetic -/

namespace Double

/-- `(double)k` of an integer. -/
def ofInt (k : Int) : Double := round k

def add : Double → Double → Double
  | .finite a, .finite b => round (a + b)
  | .inf s, .inf t => if s = t then .inf s else .nan
  | .inf s, .finite _ => .inf s
  | .finite _, .inf s => .inf s
  | .nan, _ => .nan
  | _, .nan => .nan

def neg : Double → Double
  | .finite a => .finite (-a)
  | .inf s => .inf (!s)
  | .nan => .nan

def sub (a b : Double) : Double := a.add b.neg

def mul : Double → Double → Double
  | .finite a, .finite b => round (a * b)
  | .inf s, .inf t => .inf (s != t)
  | .inf s, .finite b => if b = 0 then .nan else .inf (s != decide (b < 0))
  | .finite a, .inf t => if a = 0 then .nan else .inf (decide (a < 0) != t)
  | .nan, _ => .nan
  | _, .nan => .nan

/-- `fabs`. -/
def abs : Double → Double
  | .finite a => .finite |a|
  | .inf _ => .inf false
  | .nan => .nan

/-- `floor`. -/
def floor : Double → Double
  | .finite a => .finite ⌊a⌋
  | d => d

/-- The comparison `a <= b`, false when one side is not a number. -/
def le : Double → Double → Bool
  | .finite a, .finite b => a ≤ b
  | .inf s, .inf t => s || !t
  | .inf s, .finite _ => s
  | .finite _, .inf t => !t
  | .nan, _ => false
  | _, .nan => false

/-- The comparison `a < b`, false when one side is not a number. -/
def lt : Double → Double → Bool
  | .finite a, .finite b => a < b
  | .inf s, .inf t => s && !t
  | .inf s, .finite _ => s
  | .finite _, .inf t => !t
  | .nan, _ => false
  | _, .nan => false

/-- `(int64_t)d`. -/
def toInt64 : Double → Int
  | .finite q =>
      let k := if 0 ≤ q then ⌊q⌋ else -⌊-q⌋
      if -2 ^ 63 ≤ k ∧ k < 2 ^ 63 then k else -2 ^ 63
  | _ => -2 ^ 63

theorem ofInt_eq {k : Int} (hk : |k| ≤ 2 ^ 53) : ofInt k = .finite k :=
  round_intCast hk

theorem add_intCast {a b : Int} (h : |a + b| ≤ 2 ^ 53) :
    add (.finite a) (.finite b) = .finite ((a + b : Int) : ℚ) := by
  have hround := round_intCast h
  push_cast at hround ⊢
  exact hround

theorem mul_intCast {a b : Int} (h : |a * b| ≤ 2 ^ 53) :
    mul (.finite a) (.finite b) = .finite ((a * b : Int) : ℚ) := by
  have hround := round_intCast h
  push_cast at hround ⊢
  exact hround

theorem toInt64_intCast {k : Int} (hk : |k| ≤ 2 ^ 53) : toInt64 (.finite k) = k := by
  have hbounds := abs_le.mp hk
  have hfloor : (if (0 : ℚ) ≤ (k : ℚ) then ⌊(k : ℚ)⌋ else -⌊-(k : ℚ)⌋) = k := by
    split
    · exact Int.floor_intCast k
    · rw [← Int.cast_neg, Int.floor_intCast, neg_neg]
  have hrange : -2 ^ 63 ≤ k ∧ k < 2 ^ 63 := by
    constructor <;> omega
  simp only [toInt64, hfloor, if_pos hrange]

end Double

/-! ## Two's complement -/

/-- Reduction to `int64_t`. -/
def wrap64 (k : Int) : Int := Int.bmod k (2 ^ 64)

/-- Reduction to `int`. -/
def wrap32 (k : Int) : Int := Int.bmod k (2 ^ 32)

theorem wrap64_eq {k : Int} (lo : -2 ^ 63 ≤ k) (hi : k < 2 ^ 63) : wrap64 k = k := by
  apply Int.bmod_eq_of_le <;> omega

end Binary64
