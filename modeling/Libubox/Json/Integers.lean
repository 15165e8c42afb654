import Libubox.Json.Grammar
import Libubox.Json.PrintFits
import Libubox.Lib.Nearest

/-!
# Integers through text

What becomes of `json_create_number64(n)` when it is printed and parsed again.
`parse_number` adds up the digits twice, in an `int64_t` and in a `double`, and the sign
it multiplies with is a `double`: the integer survives if it is a double, the text only
if adding up its digits in doubles comes to it (`faithful_iff`).
-/

namespace Libubox.Json

open Binary64 Decimal Printer

/-! ## Adding up digits -/

/-- The digits `ds` after `n`, added up in doubles. -/
def readNearest (n : Nat) (ds : Text) : Nat :=
  ds.foldl (fun n d => nearest (nearest (n * 10) + digitValue d)) n

/-- Adding up the digits of `k` in doubles comes to `k`. -/
def ReadsExactly (k : Nat) : Prop := readNearest 0 (natText k) = k

instance (k : Nat) : Decidable (ReadsExactly k) := inferInstanceAs (Decidable (_ = _))

theorem readNearest_cons (n : Nat) (d : UInt8) (ds : Text) :
    readNearest n (d :: ds) = readNearest (nearest (nearest (n * 10) + digitValue d)) ds := by
  simp only [readNearest, List.foldl_cons]

theorem digitValue_le {d : UInt8} (hd : IsDigit d) : digitValue d ≤ 9 := by
  have h := UInt8.le_iff_toNat_le.mp hd.2
  have h57 : (57 : UInt8).toNat = 57 := rfl
  rw [digitValue]
  omega

/-- One step of the loop in doubles. -/
theorem step_le {n : Nat} {d : UInt8} (hd : IsDigit d) :
    nearest (nearest (n * 10) + digitValue d) + 1 ≤ (n + 1) * 64 := by
  have h₁ := nearest_le (n * 10)
  have h₂ := nearest_le (nearest (n * 10) + digitValue d)
  have hdigit := digitValue_le hd
  omega

theorem readNearest_lt {ds : Text} (hds : ∀ d ∈ ds, IsDigit d) (n : Nat) :
    readNearest n ds < (n + 1) * 64 ^ ds.length := by
  induction ds generalizing n with
  | nil =>
      rw [List.length_nil, Nat.pow_zero, Nat.mul_one]
      exact Nat.lt_succ_self n
  | cons d ds ih =>
      rw [readNearest_cons, List.length_cons, Nat.pow_succ', ← Nat.mul_assoc]
      refine (ih (fun e he => hds e (List.mem_cons_of_mem d he)) _).trans_le ?_
      exact Nat.mul_le_mul_right _ (step_le (hds d List.mem_cons_self))

theorem accumulate_cons (n : Double) (d : UInt8) (ds : Text) :
    accumulate n (d :: ds)
      = accumulate ((n.mul (.finite 10)).add (.ofInt (digitValue d))) ds := by
  simp only [accumulate, List.foldl_cons]

theorem accumulate64_nil (n : Int) : accumulate64 n [] = n := rfl

theorem accumulate64_cons (n : Int) (d : UInt8) (ds : Text) :
    accumulate64 n (d :: ds) = accumulate64 (wrap64 (n * 10 + digitValue d)) ds := by
  simp only [accumulate64, List.foldl_cons]

/-- The `double` of `parse_number` adds up as `readNearest` does. -/
theorem accumulate_eq {ds : Text} (hds : ∀ d ∈ ds, IsDigit d) (n : Nat)
    (h : (n + 1) * 64 ^ ds.length ≤ 2 ^ 190) :
    accumulate (.finite n) ds = .finite (readNearest n ds) := by
  induction ds generalizing n with
  | nil => rfl
  | cons d ds ih =>
      have hd := hds d List.mem_cons_self
      have hdigit := digitValue_le hd
      rw [List.length_cons, Nat.pow_succ', ← Nat.mul_assoc] at h
      have hn : (n + 1) * 64 ≤ 2 ^ 190 :=
        (Nat.le_mul_of_pos_right _ (Nat.pow_pos (by decide))).trans h
      have hten : (Double.finite n).mul (.finite 10) = .finite (nearest (n * 10)) := by
        have hround := @round_natCast (n * 10) (by omega)
        rw [Nat.cast_mul] at hround
        exact hround
      have hvalue : Double.ofInt (digitValue d) = .finite (digitValue d) := by
        have hof := @Double.ofInt_eq (digitValue d) (by rw [Nat.abs_cast]; omega)
        rwa [Int.cast_natCast] at hof
      have hstep : ((Double.finite n).mul (.finite 10)).add (.ofInt (digitValue d))
          = .finite (nearest (nearest (n * 10) + digitValue d)) := by
        have hle := nearest_le (n * 10)
        have hround := @round_natCast (nearest (n * 10) + digitValue d) (by omega)
        rw [Nat.cast_add] at hround
        rw [hten, hvalue]
        exact hround
      have hrest := ih (fun e he => hds e (List.mem_cons_of_mem d he)) _
        ((Nat.mul_le_mul_right _ (step_le hd)).trans h)
      rw [accumulate_cons, hstep, hrest, readNearest_cons]

/-- The `int64_t` of `parse_number` adds up exactly, and wraps. -/
theorem accumulate64_eq (ds : Text) (n : Nat) :
    accumulate64 (wrap64 n) ds = wrap64 (readFrom n ds) := by
  induction ds generalizing n with
  | nil => rw [accumulate64_nil, readFrom_nil]
  | cons d ds ih =>
      have hstep : wrap64 (wrap64 n * 10 + digitValue d) = wrap64 (n * 10 + digitValue d : Nat) := by
        rw [Nat.cast_add, Nat.cast_mul]
        exact Int.add_bmod_eq_add_bmod_right _ Int.bmod_mul_bmod
      rw [accumulate64_cons, hstep, ih, readFrom_cons]

theorem readNearest_nearest {ds : Text} (hne : ds ≠ []) (n : Nat) :
    nearest (readNearest n ds) = readNearest n ds := by
  induction ds generalizing n with
  | nil => exact absurd rfl hne
  | cons d ds ih =>
      rw [readNearest_cons]
      cases ds with
      | nil => exact nearest_nearest _
      | cons e ds => exact ih (List.cons_ne_nil e ds) _

theorem readNearest_of_le {ds : Text} {n : Nat} (h : readFrom n ds ≤ 2 ^ 53) :
    readNearest n ds = readFrom n ds := by
  induction ds generalizing n with
  | nil => rfl
  | cons d ds ih =>
      rw [readFrom_cons] at h ⊢
      have hle := (le_readFrom (n * 10 + digitValue d) ds).trans h
      have hten : n * 10 ≤ 2 ^ 53 := (Nat.le_add_right _ _).trans hle
      rw [readNearest_cons, nearest_of_le hten, nearest_of_le hle]
      exact ih h

/-- Every number up to `2 ^ 53` is read exactly. -/
theorem readsExactly_of_le {k : Nat} (h : k ≤ 2 ^ 53) : ReadsExactly k := by
  have hread := readFrom_natText k
  rw [ReadsExactly, readNearest_of_le (by rwa [hread]), hread]

theorem natText_ne_nil (k : Nat) : natText k ≠ [] := by
  by_cases h : k = 0
  · rw [h]
    exact List.cons_ne_nil _ _
  · obtain ⟨d, ds, hds, -, -⟩ := natText_of_pos h
    rw [hds]
    exact List.cons_ne_nil _ _

/-- What is read exactly is a double. -/
theorem ReadsExactly.nearest_eq {k : Nat} (h : ReadsExactly k) : nearest k = k := by
  have hfixed := readNearest_nearest (natText_ne_nil k) 0
  rwa [h] at hfixed

/-! ## Parsing a printed integer -/

/-- The parts of the text of an integer. -/
def intParts (n : Int) : NumberParts :=
  { negative := decide (n < 0)
    whole := if n = 0 then [] else natText n.natAbs
    fraction := []
    exponent := none }

theorem isDigit_of_mem_whole {n : Int} {d : UInt8} (h : d ∈ (intParts n).whole) : IsDigit d := by
  rw [intParts] at h
  split at h
  · exact absurd h List.not_mem_nil
  · exact isDigit_of_mem_natText h

theorem numberText_intText (n : Int) : NumberText (intText n) (intParts n) := by
  constructor
  · exact fun d hd => isDigit_of_mem_whole hd
  · intro d hd
    by_cases hzero : n = 0
    · rw [intParts, if_pos hzero] at hd
      cases hd
    · obtain ⟨e, ds, htext, -, he⟩ := natText_of_pos (Int.natAbs_ne_zero.mpr hzero)
      rw [intParts, if_neg hzero, htext] at hd
      cases hd
      exact he
  · exact fun d hd => absurd hd List.not_mem_nil
  · refine ⟨[], rfl, ?_⟩
    by_cases hzero : n = 0
    · rw [hzero]
      rfl
    · have hne := natText_ne_nil n.natAbs
      by_cases hneg : n < 0
      · simp [intParts, intText, hzero, hneg, hne, minus]
      · simp [intParts, intText, hzero, hneg, hne]

/-- A number by itself is parsed as a number. -/
theorem jsonParse_number (env : Libc) {t : Text} {p : NumberParts} (ht : NumberText t p) :
    jsonParse env (t ++ [0]) = .ok (node (numberItem env p) nil nil) [0] := by
  have htake := @takeNumber_append _ _ [] 0 ht (by decide)
  obtain ⟨c, r, hstart, hc⟩ := ht.head [0]
  rw [hstart] at htake ⊢
  have hbounds : 45 ≤ c.toNat ∧ c.toNat ≤ 57 := by
    rcases hc with ⟨hlo, hhi⟩ | rfl
    · rw [UInt8.le_iff_toNat_le] at hlo hhi
      exact ⟨(by decide : 45 ≤ (48 : UInt8).toNat).trans hlo, hhi⟩
    · decide
  have hne (d : UInt8) (hd : ¬(45 ≤ d.toNat ∧ d.toNat ≤ 57)) : c ≠ d := by
    rintro rfl
    exact hd hbounds
  have hspace : isSpace c = false := by
    have hlarge : ¬c ≤ 13 := by
      rw [UInt8.le_iff_toNat_le]
      have h13 : (13 : UInt8).toNat = 13 := rfl
      omega
    simp [isSpace, hlarge, hne 32 (by decide)]
  have hkeyword : parseKeyword (c :: r) = some (none, c :: r) := by
    simp [parseKeyword, streamCmp, hne 110 (by decide), hne 102 (by decide), hne 116 (by decide)]
  have hquote : c ≠ quote := hne quote (by decide)
  have hskip : skip (c :: r) = c :: r := by
    rw [skip, List.dropWhile_cons_of_neg (by rw [hspace]; exact Bool.false_ne_true)]
  rw [jsonParse, jsonParseStream, hskip, parseValue, hkeyword]
  show (if c = quote then _ else if c = minus ∨ IsDigit c then parseNumber env (c :: r) else _) = _
  rw [if_neg hquote, if_pos (Or.comm.mp hc), parseNumber, htake]

/-- `sign * k` is exact, for a double `k`. -/
theorem sign_mul {k : Int} (hk : k.natAbs < 2 ^ 200) (hfixed : nearestInt k = k) (negative : Bool) :
    (if negative then Double.finite (-1) else .finite 1).mul (.finite k)
      = .finite ((if negative then -k else k : Int) : ℚ) := by
  have hround := round_eq_self hk hfixed
  cases negative with
  | true =>
      have h : Double.mul (.finite (-1)) (.finite k) = Binary64.round (-1 * k) := rfl
      rw [if_pos rfl, if_pos rfl, h, neg_one_mul, round_neg hround, Int.cast_neg]
  | false =>
      have h : Double.mul (.finite 1) (.finite k) = Binary64.round (1 * k) := rfl
      rw [if_neg Bool.false_ne_true, if_neg Bool.false_ne_true, h, one_mul, hround]

theorem toInt64_finite (k : Int) :
    (Double.finite k).toInt64 = if -2 ^ 63 ≤ k ∧ k < 2 ^ 63 then k else -2 ^ 63 := by
  have hfloor : (if (0 : ℚ) ≤ (k : ℚ) then ⌊(k : ℚ)⌋ else -⌊-(k : ℚ)⌋) = k := by
    split
    · exact Int.floor_intCast k
    · rw [← Int.cast_neg, Int.floor_intCast, neg_neg]
  simp only [Double.toInt64, hfloor]

section Parsed

variable {env : Libc} {n : Int}

/-- The digits of an `int64_t`, added up in doubles. -/
def doubleOf (n : Int) : Nat := readNearest 0 (intParts n).whole

theorem whole_length (lo : -2 ^ 63 ≤ n) (hi : n < 2 ^ 63) : (intParts n).whole.length ≤ 19 := by
  rw [intParts]
  by_cases hzero : n = 0
  · rw [if_pos hzero]
    exact Nat.zero_le _
  · have hne := Int.natAbs_ne_zero.mpr hzero
    rw [if_neg hzero, natText, if_neg hne, List.length_map, List.length_reverse,
      Nat.digits_length_le_iff (by decide)]
    omega

theorem doubleOf_lt (lo : -2 ^ 63 ≤ n) (hi : n < 2 ^ 63) : doubleOf n < 2 ^ 114 := by
  have hlt := @readNearest_lt (intParts n).whole (fun d hd => isDigit_of_mem_whole hd) 0
  have hpow : 64 ^ (intParts n).whole.length ≤ 64 ^ 19 :=
    Nat.pow_le_pow_right (by decide) (whole_length lo hi)
  rw [doubleOf]
  omega

theorem doubleOf_nearest : nearest (doubleOf n) = doubleOf n := by
  rw [doubleOf, intParts]
  by_cases hzero : n = 0
  · rw [if_pos hzero]
    exact nearest_zero
  · rw [if_neg hzero]
    exact readNearest_nearest (natText_ne_nil _) 0

/-- The digits are read exactly if they come to the number itself. -/
theorem doubleOf_eq_iff : doubleOf n = n.natAbs ↔ ReadsExactly n.natAbs := by
  by_cases hzero : n = 0
  · subst hzero
    constructor
    · intro _
      exact readsExactly_of_le (by decide)
    · intro _
      rfl
  · rw [doubleOf, intParts, if_neg hzero, ReadsExactly]

/-- The `double` that is parsed for `n`. -/
def signedDouble (n : Int) : Int := if n < 0 then -doubleOf n else doubleOf n

theorem natAbs_signedDouble : (signedDouble n).natAbs = doubleOf n := by
  rw [signedDouble]
  split_ifs <;> omega

theorem nearestInt_signedDouble : nearestInt (signedDouble n) = signedDouble n := by
  rw [nearestInt_eq_self, natAbs_signedDouble, doubleOf_nearest]

/-- The `double` of the parsed item. -/
theorem valuedouble_eq (lo : -2 ^ 63 ≤ n) (hi : n < 2 ^ 63) :
    (numberItem env (intParts n)).valuedouble = .finite (signedDouble n) := by
  have hpow : 64 ^ (intParts n).whole.length ≤ 64 ^ 19 :=
    Nat.pow_le_pow_right (by decide) (whole_length lo hi)
  have hlt := doubleOf_lt lo hi
  have haccumulate : accumulate (.finite 0) (intParts n).whole = .finite (doubleOf n : Int) := by
    have h := @accumulate_eq _ (fun d hd => @isDigit_of_mem_whole n d hd) 0 (by omega)
    rwa [Nat.cast_zero, ← doubleOf, ← Int.cast_natCast] at h
  have hfixed : nearestInt (doubleOf n) = doubleOf n := by
    rw [nearestInt_eq_self, Int.natAbs_natCast, doubleOf_nearest]
  have hsign := @sign_mul (doubleOf n) (by omega) hfixed (decide (n < 0))
  have hone : Double.mul (.finite (signedDouble n)) (.finite 1) = .finite (signedDouble n) := by
    have hround := @round_eq_self (signedDouble n) (by rw [natAbs_signedDouble]; omega)
      nearestInt_signedDouble
    show Binary64.round (signedDouble n * 1) = _
    rwa [mul_one]
  show (((if decide (n < 0) then Double.finite (-1) else .finite 1).mul
    (accumulate (.finite 0) (intParts n).whole)).mul (env.pow10 0)) = _
  rw [haccumulate, hsign, env.pow10_zero]
  simp only [decide_eq_true_eq]
  exact hone

/-- The `int64_t` that the digits add up to. -/
theorem accumulate64_whole (hzero : n ≠ 0) :
    accumulate64 0 (intParts n).whole = wrap64 n.natAbs := by
  have h := accumulate64_eq (natText n.natAbs) 0
  have hwrap : wrap64 (0 : Nat) = 0 := by decide
  rw [intParts, if_neg hzero]
  rwa [hwrap, readFrom_natText] at h

theorem valueint_of_ne_zero (h : accumulate64 0 (intParts n).whole ≠ 0) :
    (numberItem env (intParts n)).valueint
      = ((if decide (n < 0) then Double.finite (-1) else .finite 1).mul
          (.ofInt (accumulate64 0 (intParts n).whole))).toInt64 :=
  if_pos h

/-- The `int64_t` of the parsed item. -/
theorem valueint_eq (lo : -2 ^ 63 ≤ n) (hi : n < 2 ^ 63) (hmin : n ≠ -2 ^ 63) :
    (numberItem env (intParts n)).valueint = (Double.finite (nearestInt n)).toInt64 := by
  by_cases hzero : n = 0
  · have hdouble := @valuedouble_eq env n lo hi
    have hint : (numberItem env (intParts n)).valueint
        = (numberItem env (intParts n)).valuedouble.toInt64 := by
      rw [hzero]
      rfl
    have hsigned : signedDouble n = nearestInt n := by
      rw [hzero]
      rfl
    rw [hint, hdouble, hsigned]
  · have hwhole : accumulate64 0 (intParts n).whole = n.natAbs := by
      rw [accumulate64_whole hzero, wrap64_eq (by omega) (by omega)]
    have hbounds := nearest_le n.natAbs
    have hfixed : nearestInt (nearest n.natAbs) = nearest n.natAbs := by
      rw [nearestInt_eq_self, Int.natAbs_natCast, nearest_nearest]
    have hof : Double.ofInt n.natAbs = .finite (nearest n.natAbs : Int) := by
      have h := @ofInt_eq_nearestInt (n.natAbs : Int) (by rw [Int.natAbs_natCast]; omega)
      rwa [nearestInt, if_neg (by omega), Int.natAbs_natCast] at h
    rw [valueint_of_ne_zero (by rw [hwhole]; omega), hwhole, hof,
      sign_mul (by omega) hfixed, nearestInt]
    simp only [decide_eq_true_eq]

/-- The least `int64_t` comes back: its digits wrap to it, and so does the product with
the sign. -/
theorem valueint_min : (numberItem env (intParts (-2 ^ 63))).valueint = -2 ^ 63 := by
  have hwhole : accumulate64 0 (intParts (-2 ^ 63)).whole = -2 ^ 63 := by
    rw [accumulate64_whole (by decide)]
    decide
  have hfixed : nearestInt (-2 ^ 63) = -2 ^ 63 := by decide
  have hof : Double.ofInt (-2 ^ 63) = .finite ((-2 ^ 63 : Int) : ℚ) :=
    round_eq_self (by decide) hfixed
  rw [valueint_of_ne_zero (by rw [hwhole]; decide), hwhole, hof, sign_mul (by decide) hfixed,
    if_pos (by decide), toInt64_finite, if_neg (by decide)]

/-- The integer survives exactly if it is a double. -/
theorem valueint_eq_iff (lo : -2 ^ 63 ≤ n) (hi : n < 2 ^ 63) :
    (numberItem env (intParts n)).valueint = n ↔ nearestInt n = n := by
  by_cases hmin : n = -2 ^ 63
  · have hfixed : nearestInt (-2 ^ 63) = -2 ^ 63 := by decide
    subst hmin
    exact ⟨fun _ => hfixed, fun _ => valueint_min⟩
  · rw [valueint_eq lo hi hmin, toInt64_finite]
    split <;> constructor <;> omega

end Parsed

/-! ## Printing an integer -/

theorem intText_nonneg {k : Int} (h : ¬k < 0) : intText k = natText k.natAbs := if_neg h

theorem intText_neg {k : Int} (h : k < 0) : intText k = minus :: natText k.natAbs := if_pos h

theorem natText_injective {j k : Nat} (h : natText j = natText k) : j = k := by
  rw [← readFrom_natText j, h, readFrom_natText]

theorem natText_ne_minus {k : Nat} {t : Text} : natText k ≠ minus :: t := by
  intro h
  have hdigit : IsDigit minus := by
    apply @isDigit_of_mem_natText k
    rw [h]
    exact List.mem_cons_self
  exact absurd hdigit (by decide)

/-- An integer is told by its text. -/
theorem intText_injective {j k : Int} (h : intText j = intText k) : j = k := by
  by_cases hj : j < 0
  · by_cases hk : k < 0
    · rw [intText_neg hj, intText_neg hk] at h
      have habs := natText_injective (List.cons_injective h)
      omega
    · rw [intText_neg hj, intText_nonneg hk] at h
      exact absurd h.symm natText_ne_minus
  · by_cases hk : k < 0
    · rw [intText_nonneg hj, intText_neg hk] at h
      exact absurd h natText_ne_minus
    · rw [intText_nonneg hj, intText_nonneg hk] at h
      have habs := natText_injective h
      omega

/-- `%.0f` of an integer. -/
theorem fixedText_zero (k : Int) : fixedText 0 k = intText k := by
  have hscaled : (roundHalfEven |(k : ℚ)|).natAbs = k.natAbs := by
    rw [← Int.cast_abs, roundHalfEven_intCast, Int.natAbs_abs]
  simp only [fixedText, pow_zero, mul_one, hscaled, Nat.div_one, if_true, List.append_nil,
    Int.cast_lt_zero]
  rw [intText]
  split_ifs
  · rfl
  · rfl

/-- The only integer within `DBL_EPSILON` of zero is zero. -/
theorem abs_le_dblEpsilon (k : Int) : (Double.finite k).abs.le dblEpsilon = true ↔ k = 0 := by
  have hle : (Double.finite k).abs.le dblEpsilon = true ↔ |(k : ℚ)| ≤ 1 / 2 ^ 52 :=
    decide_eq_true_iff
  rw [hle]
  constructor
  · intro h
    by_contra hne
    have hone : (1 : ℚ) ≤ |(k : ℚ)| := by exact_mod_cast Int.one_le_abs hne
    have hsmall : (1 : ℚ) / 2 ^ 52 < 1 := by norm_num
    exact absurd (hone.trans h) (not_le.mpr hsmall)
  · rintro rfl
    rw [Int.cast_zero, abs_zero]
    positivity

theorem sub_intCast {j k : Int} (h : (j - k).natAbs < 2 ^ 200) :
    (Double.finite j).sub (.finite k) = .finite (nearestInt (j - k)) := by
  have hround := ofInt_eq_nearestInt h
  show Binary64.round (j + -k) = _
  rw [← sub_eq_add_neg, ← Int.cast_sub]
  exact hround

theorem nearestInt_eq_zero {k : Int} : nearestInt k = 0 ↔ k = 0 := by
  have h := @nearest_eq_zero k.natAbs
  have habs := natAbs_nearestInt k
  omega

section Printed

variable {env : Libc} {item : Item} {k : Int}

/-- An item whose `double` is an integer prints as one of its two values. -/
theorem printNumber_intCast (h : item.valuedouble = .finite k) :
    (printNumber env item).2 = if isInteger item then intText item.valueint else intText k := by
  by_cases hint : isInteger item = true
  · rw [printNumber, if_pos hint, if_pos hint]
  · have hfloor : ((Double.finite k).floor.sub (.finite k)).abs.le dblEpsilon = true := by
      have hself : (Double.finite k).floor = .finite k := by rw [Double.floor, Int.floor_intCast]
      rw [hself, sub_intCast (by rw [Int.sub_self]; decide), abs_le_dblEpsilon, nearestInt_eq_zero]
      exact Int.sub_self k
    rw [printNumber, if_neg hint, if_neg hint, h, if_pos hfloor]
    exact fixedText_zero k

/-- The first test of `print_number`, for integers in range. -/
theorem isInteger_iff (h : item.valuedouble = .finite k) (hk : k.natAbs < 2 ^ 190)
    (hint : item.valueint.natAbs < 2 ^ 190) :
    isInteger item = true ↔ nearestInt item.valueint = k ∧ k ≤ 2 ^ 63 ∧ -2 ^ 63 ≤ k := by
  have hbounds := nearest_le item.valueint.natAbs
  have habs := natAbs_nearestInt item.valueint
  have hmax : Double.ofInt (2 ^ 63 - 1) = .finite ((2 ^ 63 : Int) : ℚ) := by
    rw [ofInt_eq_nearestInt (by decide)]
    rfl
  have hmin : Double.ofInt (-2 ^ 63) = .finite ((-2 ^ 63 : Int) : ℚ) := by
    rw [ofInt_eq_nearestInt (by decide)]
    rfl
  have hle (a b : Int) : (Double.finite a).le (.finite b) = true ↔ a ≤ b := by
    have hcast : (Double.finite a).le (.finite b) = true ↔ (a : ℚ) ≤ b := decide_eq_true_iff
    rw [hcast, Int.cast_le]
  rw [isInteger, h, ofInt_eq_nearestInt (by omega), sub_intCast (by omega), hmax, hmin,
    Bool.and_eq_true, Bool.and_eq_true, abs_le_dblEpsilon, nearestInt_eq_zero, hle, hle]
  omega

end Printed

/-- The item of `json_create_number64`. -/
def number64Item (n : Int) : Item :=
  { newItem with type := .number, valuedouble := .ofInt n, valueint := n }

/-- An integer prints as itself the first time. -/
theorem printNumber_number64 (env : Libc) {n : Int} (lo : -2 ^ 63 ≤ n) (hi : n < 2 ^ 63) :
    (printNumber env (number64Item n)).2 = intText n := by
  have hdouble : (number64Item n).valuedouble = .finite (nearestInt n) :=
    ofInt_eq_nearestInt (by omega)
  have hle := @nearest_le_two_pow n.natAbs 63 (by omega)
  have habs := natAbs_nearestInt n
  have hint : isInteger (number64Item n) = true := by
    have hvalue : (number64Item n).valueint.natAbs < 2 ^ 190 := by
      show n.natAbs < 2 ^ 190
      omega
    rw [isInteger_iff hdouble (by omega) hvalue]
    refine ⟨rfl, ?_, ?_⟩ <;> omega
  rw [printNumber_intCast hdouble, if_pos hint]
  rfl

/-- What printing a number comes to, if it is a text. -/
theorem printValue_number {env : Libc} {grants : Nat → Bool} {fmt : Bool} {item : Item} {t : Text}
    (htype : item.type = .number) (hout : item.printOut = none) :
    (printValue env grants fmt (node item nil nil)).1 = .text t ↔
      grants (printNumber env item).1 = true ∧ t = (printNumber env item).2 := by
  have hfresh : (printValue env grants fmt (node item nil nil)).1
      = if grants (printNumber env item).1 then .text (printNumber env item).2 else .null := by
    have hcached : cached fmt item = none := by rw [cached, hout, ite_self]
    show (printItem env grants fmt 0 item nil []).1 = _
    rw [printItem_fst, hcached]
    show freshResult env grants fmt 0 item [] = _
    rw [freshResult, htype]
  rw [hfresh]
  split
  · next h =>
      constructor
      · rintro ⟨⟩
        exact ⟨h, rfl⟩
      · rintro ⟨-, rfl⟩
        rfl
  · next h =>
      constructor
      · rintro ⟨⟩
      · exact fun hgrants => absurd hgrants.1 h

/-! ## There and back -/

/-- The text printed for `json_create_number64(n)` parses as a number whose integer is
`n`, and this number prints as the same text. -/
def Faithful (env : Libc) (n : Int) : Prop :=
  ∀ grants fmt t, (printValue env grants fmt (createNumber64 n)).1 = .text t →
    ∃ item, jsonParse env (t ++ [0]) = .ok (node item nil nil) [0] ∧
      item.type = .number ∧ item.valueint = n ∧
      ∀ grants fmt t', (printValue env grants fmt (node item nil nil)).1 = .text t' → t' = t

section Faithful

variable {env : Libc} {n : Int}

theorem faithful_iff_item (lo : -2 ^ 63 ≤ n) (hi : n < 2 ^ 63) :
    Faithful env n ↔ (numberItem env (intParts n)).valueint = n ∧
      (printNumber env (numberItem env (intParts n))).2 = intText n := by
  have hparse := jsonParse_number env (numberText_intText n)
  have hprint : ∀ {grants fmt t}, (printValue env grants fmt (createNumber64 n)).1 = .text t ↔
      grants (printNumber env (number64Item n)).1 = true ∧ t = intText n := by
    intro grants fmt t
    rw [← printNumber_number64 env lo hi]
    exact @printValue_number _ _ _ (number64Item n) _ rfl rfl
  constructor
  · intro h
    obtain ⟨item, hitem, -, hvalue, hagain⟩ :=
      h unlimited false (intText n) (hprint.mpr ⟨rfl, rfl⟩)
    rw [hparse] at hitem
    cases hitem
    exact ⟨hvalue, hagain unlimited false _ ((printValue_number rfl rfl).mpr ⟨rfl, rfl⟩)⟩
  · rintro ⟨hvalue, hagain⟩ grants fmt t ht
    obtain ⟨-, rfl⟩ := hprint.mp ht
    refine ⟨_, hparse, rfl, hvalue, ?_⟩
    intro grants fmt t' ht'
    obtain ⟨-, rfl⟩ := (printValue_number rfl rfl).mp ht'
    exact hagain

theorem signedDouble_eq_iff : signedDouble n = n ↔ ReadsExactly n.natAbs := by
  rw [← doubleOf_eq_iff, signedDouble]
  split_ifs <;> omega

/-- The number that is printed the second time. -/
theorem printNumber_parsed (lo : -2 ^ 63 ≤ n) (hi : n < 2 ^ 63)
    (hvalue : (numberItem env (intParts n)).valueint = n) :
    (printNumber env (numberItem env (intParts n))).2 = intText n ↔ signedDouble n = n := by
  have hdouble := @valuedouble_eq env n lo hi
  have hfixed := (valueint_eq_iff lo hi).mp hvalue
  have hlt := doubleOf_lt lo hi
  have habs := @natAbs_signedDouble n
  have hint := @isInteger_iff _ _ hdouble (by omega) (by rw [hvalue]; omega)
  rw [printNumber_intCast hdouble, hvalue]
  rw [hvalue, hfixed] at hint
  split
  · next h => exact ⟨fun _ => (hint.mp h).1.symm, fun _ => rfl⟩
  · exact ⟨fun h => intText_injective h, fun h => by rw [h]⟩

theorem Faithful.nearestInt_eq (lo : -2 ^ 63 ≤ n) (hi : n < 2 ^ 63) (h : Faithful env n) :
    nearestInt n = n :=
  (valueint_eq_iff lo hi).mp ((faithful_iff_item lo hi).mp h).1

end Faithful

/-- An `int64_t` survives exactly if adding up its digits in doubles comes to it. -/
theorem faithful_iff (env : Libc) (n : Int) (lo : -2 ^ 63 ≤ n) (hi : n < 2 ^ 63) :
    Faithful env n ↔ ReadsExactly n.natAbs := by
  rw [faithful_iff_item lo hi, ← signedDouble_eq_iff]
  constructor
  · rintro ⟨hvalue, hprint⟩
    exact (printNumber_parsed lo hi hvalue).mp hprint
  · intro h
    have hfixed : nearestInt n = n := by
      have hnearest := @nearestInt_signedDouble n
      rwa [h] at hnearest
    have hvalue := (@valueint_eq_iff env _ lo hi).mpr hfixed
    exact ⟨hvalue, (printNumber_parsed lo hi hvalue).mpr h⟩

theorem faithful_two_pow : Faithful default (2 ^ 53) :=
  (faithful_iff default (2 ^ 53) (by decide) (by decide)).mpr (readsExactly_of_le (by decide))

/-- 9007199254740993 comes back as 9007199254740992. -/
theorem not_faithful : ¬∀ (env : Libc) (n : Int), -2 ^ 63 ≤ n → n < 2 ^ 63 → Faithful env n := by
  intro h
  have hfixed := Faithful.nearestInt_eq (by decide) (by decide)
    (h default (2 ^ 53 + 1) (by decide) (by decide))
  exact absurd hfixed (by decide)

end Libubox.Json
