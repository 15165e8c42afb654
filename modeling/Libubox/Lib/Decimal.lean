import Libubox.Lib.Binary64
import Mathlib.Data.Nat.Digits.Lemmas

/-!
# Decimal texts

The texts `printf` writes for `%d`, `%.nf` and `%e`, as byte strings, and the
reading of a digit string.  A finite double is printed from its exact value,
rounded to the digits asked for, ties to even.

`readFrom n ds` continues a number `n` with the digits `ds`;
`readFrom_natText` reads a printed natural number back.
-/

namespace Decimal

/-! ## Digit strings -/

/-- A byte from `'0'` to `'9'`. -/
def IsDigit (c : UInt8) : Prop := 48 ≤ c ∧ c ≤ 57

instance (c : UInt8) : Decidable (IsDigit c) := inferInstanceAs (Decidable (_ ∧ _))

/-- `c - '0'`. -/
def digitValue (c : UInt8) : Nat := c.toNat - 48

def digitByte (d : Nat) : UInt8 := UInt8.ofNat (48 + d)

/-- The number `n` continued by a digit string. -/
def readFrom (n : Nat) (ds : List UInt8) : Nat :=
  ds.foldl (fun n c => n * 10 + digitValue c) n

/-- The digits of `n`, most significant first. -/
def natText (n : Nat) : List UInt8 :=
  if n = 0 then [digitByte 0] else (Nat.digits 10 n).reverse.map digitByte

/-- The digits of `n`, with leading zeros up to `width` digits. -/
def paddedText (width n : Nat) : List UInt8 :=
  List.replicate (width - (natText n).length) (digitByte 0) ++ natText n

@[simp] theorem readFrom_nil (n : Nat) : readFrom n [] = n := rfl

@[simp] theorem readFrom_cons (n : Nat) (c : UInt8) (ds : List UInt8) :
    readFrom n (c :: ds) = readFrom (n * 10 + digitValue c) ds := by
  simp only [readFrom, List.foldl_cons]

/-- Digits never make a number smaller. -/
theorem le_readFrom (n : Nat) (ds : List UInt8) : n ≤ readFrom n ds := by
  induction ds generalizing n with
  | nil => exact le_rfl
  | cons c ds ih =>
      have := ih (n * 10 + digitValue c)
      rw [readFrom_cons]
      omega

theorem toNat_digitByte {d : Nat} (h : d < 10) : (digitByte d).toNat = 48 + d := by
  rw [digitByte, UInt8.toNat_ofNat']
  omega

theorem digitValue_digitByte {d : Nat} (h : d < 10) : digitValue (digitByte d) = d := by
  rw [digitValue, toNat_digitByte h]
  omega

theorem isDigit_digitByte {d : Nat} (h : d < 10) : IsDigit (digitByte d) := by
  have := toNat_digitByte h
  constructor
  · rw [UInt8.le_iff_toNat_le, this]
    exact Nat.le_add_right 48 d
  · rw [UInt8.le_iff_toNat_le, this]
    change 48 + d ≤ 57
    omega

/-- Only digits are printed. -/
theorem isDigit_of_mem_natText {n : Nat} {c : UInt8} (h : c ∈ natText n) : IsDigit c := by
  unfold natText at h
  split at h
  · rw [List.mem_singleton.mp h]
    exact isDigit_digitByte (by norm_num)
  · obtain ⟨d, hd, rfl⟩ := List.mem_map.mp h
    exact isDigit_digitByte (Nat.digits_lt_base (by norm_num) (List.mem_reverse.mp hd))

/-- Printed digits continue a number by `ofDigits`. -/
theorem readFrom_digitBytes {ds : List Nat} (h : ∀ d ∈ ds, d < 10) :
    readFrom 0 (ds.reverse.map digitByte) = Nat.ofDigits 10 ds := by
  induction ds with
  | nil => rfl
  | cons d ds ih =>
      have ih := ih fun e he => h e (List.mem_cons_of_mem d he)
      have hd := digitValue_digitByte (h d List.mem_cons_self)
      rw [readFrom] at ih ⊢
      rw [List.reverse_cons, List.map_append, List.foldl_append, ih, Nat.ofDigits_cons]
      simp only [List.map_cons, List.map_nil, List.foldl_cons, List.foldl_nil, hd]
      ring

/-- A printed number reads back. -/
theorem readFrom_natText (n : Nat) : readFrom 0 (natText n) = n := by
  unfold natText
  split
  · next h => rw [h]; rfl
  · rw [readFrom_digitBytes fun d hd => Nat.digits_lt_base (by norm_num) hd,
      Nat.ofDigits_digits]

/-- A positive number starts with a digit from `'1'` to `'9'`. -/
theorem natText_of_pos {n : Nat} (h : n ≠ 0) :
    ∃ d ds, natText n = d :: ds ∧ IsDigit d ∧ d ≠ 48 := by
  have hne : Nat.digits 10 n ≠ [] := Nat.digits_ne_nil_iff_ne_zero.mpr h
  have hlast : (Nat.digits 10 n).getLast hne ≠ 0 := Nat.getLast_digit_ne_zero 10 h
  have hlt : (Nat.digits 10 n).getLast hne < 10 :=
    Nat.digits_lt_base (by norm_num) (List.getLast_mem hne)
  have hcut := List.dropLast_append_getLast hne
  refine ⟨digitByte ((Nat.digits 10 n).getLast hne),
    ((Nat.digits 10 n).dropLast.reverse).map digitByte, ?_, isDigit_digitByte hlt, ?_⟩
  · rw [natText, if_neg h]
    conv_lhs => rw [← hcut]
    simp
  · intro heq
    have hval := toNat_digitByte hlt
    rw [heq] at hval
    change 48 = _ at hval
    omega

@[simp] theorem natText_zero : natText 0 = [48] := rfl

theorem natText_ne_nil (n : Nat) : natText n ≠ [] := by
  by_cases h : n = 0
  · rw [h, natText_zero]
    exact List.cons_ne_nil _ _
  · obtain ⟨d, ds, hds, -⟩ := natText_of_pos h
    rw [hds]
    exact List.cons_ne_nil _ _

theorem natText_length_le {n k : Nat} (hk : 0 < k) (h : n < 10 ^ k) : (natText n).length ≤ k := by
  rw [natText]
  split
  · exact hk
  · rw [List.length_map, List.length_reverse]
    exact (Nat.digits_length_le_iff (by decide) n).mpr h

theorem natText_injective {m n : Nat} (h : natText m = natText n) : m = n := by
  have hread := congrArg (readFrom 0) h
  rwa [readFrom_natText, readFrom_natText] at hread

/-! ## `printf` -/

/-- `%d` (and `PRId64`). -/
def intText (k : Int) : List UInt8 :=
  if k < 0 then 45 :: natText k.natAbs else natText k.natAbs

theorem intText_length_le {n : Int} {k : Nat} (hk : 0 < k) (h : n.natAbs < 10 ^ k) :
    (intText n).length ≤ k + 1 := by
  have hle := natText_length_le hk h
  rw [intText]
  split
  · exact Nat.succ_le_succ hle
  · exact hle.trans (Nat.le_succ k)

/-- `%.nf` of a finite value. -/
def fixedText (places : Nat) (q : ℚ) : List UInt8 :=
  let scaled := (Binary64.roundHalfEven (|q| * 10 ^ places)).natAbs
  (if q < 0 then [45] else []) ++ natText (scaled / 10 ^ places)
    ++ (if places = 0 then [] else 46 :: paddedText places (scaled % 10 ^ places))

/-- `%e` of a finite value. -/
def exponentText (q : ℚ) : List UInt8 :=
  let e := Int.log 10 |q|
  let scaled := (Binary64.roundHalfEven (|q| / 10 ^ e * 10 ^ 6)).natAbs
  let carry := decide (scaled = 10 ^ 7)
  let scaled := if carry then 10 ^ 6 else scaled
  let e := if q = 0 then 0 else if carry then e + 1 else e
  (if q < 0 then [45] else []) ++ natText (scaled / 10 ^ 6)
    ++ 46 :: paddedText 6 (scaled % 10 ^ 6)
    ++ 101 :: (if e < 0 then 45 else 43) :: paddedText 2 e.natAbs

end Decimal
