import Libubox.Lib.Numeral
import Libubox.Unformat.Atomic
import Libubox.Unformat.Text

/-!
# Integers

What `unformat_integer` makes of the characters that are left of its input.  The
longest numeric prefix of a text is an optional sign and a run of digits
(`numericPrefix`).  The loop over the input accumulates the digits modulo 2^64
(`scanText_integer`), and the store keeps the low bytes of what it came to.

`unformatInteger_exact_iff` says when this accepts exactly the numbers that the
destination can hold.
-/

namespace Libubox.Unformat

open Numeral

/-! ## The numeric prefix -/

/-- The base and the sign of the conversions. -/
def conversion (cf : UInt8) : Option (Nat × Bool) :=
  if cf = 100 ∨ cf = 68 then some (10, true)
  else if cf = 117 then some (10, false)
  else if cf = 98 then some (2, false)
  else if cf = 111 then some (8, false)
  else if cf = 120 ∨ cf = 88 then some (16, false)
  else none

/-- How many bytes the destination has; `~0` stands for an `int`. -/
def width (dataBytes : Nat) : Option Nat :=
  if dataBytes = 2 ^ 64 - 1 then some 4
  else if dataBytes = 1 ∨ dataBytes = 2 ∨ dataBytes = 4 ∨ dataBytes = 8 then some dataBytes
  else none

/-- The value of a character as a digit of the base. -/
def digitOf (base : Nat) (c : UInt8) : Option Nat :=
  (hexDigit c).filter fun d => decide (d < base)

/-- The digits in front of a text. -/
def digitRun (base : Nat) : List UInt8 → List Nat
  | [] => []
  | c :: text =>
      match digitOf base c with
      | none => []
      | some d => d :: digitRun base text

/-- The sign in front of a text, and what stands behind it.  Only a signed conversion
has a `-`. -/
def signPart (isSigned : Bool) : List UInt8 → Bool × List UInt8
  | [] => (false, [])
  | c :: text =>
      if c = 45 ∧ isSigned = true then (true, text)
      else if c = 43 then (false, text)
      else (false, c :: text)

/-- A sign and digits. -/
structure NumericPrefix where
  negative : Bool
  digits : List Nat
deriving DecidableEq

/-- The longest numeric prefix of a text. -/
def numericPrefix (base : Nat) (isSigned : Bool) (text : List UInt8) : NumericPrefix :=
  ⟨(signPart isSigned text).1, digitRun base (signPart isSigned text).2⟩

/-- What stands behind the longest numeric prefix. -/
def behindPrefix (base : Nat) (isSigned : Bool) (text : List UInt8) : List UInt8 :=
  (signPart isSigned text).2.drop (numericPrefix base isSigned text).digits.length

/-- The number that a prefix stands for. -/
def NumericPrefix.value (p : NumericPrefix) (base : Nat) : Int :=
  if p.negative then -(continued base 0 p.digits : Int) else continued base 0 p.digits

/-- The number fits `bytes` bytes. -/
def FitsBytes (isSigned : Bool) (bytes : Nat) (v : Int) : Prop :=
  if isSigned then -2 ^ (8 * bytes - 1) ≤ v ∧ v < 2 ^ (8 * bytes - 1)
  else 0 ≤ v ∧ v < 2 ^ (8 * bytes)

instance (isSigned : Bool) (bytes : Nat) (v : Int) : Decidable (FitsBytes isSigned bytes v) :=
  inferInstanceAs (Decidable (if isSigned then _ else _))

/-- The number that the content of a variable stands for. -/
def contentValue (isSigned : Bool) (bytes n : Nat) : Int :=
  if isSigned then Int.bmod n (2 ^ (8 * bytes)) else n

/-- The conversion accepts exactly the numbers that fit, and stores them. -/
def Exact (base : Nat) (isSigned : Bool) (dataBytes var bytes : Nat) (s : State) : Prop :=
  let p := numericPrefix base isSigned s.input.left
  ∃ ok s', unformatInteger base isSigned dataBytes s = .ok (ok, s') ∧
    (ok = true ↔ p.digits ≠ [] ∧ FitsBytes isSigned bytes (p.value base)) ∧
    (ok = true → ∃ n < 2 ^ (8 * bytes), s'.vars var = .integer bytes n ∧
      contentValue isSigned bytes n = p.value base)

/-! ## The loop -/

variable {base : Nat} {isSigned : Bool}

theorem digitOf_eq (hbase : base ≤ 16) (c : UInt8) :
    digitOf base c = (integerDigit base c).filter fun d => decide (d < base) := by
  have hletter : ∀ d, 16 ≤ d → (some d).filter (fun d => decide (d < base)) = none := by
    intro d hd
    rw [Option.filter_some, if_neg]
    simp only [decide_eq_true_eq]
    omega
  unfold digitOf hexDigit integerDigit
  simp only [UInt8.le_iff_toNat_le, UInt8.reduceToNat, ← UInt8.toNat_inj]
  by_cases hdigit : 48 ≤ c.toNat ∧ c.toNat ≤ 57
  · rw [if_pos hdigit, if_pos hdigit]
  rw [if_neg hdigit, if_neg hdigit]
  by_cases hlower : 97 ≤ c.toNat ∧ c.toNat ≤ 122
  · rw [if_pos hlower]
    by_cases hhex : c.toNat ≤ 102
    · rw [if_pos ⟨hlower.1, hhex⟩]
      congr 2
      omega
    · rw [if_neg (by omega), if_neg (by omega), hletter _ (by omega)]
      rfl
  rw [if_neg (by omega), if_neg hlower]
  by_cases hupper : 65 ≤ c.toNat ∧ c.toNat ≤ 90
  · rw [if_pos hupper, if_neg (by omega : ¬ 36 ≤ base)]
    by_cases hhex : c.toNat ≤ 70
    · rw [if_pos ⟨hupper.1, hhex⟩]
      congr 2
      omega
    · rw [if_neg (by omega), hletter _ (by omega)]
      rfl
  rw [if_neg (by omega), if_neg hupper]
  split
  · rw [hletter _ (by omega)]
    rfl
  split
  · rw [hletter _ (by omega)]
    rfl
  · rfl

/-- The loop was left with `a`, and the text behind it is `rest`. -/
def Leaves {α : Type} (x : Option (Scanned α × List UInt8)) (a : α) (rest : List UInt8) : Prop :=
  x = some (.atEnd a, rest) ∨ x = some (.done a, rest)

/-- No sign may be read. -/
def SignDone (a : IntegerScan) (text : List UInt8) : Prop :=
  0 < a.nInput ∨ ∀ c ∈ text.head?, c ≠ 45 ∧ c ≠ 43

theorem integerDigit_sign (base : Nat) {c : UInt8} (hc : c = 45 ∨ c = 43) :
    integerDigit base c = none := by
  cases hc with
  | inl hc => rw [hc]; rfl
  | inr hc => rw [hc]; rfl

/-- A character behind the sign: a digit is accumulated, any other is put back. -/
theorem integerStep_digit (hbase : base ≤ 16) {a : IntegerScan} {c : UInt8} {text : List UInt8}
    (ha : SignDone a (c :: text)) :
    integerStep base isSigned a c = match digitOf base c with
      | none => .putBack a
      | some d =>
          if (base * a.value + d) % 2 ^ 64 < a.value then .error
          else .more { a with
            value := (base * a.value + d) % 2 ^ 64
            nDigits := a.nDigits + 1
            nInput := a.nInput + 1 } := by
  have hsign : a.nInput = 0 → c ≠ 45 ∧ c ≠ 43 := by
    intro hzero
    exact (ha.resolve_left (by omega)) c rfl
  rw [digitOf_eq hbase]
  unfold integerStep
  by_cases hminus : c = 45
  · have hin : a.nInput ≠ 0 := fun hzero => (hsign hzero).1 hminus
    rw [if_pos hminus, if_neg hin, integerDigit_sign base (.inl hminus)]
    rfl
  rw [if_neg hminus]
  by_cases hplus : c = 43
  · have hin : a.nInput ≠ 0 := fun hzero => (hsign hzero).2 hplus
    rw [if_pos hplus, if_pos (Nat.pos_of_ne_zero hin), integerDigit_sign base (.inr hplus)]
    rfl
  rw [if_neg hplus]
  cases hdigit : integerDigit base c with
  | none => rfl
  | some d =>
      simp only
      by_cases hlt : d < base
      · have hfilter : (some d).filter (fun d => decide (d < base)) = some d := by
          rw [Option.filter_some, if_pos (decide_eq_true hlt)]
        rw [if_neg (by omega), hfilter]
      · have hfilter : (some d).filter (fun d => decide (d < base)) = none := by
          rw [Option.filter_some, if_neg]
          simpa using hlt
        rw [if_pos (by omega), hfilter]

/-- **The loop behind the sign** accumulates the digits. -/
theorem scanText_digits (isSigned : Bool) (hbase : base ≤ 16) {text : List UInt8} : ∀ {a : IntegerScan},
    SignDone a text →
    match accumulate base (2 ^ 64) a.value (digitRun base text) with
    | none => ∃ rest, scanText (integerStep base isSigned) a text = some (.error, rest)
    | some v => Leaves (scanText (integerStep base isSigned) a text)
        { a with
          value := v
          nDigits := a.nDigits + (digitRun base text).length
          nInput := a.nInput + (digitRun base text).length }
        (text.drop (digitRun base text).length) := by
  induction text with
  | nil => exact fun _ => .inl rfl
  | cons c text ih =>
      intro a ha
      rw [scanText, integerStep_digit hbase ha, digitRun]
      cases hdigit : digitOf base c with
      | none => exact .inr rfl
      | some d =>
          simp only [accumulate]
          by_cases hlt : (base * a.value + d) % 2 ^ 64 < a.value
          · rw [if_pos hlt, if_pos hlt]
            exact ⟨text, rfl⟩
          · rw [if_neg hlt, if_neg hlt]
            have hrest := @ih { a with
              value := (base * a.value + d) % 2 ^ 64
              nDigits := a.nDigits + 1
              nInput := a.nInput + 1 } (.inl (Nat.succ_pos _))
            simpa [Nat.add_assoc, Nat.add_comm 1] using hrest

/-- The sign is read, unless it is not admitted. -/
theorem scanText_sign (isSigned : Bool) (hbase : base ≤ 16) (text : List UInt8) :
    ((numericPrefix base isSigned text).digits = [] ∧
      ∃ rest, scanText (integerStep base isSigned) ⟨0, 0, 0, false⟩ text = some (.error, rest)) ∨
    ∃ n, scanText (integerStep base isSigned) ⟨0, 0, 0, false⟩ text
        = scanText (integerStep base isSigned) ⟨0, 0, n, (signPart isSigned text).1⟩
          (signPart isSigned text).2 ∧
      SignDone ⟨0, 0, n, (signPart isSigned text).1⟩ (signPart isSigned text).2 := by
  cases text with
  | nil => exact .inr ⟨0, rfl, .inr (by simp [signPart])⟩
  | cons c text =>
      by_cases hminus : c = 45
      · subst hminus
        cases isSigned with
        | false =>
            refine .inl ⟨?_, text, rfl⟩
            show digitRun base (45 :: text) = []
            rw [digitRun, digitOf_eq hbase]
            rfl
        | true => exact .inr ⟨1, rfl, .inl Nat.one_pos⟩
      have hfront : ¬ (c = 45 ∧ isSigned = true) := fun h => hminus h.1
      rw [signPart, if_neg hfront]
      by_cases hplus : c = 43
      · subst hplus
        exact .inr ⟨1, rfl, .inl Nat.one_pos⟩
      · rw [if_neg hplus]
        refine .inr ⟨0, rfl, .inr ?_⟩
        intro c' hc'
        cases hc'
        exact ⟨hminus, hplus⟩

/-- **The loop of `unformat_integer`.**  It fails if a loss is noticed; else it is left
with the remainder of the number, or there are no digits. -/
theorem scanText_integer (isSigned : Bool) (hbase : base ≤ 16) (text : List UInt8) :
    (∃ rest, scanText (integerStep base isSigned) ⟨0, 0, 0, false⟩ text = some (.error, rest) ∧
      ((numericPrefix base isSigned text).digits = [] ∨
        Noticed base (2 ^ 64) 0 (numericPrefix base isSigned text).digits)) ∨
    ¬ Noticed base (2 ^ 64) 0 (numericPrefix base isSigned text).digits ∧
      ∃ n, Leaves (scanText (integerStep base isSigned) ⟨0, 0, 0, false⟩ text)
        ⟨continued base 0 (numericPrefix base isSigned text).digits % 2 ^ 64,
          (numericPrefix base isSigned text).digits.length, n,
          (numericPrefix base isSigned text).negative⟩
        (behindPrefix base isSigned text) := by
  rcases scanText_sign isSigned hbase text with ⟨hnil, rest, herror⟩ | ⟨n, hsign, hdone⟩
  · exact .inl ⟨rest, herror, .inl hnil⟩
  have hscan := scanText_digits isSigned hbase hdone
  rw [hsign]
  rcases accumulate_eq base (numericPrefix base isSigned text).digits
    (Nat.two_pow_pos 64) with ⟨hacc, hnoticed⟩ | ⟨hacc, hnot⟩
  · left
    change accumulate base (2 ^ 64) 0 (digitRun base (signPart isSigned text).2) = none at hacc
    simp only [hacc] at hscan
    obtain ⟨rest, herror⟩ := hscan
    exact ⟨rest, herror, .inr hnoticed⟩
  · right
    change accumulate base (2 ^ 64) 0 (digitRun base (signPart isSigned text).2) = some _ at hacc
    simp only [hacc, Nat.zero_add] at hscan
    exact ⟨hnot, _, hscan⟩

/-! ## The result -/

/-- The bytes that are stored for a numeric prefix. -/
def storedBytes (base : Nat) (p : NumericPrefix) (bytes : Nat) : Nat :=
  (if p.negative then subWord 0 (continued base 0 p.digits % 2 ^ 64)
    else continued base 0 p.digits % 2 ^ 64) % 2 ^ (8 * bytes)

theorem width_bytes {dataBytes bytes : Nat} (h : width dataBytes = some bytes) :
    (if dataBytes = 2 ^ 64 - 1 then 4 else dataBytes) = bytes ∧
      (bytes = 1 ∨ bytes = 2 ∨ bytes = 4 ∨ bytes = 8) := by
  unfold width at h
  split at h
  · next hdefault =>
      cases h
      exact ⟨if_pos hdefault, .inr (.inr (.inl rfl))⟩
  · next hother =>
      split at h
      · next hwidth =>
          cases h
          exact ⟨if_neg hother, hwidth⟩
      · cases h

theorem finish_without_digits {dataBytes : Nat} {a : IntegerScan} (h : a.nDigits = 0) (s : State) :
    unformatInteger.finish dataBytes a s = .ok (false, s) := by
  have hnone : ¬ 0 < a.nDigits := by omega
  unfold unformatInteger.finish
  simp only [hnone, if_false]
  rfl

theorem finish_digits {dataBytes bytes var : Nat} (hwidth : width dataBytes = some bytes)
    {a : IntegerScan} (h : 0 < a.nDigits) {s : State} {va : List Arg}
    (hva : s.va = .pointer (some var) :: va) :
    unformatInteger.finish dataBytes a s = .ok (true, { s with
      va
      vars := Function.update s.vars var
        (.integer bytes ((if a.sign then subWord 0 a.value else a.value) % 2 ^ (8 * bytes))) }) := by
  obtain ⟨hbytes, hcases⟩ := width_bytes hwidth
  have hpointer : vaPointer s = .ok (some var, { s with va }) := by
    unfold vaPointer
    rw [hva]
  unfold unformatInteger.finish
  simp only [h, if_true, hbytes, hcases]
  show (vaPointer s >>= fun p => _) = _
  rw [hpointer]
  rfl

/-- **`unformat_integer`** fails without digits and when it notices a loss; else it
stores the low bytes of what it accumulated. -/
theorem unformatInteger_spec (isSigned : Bool) (hlow : 2 ≤ base) (hbase : base ≤ 16) {dataBytes bytes var : Nat}
    (hwidth : width dataBytes = some bytes) {s : State} {va : List Arg} (hok : Ok s.input)
    (hva : s.va = .pointer (some var) :: va) :
    ∃ ok s', unformatInteger base isSigned dataBytes s = .ok (ok, s') ∧
      (ok = true ↔ (numericPrefix base isSigned s.input.left).digits ≠ [] ∧
        ¬ Noticed base (2 ^ 64) 0 (numericPrefix base isSigned s.input.left).digits) ∧
      (ok = true → s'.va = va ∧ Ok s'.input ∧
        s'.input.left = behindPrefix base isSigned s.input.left ∧
        s'.vars = Function.update s.vars var
          (.integer bytes
            (storedBytes base (numericPrefix base isSigned s.input.left) bytes))) := by
  obtain ⟨hbytes, hcases⟩ := width_bytes hwidth
  have hrange : ¬ (base < 2 ∨ 64 < base) := by omega
  rcases scanText_integer isSigned hbase s.input.left with
    ⟨rest, herror, hfail⟩ | ⟨hnot, n, hleaves⟩
  · obtain ⟨input, hscan, -, -⟩ := scan_text (integerStep base isSigned) hok herror
    refine ⟨false, { s with input }, ?_, ?_, nofun⟩
    · unfold unformatInteger
      rw [if_neg hrange]
      show (scan (integerStep base isSigned) ⟨0, 0, 0, false⟩ s >>= fun p => _) = _
      rw [hscan]
      rfl
    · refine iff_of_false nofun ?_
      intro ⟨hsome, hnot⟩
      exact hfail.elim hsome hnot
  have hfinish : ∃ input, unformatInteger base isSigned dataBytes s
      = unformatInteger.finish dataBytes
        ⟨continued base 0 (numericPrefix base isSigned s.input.left).digits % 2 ^ 64,
          (numericPrefix base isSigned s.input.left).digits.length, n,
          (numericPrefix base isSigned s.input.left).negative⟩ { s with input } ∧
      Ok input ∧ input.left = behindPrefix base isSigned s.input.left := by
    unfold unformatInteger
    rw [if_neg hrange]
    cases hleaves with
    | inl hend =>
        obtain ⟨input, hscan, hinput⟩ := scan_text (integerStep base isSigned) hok hend
        refine ⟨input, ?_, hinput⟩
        show (scan (integerStep base isSigned) ⟨0, 0, 0, false⟩ s >>= fun p => _) = _
        rw [hscan]
        rfl
    | inr hdone =>
        obtain ⟨input, hscan, hinput⟩ := scan_text (integerStep base isSigned) hok hdone
        refine ⟨input, ?_, hinput⟩
        show (scan (integerStep base isSigned) ⟨0, 0, 0, false⟩ s >>= fun p => _) = _
        rw [hscan]
        rfl
  obtain ⟨input, hrun, hinput, hleft⟩ := hfinish
  rw [hrun]
  cases hdigits : (numericPrefix base isSigned s.input.left).digits with
  | nil =>
      refine ⟨false, { s with input }, finish_without_digits rfl _, ?_, nofun⟩
      exact iff_of_false nofun fun h => h.1 rfl
  | cons d ds =>
      refine ⟨true, _, finish_digits hwidth (Nat.succ_pos _) hva, ?_, fun _ => ⟨rfl, hinput, hleft, ?_⟩⟩
      · rw [hdigits] at hnot
        exact iff_of_true rfl ⟨List.cons_ne_nil d ds, hnot⟩
      · rw [storedBytes, hdigits]

/-! ## Representable numbers -/

theorem storedBytes_eq (base : Nat) (p : NumericPrefix) {bytes : Nat}
    (hbytes : bytes = 1 ∨ bytes = 2 ∨ bytes = 4 ∨ bytes = 8) :
    (storedBytes base p bytes : Int) = p.value base % 2 ^ (8 * bytes) := by
  unfold storedBytes NumericPrefix.value subWord
  generalize continued base 0 p.digits = n
  rcases hbytes with rfl | rfl | rfl | rfl
  all_goals
    split
    · norm_num
      omega
    · norm_num

theorem storedBytes_lt (p : NumericPrefix) (bytes : Nat) :
    storedBytes base p bytes < 2 ^ (8 * bytes) :=
  Nat.mod_lt _ (Nat.two_pow_pos _)

/-- What is stored for a number that fits is that number. -/
theorem contentValue_stored {p : NumericPrefix} {bytes : Nat}
    (hbytes : bytes = 1 ∨ bytes = 2 ∨ bytes = 4 ∨ bytes = 8)
    (hfits : FitsBytes isSigned bytes (p.value base)) :
    contentValue isSigned bytes (storedBytes base p bytes) = p.value base := by
  have hstored := storedBytes_eq base p hbytes
  unfold contentValue
  rw [hstored]
  unfold FitsBytes at hfits
  generalize p.value base = v at *
  cases isSigned with
  | false =>
      simp only [Bool.false_eq_true, if_false] at hfits ⊢
      exact Int.emod_eq_of_lt hfits.1 hfits.2
  | true =>
      simp only [if_true] at hfits ⊢
      have hhalf : (2 : Int) ^ (8 * bytes) = 2 ^ (8 * bytes - 1) * 2 := by
        rw [← pow_succ]
        congr 1
        omega
      have hcast : ((2 ^ (8 * bytes) : Nat) : Int) = 2 ^ (8 * bytes) := by push_cast; rfl
      rw [← hcast, Int.emod_bmod]
      apply Int.bmod_eq_of_le_mul_two
      · rw [hcast, hhalf]
        omega
      · rw [hcast, hhalf]
        omega

/-- A number that fits loses nothing. -/
theorem not_noticed_of_fits (hlow : 0 < base) {p : NumericPrefix} {bytes : Nat}
    (hbytes : bytes = 1 ∨ bytes = 2 ∨ bytes = 4 ∨ bytes = 8)
    (hfits : FitsBytes isSigned bytes (p.value base)) :
    ¬ Noticed base (2 ^ 64) 0 p.digits := by
  apply not_noticed hlow
  unfold FitsBytes NumericPrefix.value at hfits
  generalize continued base 0 p.digits = n at *
  have hbits : (2 : Int) ^ (8 * bytes) ≤ 2 ^ 64 := pow_le_pow_right₀ (by norm_num) (by omega)
  have hhalf : (2 : Int) ^ (8 * bytes - 1) < 2 ^ 64 := pow_lt_pow_right₀ (by norm_num) (by omega)
  have hlt : (n : Int) < 2 ^ 64 := by
    cases isSigned with
    | false =>
        simp only [Bool.false_eq_true, if_false] at hfits
        split at hfits <;> omega
    | true =>
        simp only [if_true] at hfits
        split at hfits <;> omega
  exact_mod_cast hlt

theorem conversion_base {cf : UInt8} (h : conversion cf = some (base, isSigned)) :
    2 ≤ base ∧ base ≤ 16 := by
  unfold conversion at h
  split at h
  · cases h
    exact ⟨by norm_num, by norm_num⟩
  split at h
  · cases h
    exact ⟨by norm_num, by norm_num⟩
  split at h
  · cases h
    exact ⟨by norm_num, by norm_num⟩
  split at h
  · cases h
    exact ⟨by norm_num, by norm_num⟩
  split at h
  · cases h
    exact ⟨by norm_num, by norm_num⟩
  · cases h

/-- The letters of the integer conversions; `D` and `X` take the size of the
destination from an argument. -/
theorem directive_integer (fns : Nat → UserParser) {cf : UInt8} (dataBytes : Nat) (f : List UInt8)
    (h : conversion cf = some (base, isSigned)) :
    directive fns cf dataBytes f =
      if cf = 68 ∨ cf = 88 then (do unformatInteger base isSigned (← sizeArgument))
      else unformatInteger base isSigned dataBytes := by
  unfold conversion at h
  split at h
  · next hcf =>
      cases h
      rcases hcf with rfl | rfl <;> rfl
  split at h
  · next hcf => cases h; cases hcf; rfl
  split at h
  · next hcf => cases h; cases hcf; rfl
  split at h
  · next hcf => cases h; cases hcf; rfl
  split at h
  · next hcf =>
      cases h
      rcases hcf with rfl | rfl <;> rfl
  · cases h

/-- **`unformat_integer` accepts exactly the representable numbers** exactly if there
are no digits, the number fits the destination, or a digit makes the remainder
modulo 2^64 smaller.  A number that wraps without that is accepted, and so is one
that fits 64 bits but not the destination. -/
theorem unformatInteger_exact_iff {cf : UInt8} (hconversion : conversion cf = some (base, isSigned))
    {dataBytes bytes var : Nat} (hwidth : width dataBytes = some bytes) {s : State}
    {va : List Arg} (hok : Ok s.input) (hva : s.va = .pointer (some var) :: va) :
    Exact base isSigned dataBytes var bytes s ↔
      (numericPrefix base isSigned s.input.left).digits = [] ∨
      FitsBytes isSigned bytes ((numericPrefix base isSigned s.input.left).value base) ∨
      Noticed base (2 ^ 64) 0 (numericPrefix base isSigned s.input.left).digits := by
  obtain ⟨hlow, hbase⟩ := conversion_base hconversion
  obtain ⟨-, hbytes⟩ := width_bytes hwidth
  obtain ⟨ok, s', hrun, hiff, hstore⟩ := unformatInteger_spec isSigned hlow hbase
    hwidth hok hva
  unfold Exact
  generalize hp : numericPrefix base isSigned s.input.left = p at *
  have hloss : FitsBytes isSigned bytes (p.value base) → ¬ Noticed base (2 ^ 64) 0 p.digits :=
    not_noticed_of_fits (by omega) hbytes
  constructor
  · intro ⟨ok₂, s₂, hrun₂, hexact, _⟩
    rw [hrun] at hrun₂
    cases hrun₂
    by_cases hdigits : p.digits = []
    · exact .inl hdigits
    by_cases hnoticed : Noticed base (2 ^ 64) 0 p.digits
    · exact .inr (.inr hnoticed)
    · exact .inr (.inl (hexact.mp (hiff.mpr ⟨hdigits, hnoticed⟩)).2)
  · intro hcases
    refine ⟨ok, s', hrun, ?_, ?_⟩
    · rw [hiff]
      constructor
      · intro ⟨hdigits, hnot⟩
        exact ⟨hdigits, (hcases.resolve_left hdigits).resolve_right hnot⟩
      · intro ⟨hdigits, hfits⟩
        exact ⟨hdigits, hloss hfits⟩
    · intro htrue
      obtain ⟨hdigits, hnot⟩ := hiff.mp htrue
      have hfits := (hcases.resolve_left hdigits).resolve_right hnot
      obtain ⟨-, -, -, hvars⟩ := hstore htrue
      refine ⟨storedBytes base p bytes, storedBytes_lt p bytes, ?_, contentValue_stored hbytes hfits⟩
      rw [hvars, Function.update_self]

theorem left_unformatInitString {text : List UInt8} (h : text.length ≤ BUFFER_SIZE) :
    (unformatInitString text).left = text := by
  have hroom : ¬ BUFFER_SIZE - 0 < text.length := by omega
  have hinit : unformatInitString text = { unformatInit none with
      buffer := Bytes.overwrite (List.replicate BUFFER_SIZE 0) 0 text
      bufferLen := 0 + text.length } := if_neg hroom
  rw [hinit]
  simp [Input.left, Input.unread, Input.fetch, Input.rest, unformatInit, Bytes.overwrite]

/-- A state that reads a text. -/
def reading (text : List UInt8) (args : List Arg) : State :=
  ⟨unformatInitString text, args, fun _ => .integer 4 0, fun _ => true, 0⟩

/-- `300` fits two bytes. -/
theorem unformatInteger_exact_iff_fits :
    Exact 10 false 2 0 2 (reading [51, 48, 48] [.pointer (some 0)]) := by
  have hpre : numericPrefix 10 false (unformatInitString [51, 48, 48]).left
      = ⟨false, [3, 0, 0]⟩ := by
    rw [left_unformatInitString (by decide)]
    rfl
  refine (unformatInteger_exact_iff (rfl : conversion 117 = some (10, false)) rfl
    (InUse.string [51, 48, 48]).ok rfl).mpr (.inr (.inl ?_))
  show FitsBytes false 2 ((numericPrefix 10 false (unformatInitString [51, 48, 48]).left).value 10)
  rw [hpre]
  decide

/-- `30000000000000000000`. -/
def thirty : List UInt8 := 51 :: List.replicate 19 48

/-- Thirty quintillions fit no destination: modulo 2^64 they are accepted all the
same. -/
theorem not_unformatInteger_exact : ¬ ∀ (cf : UInt8) (base : Nat) (isSigned : Bool)
    (dataBytes bytes var : Nat) (s : State) (va : List Arg),
    conversion cf = some (base, isSigned) → width dataBytes = some bytes → Ok s.input →
    s.va = .pointer (some var) :: va → Exact base isSigned dataBytes var bytes s := by
  intro h
  obtain ⟨ok, s', hrun, hiff, -⟩ := h 100 10 true 8 8 0 (reading thirty [.pointer (some 0)]) [] rfl
    rfl (InUse.string thirty).ok rfl
  have hpre : numericPrefix 10 true (unformatInitString thirty).left
      = ⟨false, 3 :: List.replicate 19 0⟩ := by
    rw [left_unformatInitString (by decide)]
    decide
  obtain ⟨s₂, haccepts⟩ : ∃ s₂, unformatInteger 10 true 8 (reading thirty [.pointer (some 0)])
      = .ok (true, s₂) := ⟨_, rfl⟩
  have hok : ok = true := by
    rw [haccepts] at hrun
    cases hrun
    rfl
  have hfits := (hiff.mp hok).2
  change FitsBytes true 8 ((numericPrefix 10 true (unformatInitString thirty).left).value 10) at hfits
  rw [hpre] at hfits
  revert hfits
  decide

end Libubox.Unformat
